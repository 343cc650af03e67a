import JosVmm.Ept.Place
import JosVmm.Machine.Vmexits

/-!
# Guests — exits and accounts

The operations that put leaves into a guest's table, each with its own way of counting the page:

* an EPT violation maps a fresh page and does not count it (`Acct.eptFault`);
* the CGA page is mapped without a count of its own, so a reference to it must be to spare;
* the memory map of a guest is a fresh page, counted once (`Acct.mbmap`);
* `sys_ept_map` counts the page after it is mapped (`Acct.eptMap`).
-/

namespace JosVmm
open Support Support.Radix Support.Prog Support.Counting

variable {R : Reading Nat} {F : Layout 512} {A : Finset Nat} {extra m : Nat → Nat}
  {s s' : Pmap} {L : List Nat} {r : Nat} {gpa physSz : Word} {b : Bool}

/-! ### Reads -/

theorem readOnly_walkLevel {next : Word → Pm (Option Ptr)} (hnext : ∀ pa, ReadOnly (next pa))
    (tbl : Ptr) (i : Fin 512) : ReadOnly (walkLevel next tbl i false) := by
  refine (readOnly_load _).bind fun e => ?_
  rw [if_neg (by simp)]
  split
  · exact hnext _
  · exact readOnly_pure _

theorem readOnly_pgdirWalk (pgdir : Ptr) (va : Word) : ReadOnly (pgdirWalk pgdir va false) :=
  readOnly_walkLevel (fun _ => (readOnly_kaddr _).bind fun _ => readOnly_pure _) _ _

theorem readOnly_pdpeWalk (pdpe : Ptr) (va : Word) : ReadOnly (pdpeWalk pdpe va false) :=
  readOnly_walkLevel (fun _ => (readOnly_kaddr _).bind fun _ => readOnly_pgdirWalk _ _) _ _

/-- A walk that does not create reads only. -/
theorem readOnly_pml4eWalk (pml4e : Option Ptr) (va : Word) :
    ReadOnly (pml4eWalk pml4e va false) := by
  cases pml4e with
  | none => exact readOnly_pure _
  | some tbl =>
    simp only [pml4eWalk]
    exact readOnly_walkLevel (fun _ => (readOnly_kaddr _).bind fun _ => readOnly_pdpeWalk _ _) _ _

/-- `page_lookup` reads only, and finds pages. -/
theorem pageLookup_eq_ok {pml4e : Option Ptr} {va : Word} {o : Option (Nat × Ptr)}
    (h : (pageLookup pml4e va).run s = .ok (o, s')) :
    s' = s ∧ ∀ map pte, o = some (map, pte) → map < s.npages := by
  obtain ⟨w, s1, hw, h1⟩ := bind_inv h
  obtain rfl := readOnly_pml4eWalk _ _ _ _ _ hw
  cases w with
  | none =>
    cases h1
    exact ⟨rfl, nofun⟩
  | some pte =>
    obtain ⟨e, s2, he, h2⟩ := bind_inv h1
    obtain rfl := readOnly_load _ _ _ _ he
    split at h2
    · obtain ⟨p, s3, hp, h3⟩ := bind_inv h2
      obtain ⟨rfl, -, hlt⟩ := pa2page_eq_ok hp
      cases h3
      refine ⟨rfl, fun map pte e => ?_⟩
      cases e
      exact hlt
    · cases h2
      exact ⟨rfl, nofun⟩

/-! ### EPT violations -/

theorem inTables_roundDownPg : InTables (roundDownPg gpa) ↔ InTables gpa := by
  obtain ⟨-, h1, -, h2⟩ : _ ∧ _ ∧ _ ∧ _ := by
    simpa only [vpn, Prod.mk.injEq] using vpn_roundDownPg gpa
  rw [InTables, InTables, h1, h2]

theorem assertOk_eq_ok {res : Except Err Unit} {u : Unit} (h : (assertOk res).run s = .ok (u, s')) :
    res = .ok () ∧ s' = s := by
  cases res with
  | error e => cases h
  | ok r => cases h; exact ⟨rfl, rfl⟩

/-- **What `handle_eptviolation` did**: nothing, or it tried to insert a new page, or the CGA
page. -/
theorem eptFault_cases {eptrt : Option Ptr} (h : FreeList s L)
    (hrun : (eptFault eptrt physSz gpa).run s = .ok (b, s')) :
    s' = s ∨
    (∃ p L' res, L = p :: L' ∧ (eptPageInsert eptrt p (roundDownPg gpa) (epteFull.setWidth 32)
      false).run (s.take p) = .ok (res, s')) ∨
    (cgaBuf ≤ gpa ∧ gpa < cgaBuf + 4096#64) ∧ cgaPage < s.npages ∧ ∃ res,
      (eptPageInsert eptrt cgaPage cgaBuf (epteFull.setWidth 32) false).run s = .ok (res, s') := by
  rw [eptFault] at hrun
  split at hrun
  · -- memory of the guest
    cases L with
    | nil =>
      rw [bind_ok (pageAlloc_none h.nil false)] at hrun
      cases hrun
      exact .inl rfl
    | cons p L =>
      rw [bind_ok (h.pageAlloc false)] at hrun
      obtain ⟨res, s1, hins, hrun1⟩ := bind_inv hrun
      obtain ⟨_, s2, hres, hrun2⟩ := bind_inv hrun1
      obtain ⟨-, rfl⟩ := assertOk_eq_ok hres
      cases hrun2
      exact .inr (.inl ⟨p, L, res, rfl, hins⟩)
  · split at hrun
    · rename_i hin
      obtain ⟨p, s₀, hp, hrun0⟩ := bind_inv hrun
      obtain ⟨rfl, rfl, hlt⟩ := pa2page_eq_ok hp
      obtain ⟨res, s1, hins, hrun1⟩ := bind_inv hrun0
      obtain ⟨_, s2, hres, hrun2⟩ := bind_inv hrun1
      obtain ⟨-, rfl⟩ := assertOk_eq_ok hres
      cases hrun2
      exact .inr (.inr ⟨hin, hlt, res, hins⟩)
    · cases hrun
      exact .inl rfl

theorem epteFull_lt : (epteFull.setWidth 32).toNat < 8 := by decide

/-- **`handle_eptviolation`** at an address whose doubled indexes stay in its tables, with a
reference to the CGA page to spare if that is what it maps. -/
theorem Acct.eptFault (h : Acct R F A extra s L) (hG : EptRoot R F r) (hm : ∀ q, m q ≤ extra q)
    (hx : InTables gpa)
    (hcga : cgaBuf ≤ gpa → gpa < cgaBuf + 4096#64 →
      view R F s r (doubled cgaBuf) = some cgaPage ∨ cgaPage ∉ A ∧ m cgaPage < extra cgaPage)
    (hrun : (eptFault (some (r * 512)) physSz gpa).run s = .ok (b, s')) :
    ∃ A' extra' L', Acct R F A' extra' s' L' ∧ (∀ q, m q ≤ extra' q) ∧ s'.npages = s.npages := by
  obtain rfl | ⟨p, L', res, rfl, hins⟩ | ⟨hin, hlt, res, hins⟩ := eptFault_cases h.toFreeList hrun
  · exact ⟨A, extra, L, h, hm, rfl⟩
  · have hp := h.ref_of_free (List.mem_cons_self ..)
    have hlt : p < s.npages := h.lt p (List.mem_cons_self ..)
    obtain ⟨extra', L', h', hm', hnp⟩ := h.alloc.eptInsert hG (inTables_roundDownPg.mpr hx) hm
      hlt (epteAddr_leaf (Pmap.lt_two_pow_52 hlt) epteFull_lt)
      (.inr (.inr ⟨Finset.mem_insert_self .., by rw [leaves_take]; exact hp.1⟩)) hins
    exact ⟨_, extra', L', h', hm', hnp⟩
  · obtain ⟨extra', L', h', hm', hnp⟩ := h.eptInsert hG (by decide) hm hlt
      (epteAddr_leaf (Pmap.lt_two_pow_52 hlt) epteFull_lt) ((hcga hin.1 hin.2).imp_right .inl) hins
    exact ⟨A, extra', L', h', hm', hnp⟩

/-! ### The memory map of a guest -/

theorem mbmap_length (stack : Fin 13 → BitVec 32) (physSz : Word) :
    (mbinfo stack ++ bootMap physSz).length = 31 := by
  simp [mbinfo, bootMap, memoryMap]

/-- **What the `MBMAP` hypercall did**: nothing, or it took a page, counted it, wrote to it, and
tried to insert it. -/
theorem mbmap_cases {stack : Fin 13 → BitVec 32} {eptrt : Option Ptr} (h : FreeList s L)
    (hrun : (mbmap stack eptrt physSz).run s = .ok (b, s')) :
    s' = s ∨ ∃ p L' w res, L = p :: L' ∧ (∀ a, a / 512 ≠ p → w a = s.mem a) ∧
      (eptPageInsert eptrt p multibootMapAddr (epteFull.setWidth 32) true).run
        (((s.handOut false p).setRef p ((s.handOut false p).ppRef p + 1#16)).withMem w) =
          .ok (res, s') := by
  rw [mbmap] at hrun
  cases L with
  | nil =>
    rw [bind_ok (pageAlloc_none h.nil false)] at hrun
    cases hrun
    exact .inl rfl
  | cons p L =>
    have hlt : p < ((s.handOut false p).setRef p ((s.handOut false p).ppRef p + 1#16)).npages :=
      h.lt p (List.mem_cons_self ..)
    rw [bind_ok (h.pageAlloc false), bind_ok (incRef_run _ p)] at hrun
    obtain ⟨w, hw, hag, -⟩ := copyDwords_run (mbinfo stack ++ bootMap physSz) 0 hlt
      (by rw [mbmap_length]; decide)
    rw [page2kva, bind_ok (kaddr_page2pa hlt), copyDwords, bind_ok hw] at hrun
    obtain ⟨res, s2, hins, hrun2⟩ := bind_inv hrun
    cases hrun2
    exact .inr ⟨p, L, w, res, rfl, hag, hins⟩

/-- **The `MBMAP` hypercall** hands out a page, counts it, and maps it. -/
theorem Acct.mbmap {stack : Fin 13 → BitVec 32} (h : Acct R F A extra s L) (hG : EptRoot R F r)
    (hm : ∀ q, m q ≤ extra q) (hrun : (mbmap stack (some (r * 512)) physSz).run s = .ok (b, s')) :
    ∃ A' extra' L', Acct R F A' extra' s' L' ∧ (∀ q, m q ≤ extra' q) ∧ s'.npages = s.npages := by
  obtain rfl | ⟨p, L', w, res, rfl, hag, hins⟩ := mbmap_cases h.toFreeList hrun
  · exact ⟨A, extra, L, h, hm, rfl⟩
  · obtain ⟨hA, hL, hT, h1⟩ := h.counted false
    have hlt : p < s.npages := h.lt p (List.mem_cons_self ..)
    have h2 := h1.withMem (m := w) fun t ht i => hag _ (by
      rw [slot_div]
      rintro rfl
      exact tables_eq_zero.mp hT ht)
    obtain ⟨extra', L', h', hm', hnp'⟩ := h2.eptInsert (m := m) hG (by decide)
      (fun q => Nat.le_trans (hm q) (Nat.le_add_right ..)) hlt
      (epteAddr_leaf (Pmap.lt_two_pow_52 hlt) epteFull_lt)
      (.inr (.inl ⟨hA, by rw [one_of rfl]; exact Nat.lt_succ_of_le (hm p)⟩)) hins
    exact ⟨A, extra', L', h', hm', hnp'⟩

/-! ### Mapping a page of another environment -/

/-- What `sys_ept_map` needs of the page `map` it finds: its count neither is zero nor wraps
around, and the permissions leave the address in the leaf alone. -/
structure Shareable (s : Pmap) (map : Nat) (perm : BitVec 32) : Prop where
  counted : s.ppRef map ≠ 0#16
  room : (s.ppRef map).toNat < 65535
  addr : epteAddr (eptLeaf map perm) = page2pa map

/-- **What the second half of `sys_ept_map` did**: it found nothing to map, or may not, or it
tried to insert the page, and counted it if that worked. -/
theorem eptMap_eq_ok {src g : Env} {srcva guestPa : Word} {perm : BitVec 32} {res : Except Err Unit}
    (hrun : (eptMap src g srcva guestPa perm).run s = .ok (res, s')) :
    (s' = s ∧ res ≠ .ok ()) ∨ ∃ map pte s1,
      (pageLookup src.envPml4e srcva).run s = .ok (some (map, pte), s) ∧ map < s.npages ∧
      perm ≠ 0 ∧ (perm &&& 2#32 ≠ 0 → s.mem pte &&& pteW ≠ 0) ∧
      (eptPageInsert g.envPml4e map guestPa perm false).run s = .ok (res, s1) ∧
      (res ≠ .ok () ∧ s' = s1 ∨ res = .ok () ∧ s' = s1.setRef map (s1.ppRef map + 1#16)) := by
  rw [JosVmm.eptMap] at hrun
  obtain ⟨o, s1, hlook, hrun1⟩ := bind_inv hrun
  obtain ⟨rfl, hlt⟩ := pageLookup_eq_ok hlook
  cases o with
  | none =>
    cases hrun1
    exact .inl ⟨rfl, nofun⟩
  | some mp =>
    obtain ⟨map, pte⟩ := mp
    obtain ⟨e, s2, hload, hrun2⟩ := bind_inv hrun1
    obtain ⟨rfl, rfl⟩ := load_eq_ok hload
    split at hrun2
    · cases hrun2
      exact .inl ⟨rfl, nofun⟩
    · rename_i hperm
      rw [not_or] at hperm
      obtain ⟨r', s3, hins, hrun3⟩ := bind_inv hrun2
      refine .inr ⟨map, pte, s3, hlook, hlt map pte rfl, hperm.1, fun hw hz => hperm.2 ⟨hw, hz⟩, ?_⟩
      cases r' with
      | error er =>
        cases hrun3
        exact ⟨hins, .inl ⟨nofun, rfl⟩⟩
      | ok u =>
        cases hrun3
        exact ⟨hins, .inr ⟨rfl, rfl⟩⟩

/-- **`sys_ept_map`** of a shareable page. -/
theorem Acct.eptMap {src g : Env} {srcva guestPa : Word} {perm : BitVec 32}
    {res : Except Err Unit} (h : Acct R F A extra s L) (hG : EptRoot R F r)
    (hg : g.envPml4e = some (r * 512)) (hm : ∀ q, m q ≤ extra q) (hx : InTables guestPa)
    (hmap : ∀ map pte, (pageLookup src.envPml4e srcva).run s = .ok (some (map, pte), s) →
      Shareable s map perm)
    (hrun : (eptMap src g srcva guestPa perm).run s = .ok (res, s')) :
    ∃ extra' L', Acct R F A extra' s' L' ∧ (∀ q, m q ≤ extra' q) ∧ s'.npages = s.npages ∧
      ∀ p ∈ A, leaves R F s' p ≤ leaves R F s p := by
  obtain ⟨rfl, -⟩ | ⟨map, pte, s1, hlook, hlt, -, -, hins, hs'⟩ := eptMap_eq_ok hrun
  · exact ⟨extra, L, h, hm, rfl, fun _ _ => Nat.le_refl _⟩
  · have hs := hmap map pte hlook
    rw [hg] at hins
    obtain ⟨hres, rfl⟩ | ⟨rfl, rfl⟩ := hs'
    · cases res with
      | error er =>
        obtain ⟨L', h', hnp, hleaf⟩ := h.eptInsert_error hG hx hins
        exact ⟨extra, L', h', hm, hnp, fun p _ => Nat.le_of_eq (hleaf p)⟩
      | ok u => exact absurd rfl hres
    · obtain ⟨extra', L', h', hm', hnp, hleaf⟩ :=
        h.eptInsert_incRef hG hx hm hlt hs.addr hs.counted hs.room hins
      exact ⟨extra', L', h', hm', hnp, fun p hp => by rw [leaves_setRef]; exact hleaf p hp⟩

/-! ### Calls -/

variable {k k' : Kernel}

theorem vmcsRead64_eq_ok {f : VmcsField} {w : Word} (h : (vmcsRead64 f).run k = .ok (w, k')) :
    k' = k := by
  rw [vmcsRead64, bind_get] at h
  dsimp only at h
  split at h
  · cases h
  · cases h
    rfl

theorem envid2env_eq_ok {envid : EnvId} {b : Bool} {r : Except Err (Option EnvIx)}
    (h : (envid2env envid b).run k = .ok (r, k')) :
    k' = k ∧ ∀ e, r = .ok (some e) → k.curenv = some e ∨ (k.envs e).envStatus ≠ .free := by
  rw [envid2env, bind_get] at h
  split at h
  · cases h
    exact ⟨rfl, fun e he => .inl (Except.ok.inj he)⟩
  · dsimp only at h
    split at h
    · cases h
      exact ⟨rfl, nofun⟩
    · rename_i hfree
      rw [not_or] at hfree
      have hlive : ∀ e, Except.ok (some (envx envid)) = (Except.ok (some e) : Except Err _) →
          k.curenv = some e ∨ (k.envs e).envStatus ≠ .free := fun e he => by
        cases he
        exact .inr hfree.1
      split at h
      · obtain ⟨c, k₁, hc, h1⟩ := bind_inv h
        obtain ⟨-, rfl⟩ := deref_eq_ok hc
        split at h1
        · cases h1
          exact ⟨rfl, nofun⟩
        · cases h1
          exact ⟨rfl, hlive⟩
      · cases h
        exact ⟨rfl, hlive⟩

/-- **What `sys_ept_map` does**: nothing, or it finds both environments, its addresses pass the
checks, and it maps. -/
theorem sysEptMap_eq_ok {srcenvid guest : EnvId} {srcva guestPa : Word} {perm : BitVec 32}
    {res : Except Err Unit}
    (hrun : (sysEptMap srcenvid srcva guest guestPa perm).run k = .ok (res, k')) :
    (k' = k ∧ res ≠ .ok ()) ∨ ∃ src g s',
      (envid2env srcenvid true).run k = .ok (.ok (some src), k) ∧
      (envid2env guest true).run k = .ok (.ok (some g), k) ∧
      ¬ (utop ≤ srcva ∨ pgoff srcva ≠ 0 ∨ pgoff guestPa ≠ 0 ∨
        (k.envs g).envVmxinfo.physSz ≤ guestPa) ∧ k' = k.withPm s' ∧
      (eptMap (k.envs src) (k.envs g) srcva guestPa perm).run k.pm = .ok (res, s') := by
  rw [sysEptMap] at hrun
  obtain ⟨r1, k₁, hsrc, hrun1⟩ := bind_inv hrun
  obtain ⟨rfl, -⟩ := envid2env_eq_ok hsrc
  cases r1 with
  | error er =>
    cases hrun1
    exact .inl ⟨rfl, nofun⟩
  | ok srcenv =>
    obtain ⟨r2, k₂, hguest, hrun2⟩ := bind_inv hrun1
    obtain ⟨rfl, -⟩ := envid2env_eq_ok hguest
    cases r2 with
    | error er =>
      cases hrun2
      exact .inl ⟨rfl, nofun⟩
    | ok guestenv =>
      obtain ⟨g, k₃, hd, hrun3⟩ := bind_inv hrun2
      obtain ⟨rfl, rfl⟩ := deref_eq_ok hd
      rw [bind_ok getEnv_run] at hrun3
      split at hrun3
      · cases hrun3
        exact .inl ⟨rfl, nofun⟩
      · rename_i hchk
        obtain ⟨src, k₄, hd', hrun4⟩ := bind_inv hrun3
        obtain ⟨rfl, rfl⟩ := deref_eq_ok hd'
        rw [bind_ok getEnv_run] at hrun4
        obtain ⟨s', hs', rfl⟩ := onPmap_eq_ok hrun4
        exact .inr ⟨src, g, s', hsrc, hguest, hchk, rfl, hs'⟩

end JosVmm
