import JosVmm.Guests.Targets

/-!
# Guests — what a shared page grants

`sys_ept_map` writes one leaf into a guest's table.  Its access bits are those of `perm`, and it
is writable only if the source is.  The page it names is the page of the source exactly when
`perm` has no bit from bit 12 up that the page's address lacks (`sysEptMap_grants`): `perm` is an
`int`, and all of it is put into the entry, sign extended.
-/

namespace JosVmm
open Support Support.Radix Support.Prog BitVec

variable {map : Nat} {perm : BitVec 32} {s s' : Pmap} {gpa : Word} {k k' : Kernel}

/-! ### The leaf -/

theorem ppn_or_eq (x y : Word) : ppn (x ||| y) = ppn x ||| ppn y := by
  rw [ppn, ppn, ppn, ushiftRight_or_distrib, toNat_or]

/-- The bits of `perm` from bit 12 up are bits of the page number. -/
def PermFits (map : Nat) (perm : BitVec 32) : Prop :=
  perm.toNat < 2 ^ 31 ∧ map ||| perm.toNat / 4096 = map

instance (map : Nat) (perm : BitVec 32) : Decidable (PermFits map perm) :=
  inferInstanceAs (Decidable (_ ∧ _))

/-- The page a leaf names. -/
theorem ppn_eptLeaf (hmap : map < 2 ^ 52) :
    ppn (eptLeaf map perm) = map ||| ppn (perm.signExtend 64) := by
  rw [eptLeaf, ppn_or_eq, ppn_or_eq, ppn_or_eq, ppn_page2pa hmap, show ppn epteIpat = 0 from rfl,
    show ppn (epteType epteTypeWb) = 0 from rfl, Nat.or_zero, Nat.or_zero]

/-- **The leaf names the page exactly when `perm` fits.** -/
theorem epteAddr_leaf_iff (hmap : map < 2 ^ 32) :
    epteAddr (eptLeaf map perm) = page2pa map ↔ PermFits map perm := by
  have hmap' : map < 2 ^ 52 := by omega
  have hppn : epteAddr (eptLeaf map perm) = page2pa map ↔ map ||| ppn (perm.signExtend 64) = map := by
    rw [← ppn_eptLeaf hmap', epteAddr_eq]
    constructor
    · intro h
      rw [← ppn_pteAddr, h, ppn_page2pa hmap']
    · intro h
      rw [← page2pa_ppn, h]
  rw [hppn, PermFits]
  by_cases hs : perm.toNat < 2 ^ 31
  · rw [ppn_eq, signExtend_toNat hs]
    exact ⟨fun h => ⟨hs, h⟩, And.right⟩
  · -- a negative `perm` reaches beyond every page number
    refine iff_of_false (fun h => ?_) fun h => hs h.1
    have hle : ppn (perm.signExtend 64) ≤ map := by
      rw [← h]
      exact Nat.right_le_or
    have hbig : 2 ^ 63 ≤ (perm.signExtend 64).toNat := by
      rw [toNat_signExtend, if_pos (by rw [msb_eq_decide, decide_eq_true_iff]; omega)]
      omega
    rw [ppn_eq] at hle
    omega

/-- **The access bits of the leaf are those of `perm`.** -/
theorem getLsbD_eptLeaf {i : Nat} (hi : i < 3) : (eptLeaf map perm).getLsbD i = perm.getLsbD i := by
  have hfixed : ∀ i < 3, epteIpat.getLsbD i = false ∧ (epteType epteTypeWb).getLsbD i = false := by
    decide
  have hpage : (page2pa map).getLsbD i = false := by
    rw [page2pa, getLsbD_shiftLeft, decide_eq_true (show i < 12 by omega)]
    simp
  rw [eptLeaf, getLsbD_or, getLsbD_or, getLsbD_or, hpage,
    getLsbD_signExtend, (hfixed i hi).1, (hfixed i hi).2]
  simp [show i < 64 by omega, show i < 32 by omega]

theorem and_eptLeaf {f : Word} (hf : ∀ i < 64, f.getLsbD i = true → i < 3) :
    eptLeaf map perm &&& f = perm.setWidth 64 &&& f := by
  refine eq_of_getLsbD_eq fun i hi => ?_
  rw [getLsbD_and, getLsbD_and]
  cases hb : f.getLsbD i with
  | false => rw [Bool.and_false, Bool.and_false]
  | true =>
    rw [getLsbD_eptLeaf (hf i hi hb), getLsbD_setWidth, decide_eq_true hi, Bool.true_and]

theorem and_epteWrite_eptLeaf (hw : eptLeaf map perm &&& epteWrite ≠ 0) : perm &&& 2#32 ≠ 0 := by
  intro h0
  refine hw ?_
  rw [and_eptLeaf (by decide), show epteWrite = (2#32).setWidth 64 from rfl, ← setWidth_and, h0]
  rfl

/-- What a leaf in a guest's table may grant of the page `map` that the source maps by the entry
`pte`: that page, with the access of `perm`, and writing only if the source may write. -/
structure Grantable (leaf : Word) (map : Nat) (perm : BitVec 32) (pte : Word) : Prop where
  names : epteAddr leaf = page2pa map
  access : leaf &&& epteFull = perm.setWidth 64 &&& epteFull
  write : leaf &&& epteWrite ≠ 0 → pte &&& pteW ≠ 0

/-! ### The call -/

/-- A successful insertion whose lookup finds the last table stored the leaf. -/
theorem eptPageInsert_stored {eptrt : Option Ptr} {a : Ptr} {s1 : Pmap}
    (hrun : (eptPageInsert eptrt map gpa perm false).run s = .ok (.ok (), s'))
    (hslot : (eptLookupGpa eptrt gpa true).run s = .ok (.ok a, s1)) :
    s'.mem (a + ptx gpa) = eptLeaf map perm := by
  rw [eptPageInsert, bind_ok hslot] at hrun
  obtain ⟨e, s2, hload, hrun1⟩ := bind_inv hrun
  obtain ⟨rfl, rfl⟩ := load_eq_ok hload
  split at hrun1
  · cases hrun1
  · obtain ⟨_, s3, hstore, hrun2⟩ := bind_inv hrun1
    cases hrun2
    rw [store_eq_ok hstore, Pmap.setWord_self]

/-- **What `sys_ept_map` grants.**  When it returns 0, the leaf it wrote, at the entry where
`ept_page_insert` puts it, grants what it may exactly when the bits of `perm` from bit 12 up are
bits of the page's address. -/
theorem sysEptMap_grants {srcenvid guest : EnvId} {srcva guestPa : Word}
    (hrun : (sysEptMap srcenvid srcva guest guestPa perm).run k = .ok (.ok (), k')) :
    ∃ src g map pte, (envid2env srcenvid true).run k = .ok (.ok (some src), k) ∧
      (envid2env guest true).run k = .ok (.ok (some g), k) ∧
      (pageLookup (k.envs src).envPml4e srcva).run k.pm = .ok (some (map, pte), k.pm) ∧
      ∀ a s₁, (eptLookupGpa (k.envs g).envPml4e guestPa true).run k.pm = .ok (.ok a, s₁) →
        (Grantable (k'.pm.mem (a + ptx guestPa)) map perm (k.pm.mem pte) ↔ PermFits map perm) := by
  obtain ⟨-, hne⟩ | ⟨src, g, s', hsrc, hg, -, rfl, hs'⟩ := sysEptMap_eq_ok hrun
  · exact absurd rfl hne
  obtain ⟨-, hne⟩ | ⟨map, pte, s₁, hlook, hlt, -, hw, hins, ⟨hne, -⟩ | ⟨-, rfl⟩⟩ := eptMap_eq_ok hs'
  · exact absurd rfl hne
  · exact absurd rfl hne
  refine ⟨src, g, map, pte, hsrc, hg, hlook, fun a s₂ hslot => ?_⟩
  have hleaf : s₁.mem (a + ptx guestPa) = eptLeaf map perm := eptPageInsert_stored hins hslot
  rw [← epteAddr_leaf_iff (Pmap.lt_two_pow hlt)]
  change Grantable (s₁.mem (a + ptx guestPa)) _ _ _ ↔ _
  rw [hleaf]
  exact ⟨Grantable.names, fun hnames =>
    ⟨hnames, and_eptLeaf (by decide), fun hwr => hw (and_epteWrite_eptLeaf hwr)⟩⟩

/-- In the state that `makeGuest` reaches, the source maps page 2, and the leaf of the guest's
address zero is word 7168. -/
theorem makeGuest_share (perm : BitVec 32) (leaf : Word)
    (hrun : Follows EnvOp.exec (fun k op => op.Enabled k ∧ True)
      (fun k => Returns ((envid2env 0 true).run k) (fun r _ => r = .ok (some 0)) ∧
        Returns ((envid2env 0x1001#32 true).run k) (fun r _ => r = .ok (some 1)) ∧
        Returns ((pageLookup (k.envs 0).envPml4e 0x1000#64).run k.pm) (fun r _ =>
          r = some (2, 2561)) ∧
        Returns ((eptLookupGpa (k.envs 1).envPml4e 0 true).run k.pm) (fun r _ => r = .ok 7168) ∧
        Returns ((sysEptMap 0 0x1000#64 0x1001#32 0 perm).run k) fun r k' =>
          r = .ok () ∧ k'.pm.mem 7168 = leaf) makeGuest (smallMachine capable)) :
    ∃ k, EnvReach (fun _ _ => True) (smallMachine capable) k ∧
      (envid2env 0 true).run k = .ok (.ok (some 0), k) ∧
      (envid2env 0x1001#32 true).run k = .ok (.ok (some 1), k) ∧
      (pageLookup (k.envs 0).envPml4e 0x1000#64).run k.pm = .ok (some (2, 2561), k.pm) ∧
      (∃ s, (eptLookupGpa (k.envs 1).envPml4e 0 true).run k.pm = .ok (.ok 7168, s)) ∧
      ∃ k', (sysEptMap 0 0x1000#64 0x1001#32 0 perm).run k = .ok (.ok (), k') ∧
        k'.pm.mem 7168 = leaf := by
  obtain ⟨k, hr, hsrc, hg, hlook, hslot, hmap⟩ := hrun.reach
  obtain ⟨_, k₁, hsrc', rfl⟩ := hsrc.exists_ok
  obtain ⟨_, k₂, hg', rfl⟩ := hg.exists_ok
  obtain ⟨_, s, hlook', rfl⟩ := hlook.exists_ok
  obtain ⟨_, s1, hslot', rfl⟩ := hslot.exists_ok
  obtain ⟨_, k', hmap', rfl, hleaf⟩ := hmap.exists_ok
  refine ⟨k, hr, ?_, ?_, ?_, ⟨s1, hslot'⟩, k', hmap', hleaf⟩
  · exact (envid2env_eq_ok hsrc').1 ▸ hsrc'
  · exact (envid2env_eq_ok hg').1 ▸ hg'
  · exact (pageLookup_eq_ok hlook').1 ▸ hlook'

/-- With the full access bits alone, the leaf grants the page. -/
theorem sysEptMap_grants_full : ∃ k k', EnvReach (fun _ _ => True) (smallMachine capable) k ∧
    (sysEptMap 0 0x1000#64 0x1001#32 0 7#32).run k = .ok (.ok (), k') ∧
    ∃ a s₁, (eptLookupGpa (k.envs 1).envPml4e 0 true).run k.pm = .ok (.ok a, s₁) ∧
      Grantable (k'.pm.mem (a + ptx 0)) 2 7#32 (k.pm.mem 2561) := by
  obtain ⟨k, hr, hsrc, hg, hlook, ⟨s₁, hslot⟩, k', hrun, -⟩ :=
    makeGuest_share 7#32 (eptLeaf 2 7#32) (by decide +kernel)
  obtain ⟨src, g, map, pte, hsrc', hg', hlook', h⟩ := sysEptMap_grants hrun
  obtain ⟨⟨⟩⟩ := Except.ok.inj (Prod.mk.inj (Except.ok.inj (hsrc'.symm.trans hsrc))).1
  obtain ⟨⟨⟩⟩ := Except.ok.inj (Prod.mk.inj (Except.ok.inj (hg'.symm.trans hg))).1
  obtain ⟨⟨⟩⟩ := (Prod.mk.inj (Except.ok.inj (hlook'.symm.trans hlook))).1
  exact ⟨k, k', hr, hrun, 7168, s₁, hslot, (h 7168 s₁ hslot).mpr (by decide)⟩

/-- **A page table of the source is shared**: with bit 12 set, `perm` turns page 2 into page 3. -/
theorem pageTable_shared : ∃ k k', EnvReach (fun _ _ => True) (smallMachine capable) k ∧
    (envid2env 0 true).run k = .ok (.ok (some 0), k) ∧
    (envid2env 0x1001#32 true).run k = .ok (.ok (some 1), k) ∧
    (pageLookup (k.envs 0).envPml4e 0x1000#64).run k.pm = .ok (some (2, 2561), k.pm) ∧
    (sysEptMap 0 0x1000#64 0x1001#32 0 0x1007#32).run k = .ok (.ok (), k') ∧
    ∃ a s₁, (eptLookupGpa (k.envs 1).envPml4e 0 true).run k.pm = .ok (.ok a, s₁) ∧
      epteAddr (k'.pm.mem (a + ptx 0)) = page2pa 3 := by
  obtain ⟨k, hr, hsrc, hg, hlook, ⟨s₁, hslot⟩, k', hrun, hleaf⟩ :=
    makeGuest_share 0x1007#32 (eptLeaf 2 0x1007#32) (by decide +kernel)
  refine ⟨k, k', hr, hsrc, hg, hlook, hrun, 7168, s₁, hslot, ?_⟩
  rw [show 7168 + (ptx 0).val = 7168 from rfl, hleaf]
  decide

end JosVmm
