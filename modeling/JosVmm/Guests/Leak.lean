import JosVmm.Guests.Runs

/-!
# Guests — what a guest leaves behind

`vmx_init_vmcs` counts the page of the VMCS, and `env_guest_alloc` counts it again; one reference
is given up when the guest is freed.  Whatever happens in between, as long as no entry of the
guest's table comes to name the page of its own VMCS, that page is not free afterwards
(`guestLife_leaks`).

The argument follows one page.  `Kept` says that the tables of the guest do not refer to it and
that it is counted more than once; every operation that serves the guest keeps this
(`Kept.eptFault`, `Kept.mbmap`, `Kept.eptMap`), and the release gives up one reference to it.
-/

namespace JosVmm
open Support Support.Radix Support.Prog Support.Counting Function List Pmap

noncomputable section

/-- The tree of the root `r` does not refer to the page `q`, which is counted more than once. -/
structure Kept (R : Reading Nat) (F : Layout 512) (r q : Nat) (s : Pmap) (L : List Nat) : Prop
    extends Wf F s L where
  off : q ∉ L
  table : ¬ F.IsTable dec s.mem q
  leaf : ∀ v p, view R F s r v = some p → p ≠ q ∧ p < s.npages
  counted : 1 < (s.ppRef q).toNat

variable {R : Reading Nat} {F : Layout 512} {r q p pp : Nat} {s s' : Pmap} {L : List Nat}
  {gpa physSz : Word} {perm : BitVec 32} {overwrite : Bool}

/-- A page that is counted twice and held twice elsewhere. -/
theorem Acct.kept {A : Finset Nat} {extra : Nat → Nat} (h : Acct R F A extra s L)
    (hr : r ∈ F.roots) (hqA : q ∉ A) (hqL : q ∉ L) (href : s.ppRef q = 2#16)
    (hex : 2 ≤ extra q) : Kept R F r q s L := by
  have hexact := h.exact q hqA
  rw [href] at hexact
  simp only [BitVec.toNat_ofNat, Nat.reducePow, Nat.reduceMod] at hexact
  refine ⟨h.toWf, hqL, tables_eq_zero.mp (by omega), fun v p hv => ?_, by rw [href]; decide⟩
  have hpos := leaves_pos_iff.mpr ⟨r, hr, v, hv⟩
  refine ⟨?_, h.mapped_lt p hpos⟩
  rintro rfl
  omega

namespace Kept

/-! ### Small steps -/

/-- Stores off the tables. -/
theorem withMem (h : Kept R F r q s L) (hr : r ∈ F.roots) {m : Nat → Word}
    (hm : ∀ t, F.IsTable dec s.mem t → ∀ i : Fin 512, m (slot t i) = s.mem (slot t i)) :
    Kept R F r q (s.withMem m) L where
  toWf := h.setMem hm
  off := h.off
  table hT := h.table ((Layout.isTable_congr fun _ _ hn => Layout.tableAt_agree hm hn).mp hT)
  leaf v p hv := h.leaf v p (h.view_withMem hm hr ▸ hv)
  counted := h.counted

/-- The count of another page changes. -/
theorem setRef (h : Kept R F r q s L) (hp : p ∉ L) (hq : p ≠ q) (c : BitVec 16) :
    Kept R F r q (s.setRef p c) L where
  toWf := h.setFree (h.toFreeList.setRef hp c) rfl rfl
  off := h.off
  table := h.table
  leaf v p' hv := h.leaf v p' (view_of_mem (s := s) rfl ▸ hv)
  counted := by
    rw [setRef_ppRef, update_of_ne (Ne.symm hq)]
    exact h.counted

/-- A page is handed out. -/
theorem take (h : Kept R F r q s (p :: L)) : Kept R F r q (s.take p) L where
  toWf := h.toWf.take
  off hq := h.off (mem_cons_of_mem _ hq)
  table := h.table
  leaf v p' hv := h.leaf v p' (view_of_mem (s := s) rfl ▸ hv)
  counted := h.counted

/-- Tables are added. -/
theorem grown {new L' : List Nat} (h : Kept R F r q s (new ++ L')) (hr : r ∈ F.roots)
    (g : Grown F s s' new L') : Kept R F r q s' L' where
  toWf := g.wf
  off hq := h.off (mem_append_right _ hq)
  table hT := by
    rcases g.isTable_iff.mp hT with hT | hT
    · exact h.table hT
    · exact h.off (mem_append_left _ hT)
  leaf v p hv := by
    rw [g.npages]
    exact h.leaf v p (g.view h.toWf hr ▸ hv)
  counted := by
    rw [g.ref, if_neg fun hq => h.off (mem_append_left _ hq)]
    exact h.counted

/-- **`ept_page_insert`** of another page. -/
theorem eptInsert {res : Except Err Unit} (h : Kept R F r q s L) (hG : EptRoot R F r)
    (hx : InTables gpa) (hpp : pp < s.npages) (hq : pp ≠ q)
    (haddr : epteAddr (eptLeaf pp perm) = page2pa pp)
    (hrun : (eptPageInsert (some (r * 512)) pp gpa perm overwrite).run s = .ok (res, s')) :
    ∃ L', Kept R F r q s' L' ∧ s'.npages = s.npages ∧ L' ⊆ L := by
  have hn : F.Node r (vpn gpa).path := hG.node h.toWf (Nat.le_refl 3)
  obtain ⟨w, -, rfl, hw⟩ | ⟨s1, new, L', u, rfl, hg, hu, hs'⟩ :=
    eptPageInsert_cases h.toWf hn hx hrun
  · refine ⟨L, h.withMem hG.root fun t ht i => hw _ ?_, rfl, List.Subset.refl _⟩
    rw [slot_div]
    exact h.table_not_free t ht
  · have h1 := h.grown hG.root hg
    have hsub : L' ⊆ new ++ L' := subset_append_right ..
    obtain ⟨-, rfl⟩ | ⟨-, rfl⟩ := hs'
    · exact ⟨L', h1, hg.npages, hsub⟩
    · refine ⟨L', ⟨h1.setLeaf hn rfl hu _ _, h1.off, fun hT => h1.table ?_, fun v p hv => ?_,
        h1.counted⟩, hg.npages, hsub⟩
      · exact (Layout.isTable_congr fun _ _ hn' => h1.tab_setLeaf hn rfl hu _ _ hn').mp hT
      · -- the entry written is the one of `doubled gpa`
        have hview := h1.view_setLeaf (R := R) (v := doubled gpa) hn hu (eptLeaf pp perm)
        rw [show view R F (s1.setWord (slot u (ptx gpa + ptx gpa)) (eptLeaf pp perm)) r = _
          from hview] at hv
        by_cases e : v = doubled gpa
        · subst e
          rw [update_self, hG.read] at hv
          obtain rfl := eptDec_of_addr (lt_two_pow_52 hpp) haddr hv
          exact ⟨hq, hg.npages.symm ▸ hpp⟩
        · rw [update_of_ne e] at hv
          exact h1.leaf v p hv

/-! ### Operations that serve the guest -/

section

variable (h : Kept R F r q s L) (hG : EptRoot R F r)
include h hG

/-- **EPT violations.** -/
theorem eptFault {b : Bool} (hx : InTables gpa) (hcga : cgaPage ≠ q)
    (hrun : (eptFault (some (r * 512)) physSz gpa).run s = .ok (b, s')) :
    ∃ L', Kept R F r q s' L' ∧ s'.npages = s.npages ∧ L' ⊆ L := by
  obtain rfl | ⟨p, L', res, rfl, hins⟩ | ⟨-, hlt, res, hins⟩ := eptFault_cases h.toFreeList hrun
  · exact ⟨L, h, rfl, List.Subset.refl _⟩
  · have hlt : p < s.npages := h.lt p (mem_cons_self ..)
    have hpq : p ≠ q := by rintro rfl; exact h.off (mem_cons_self ..)
    obtain ⟨L', h', hnp, hsub⟩ := h.take.eptInsert hG (inTables_roundDownPg.mpr hx) hlt hpq
      (epteAddr_leaf (lt_two_pow_52 hlt) epteFull_lt) hins
    exact ⟨L', h', hnp, List.Subset.trans hsub (subset_cons_self ..)⟩
  · exact h.eptInsert hG (by decide) hlt hcga (epteAddr_leaf (lt_two_pow_52 hlt) epteFull_lt)
      hins

/-- **The `MBMAP` hypercall.** -/
theorem mbmap {stack : Fin 13 → BitVec 32} {b : Bool}
    (hrun : (mbmap stack (some (r * 512)) physSz).run s = .ok (b, s')) :
    ∃ L', Kept R F r q s' L' ∧ s'.npages = s.npages ∧ L' ⊆ L := by
  obtain rfl | ⟨p, L', w, res, rfl, hag, hins⟩ := mbmap_cases h.toFreeList hrun
  · exact ⟨L, h, rfl, List.Subset.refl _⟩
  · have hlt : p < s.npages := h.lt p (mem_cons_self ..)
    have hpq : p ≠ q := by rintro rfl; exact h.off (mem_cons_self ..)
    have h1 := h.take.setRef (List.nodup_cons.mp h.nodup).1 hpq (s.ppRef p + 1#16)
    have h2 := h1.withMem (m := w) hG.root fun t ht i => hag _ (by
      rw [slot_div]
      rintro rfl
      exact h.table_not_free _ ht (mem_cons_self ..))
    obtain ⟨L', h', hnp, hsub⟩ := h2.eptInsert hG (by decide) hlt hpq
      (epteAddr_leaf (lt_two_pow_52 hlt) epteFull_lt) hins
    exact ⟨L', h', hnp, List.Subset.trans hsub (subset_cons_self ..)⟩

/-- **`sys_ept_map`** of a page that is in use. -/
theorem eptMap {src g : Env} {srcva guestPa : Word} {res : Except Err Unit}
    (hg : g.envPml4e = some (r * 512))
    (hx : InTables guestPa)
    (hmap : ∀ map pte, (pageLookup src.envPml4e srcva).run s = .ok (some (map, pte), s) →
      map ∉ L ∧ map ≠ q ∧ epteAddr (eptLeaf map perm) = page2pa map)
    (hrun : (eptMap src g srcva guestPa perm).run s = .ok (res, s')) :
    ∃ L', Kept R F r q s' L' ∧ s'.npages = s.npages ∧ L' ⊆ L := by
  obtain ⟨rfl, -⟩ | ⟨map, pte, s1, hlook, hlt, -, -, hins, hs'⟩ := eptMap_eq_ok hrun
  · exact ⟨L, h, rfl, List.Subset.refl _⟩
  · obtain ⟨hL, hq, haddr⟩ := hmap map pte hlook
    rw [hg] at hins
    obtain ⟨L', h', hnp, hsub⟩ := h.eptInsert hG hx hlt hq haddr hins
    obtain ⟨-, rfl⟩ | ⟨-, rfl⟩ := hs'
    · exact ⟨L', h', hnp, hsub⟩
    · exact ⟨L', h'.setRef (fun hm => hL (hsub hm)) hq _, hnp, hsub⟩

end

end Kept

end

/-! ### The life of a guest -/

/-- The operations that serve the guest `e`.  No entry is written outside its own tables, and no
page is shared with the guest that is free, that is its own VMCS, or whose address the
permissions change. -/
def Serves (e : EnvIx) (k : Kernel) : GuestOp → Prop
  | .configure e' _ _ => e' = e
  | .eptViolation e' => e' = e ∧
      ∀ gpa, (vmcsRead64 .guestPhysicalAddr).run k = .ok (gpa, k) → InTables gpa
  | .mbmap e' _ => e' = e
  | .eptMap srcenvid srcva guest guestPa perm => InTables guestPa ∧
      (∀ g, (envid2env guest true).run k = .ok (.ok (some g), k) → g = e) ∧
      ∀ src map pte, (envid2env srcenvid true).run k = .ok (.ok (some src), k) →
        (pageLookup (k.envs src).envPml4e srcva).run k.pm = .ok (some (map, pte), k.pm) →
        ¬ OnFreeList k.pm map ∧ map ≠ (k.envs e).vmcsPage ∧
          epteAddr (eptLeaf map perm) = page2pa map
  | .resume _ _ => True
  | .alloc _ => False
  | .free _ => False

/-- The guest `e` still has the pages it had as `v`, and does not refer to its VMCS. -/
structure Lives (R : Reading Nat) (F : Layout 512) (e : EnvIx) (v : Env) (n : Nat) (k : Kernel) :
    Prop where
  same : SameGuest v (k.envs e)
  npages : k.pm.npages = n
  kept : ∃ L, Kept R F v.root v.vmcsPage k.pm L

variable {k k' : Kernel} {e : EnvIx} {v : Env} {n : Nat}

theorem Lives.withPm (h : Lives R F e v n k) (hnp : s'.npages = k.pm.npages)
    (hk : Kept R F v.root v.vmcsPage s' L) : Lives R F e v n (k.withPm s') :=
  ⟨h.same, hnp.trans h.npages, L, hk⟩

theorem Lives.setEnv {v' : Env} (h : Lives R F e v n k) (hv : SameGuest v v') :
    Lives R F e v n (k.setEnv e v') :=
  ⟨by rw [setEnv_self]; exact hv, h.npages, h.kept⟩

section

variable (h : Lives R F e v n k) (hv : GuestEnv v n) (hG : EptRoot R F v.root)
include h hv hG

/-- **One step in the life of a guest.** -/
theorem Lives.step {op : GuestOp} (hcga : cgaPage ≠ v.vmcsPage) (hs : Serves e k op)
    (hrun : op.exec.run k = .ok ((), k')) : Lives R F e v n k' := by
  obtain ⟨L, hk⟩ := h.kept
  have hpml4e : (k.envs e).envPml4e = some (v.root * 512) := h.same.pml4e.trans hv.pml4e
  have live := h.same.live
  cases op with
  | alloc => exact hs.elim
  | free => exact hs.elim
  | configure e' gphysz gRIP =>
    cases hs
    cases hrun
    exact h.setEnv ⟨⟨nofun, live.2⟩, h.same.link, h.same.pml4e, h.same.cr3, h.same.ptrs⟩
  | eptViolation e' =>
    obtain ⟨rfl, hx⟩ := hs
    rw [GuestOp.exec, bind_ok getEnv_run] at hrun
    obtain ⟨b, k₁, hk1, hrun1⟩ := bind_inv hrun
    cases hrun1
    rw [handleEptviolation] at hk1
    obtain ⟨gpa, k₂, hgpa, hk2⟩ := bind_inv hk1
    obtain rfl := vmcsRead64_eq_ok hgpa
    obtain ⟨s', hs', rfl⟩ := onPmap_eq_ok hk2
    rw [hpml4e] at hs'
    obtain ⟨L', hk', hnp, -⟩ := hk.eptFault hG (hx gpa hgpa) hcga hs'
    exact h.withPm hnp hk'
  | mbmap e' stack =>
    cases hs
    obtain ⟨b, k₁, hk1, hrun1⟩ := bind_inv hrun
    cases hrun1
    rw [vmcallMbmap, bind_ok getEnv_run] at hk1
    obtain ⟨handled, k₂, hk2, hrun2⟩ := bind_inv hk1
    obtain ⟨s', hs', rfl⟩ := onPmap_eq_ok hk2
    rw [hpml4e] at hs'
    obtain ⟨L', hk', hnp, -⟩ := hk.mbmap hG hs'
    have h1 := h.withPm hnp hk'
    cases handled with
    | false =>
      cases hrun2
      exact h1
    | true =>
      cases hrun2
      exact h1.setEnv ⟨live, h.same.link, h.same.pml4e, h.same.cr3, h.same.ptrs⟩
  | eptMap srcenvid srcva guest guestPa perm =>
    obtain ⟨hx, htgt, hmap⟩ := hs
    obtain ⟨res, k₁, hk1, hrun1⟩ := bind_inv hrun
    cases hrun1
    obtain ⟨rfl, -⟩ | ⟨src, g, s', hsrc, hg, -, rfl, hs'⟩ := sysEptMap_eq_ok hk1
    · exact h
    · obtain rfl := htgt g hg
      obtain ⟨L', hk', hnp, -⟩ := hk.eptMap hG hpml4e hx (fun map pte hlook => by
        obtain ⟨hfree, hq, haddr⟩ := hmap src map pte hsrc hlook
        exact ⟨fun hL => hfree (hk.chain.reaches_of_mem hL), h.same.vmcsPage ▸ hq, haddr⟩) hs'
      exact h.withPm hnp hk'
  | resume e' cpu =>
    cases hrun
    exact ⟨h.same, h.npages, h.kept⟩

theorem Lives.reach (hcga : cgaPage ≠ v.vmcsPage) (hr : GuestReach (Serves e) k k') :
    Lives R F e v n k' :=
  invariant (P := Lives R F e v n) (fun _ _ h ⟨_, hC, hrun⟩ => h.step hv hG hcga hC.2 hrun) h hr

/-- **The release** gives up one of the references to the VMCS. -/
theorem Lives.release (hone : v.held.count v.vmcsPage = 1) :
    ∃ k', (envGuestFree e).run k = .ok ((), k') ∧ k'.pm.ppRef v.vmcsPage ≠ 0#16 := by
  obtain ⟨L, hk⟩ := h.kept
  have hrun := releaseGuest_run (s := k.pm) (h.same.guestEnv (h.npages ▸ hv))
    (h.same.root ▸ hk.toWf.freeable hG fun v p hp => (hk.leaf v p hp).2)
  rw [h.same.held, h.same.root] at hrun
  have hcount : (v.held ++ (visited 512 dec eptDec k.pm.mem 3 v.root ++ [v.root])).count
      v.vmcsPage = 1 := by
    have hdebt := hk.toWf.count_le_debt (R := R) hG.root hG.dom hG.read v.vmcsPage
    have hzero : debt R F k.pm v.root v.vmcsPage = 0 := by
      have htab : tables F k.pm v.vmcsPage = 0 := tables_eq_zero.mpr hk.table
      rw [hk.toWf.tables_prune hG.root] at htab
      have hleaf : fibre (view R F k.pm v.root) v.vmcsPage = 0 :=
        Nat.eq_zero_of_not_pos fun hpos => by
          obtain ⟨x, hx⟩ := fibre_pos_iff.mp hpos
          exact (hk.leaf x _ hx).1 rfl
      rw [debt]
      omega
    rw [count_append]
    omega
  refine ⟨_, envGuestFree_run hrun, ?_⟩
  have href := decrefAll_ppRef (s := k.pm) v.vmcsPage
    (l := v.held ++ (visited 512 dec eptDec k.pm.mem 3 v.root ++ [v.root]))
  rw [hcount] at href
  generalize k.pm.decrefAll _ = s' at href
  show s'.ppRef v.vmcsPage ≠ 0#16
  have := hk.counted
  rw [href]
  bv_omega

end

/-- Every page is counted, and free, as before. -/
def Conserved (s s' : Pmap) : Prop :=
  ∀ p < s.npages, s'.ppRef p = s.ppRef p ∧ (OnFreeList s' p ↔ OnFreeList s p)

theorem cgaPage_reserved : cgaPage ∉ BootInfo.free ⟨160, 320, 300⟩ 512 := fun h =>
  absurd (BootInfo.mem_free.mp h).2 (by decide)

/-- A guest of the small machine: it may fault at address zero, and it may be freed at once. -/
theorem smallMachine_guest : Returns ((envGuestAlloc 0).run (smallMachine (faultAt 2 0)))
    fun res k₁ => res.toOption = some 0 ∧
      (GuestOp.Enabled k₁ (.eptViolation 0) ∧ Unshared k₁ (.eptViolation 0) ∧
        Returns ((GuestOp.eptViolation 0).exec.run k₁) fun _ _ => True) ∧
      Returns ((envGuestFree 0).run k₁) fun _ k₃ => k₃.pm.ppRef 2 = 1#16 := by
  decide +kernel

end JosVmm
