import JosVmm.Guests.Exits

/-!
# Guests — the pages of a new guest

`env_guest_alloc` takes a page for the EPT root, one for the VMCS, which ends up counted twice,
and three more, counted once each.  When it runs out of pages it releases those it has, once
each.  `guestPages_spec` says what is left in either case.
-/

namespace Support.Radix.Layout

theorem prune_plant {n : Nat} {F : Layout n} {p : Nat} (hp : p ∉ F.roots) :
    (F.plant p).prune p = F := by
  cases F
  simp only [plant, prune, Finset.erase_insert hp]

end Support.Radix.Layout

namespace JosVmm
open Support Support.Radix Support.Prog Support.Counting Function

variable {R : Reading Nat} {F : Layout 512} {A : Finset Nat} {extra m : Nat → Nat}
  {s s' : Pmap} {L : List Nat} {p : Nat} {k k' : Kernel} {e : EnvIx} {o : Option Nat}

theorem clearPageInfo_run (hr : s.ppRef p = 0#16) (hl : s.ppLink p = none) :
    (clearPageInfo p).run s = .ok ((), s) := by
  show Except.ok ((), { s with ppRef := _, ppLink := _ }) = _
  rw [show (0 : BitVec 16) = s.ppRef p from hr.symm, ← hl, update_eq_self, update_eq_self]

/-! ### The pages in turn -/

/-- The state with a page taken off the free list, cleared and counted. -/
def Pmap.countOut (s : Pmap) (p : Nat) : Pmap :=
  (s.handOut true p).setRef p ((s.handOut true p).ppRef p + 1#16)

/-- The state with a page for the VMCS, which is written and ends up counted twice. -/
def Pmap.vmcsOut (s : Pmap) (p : Nat) (w : Word) : Pmap :=
  ((s.countOut p).setWord (p * 512) w).setRef p
    (((s.countOut p).setWord (p * 512) w).ppRef p + 1#16)

theorem incRef_handOut (s : Pmap) (p : Nat) :
    (incRef p).run (s.handOut true p) = .ok ((), s.countOut p) := incRef_run _ p

theorem FreeList.head_lt (h : FreeList s (p :: L)) : p < (s.countOut p).npages :=
  h.lt p (List.mem_cons_self ..)

theorem guestRoot_none (h : FreeList k.pm []) : (guestRoot e).run k = .ok (none, k) := by
  rw [guestRoot, bind_ok (onPmap_ok (pageAlloc_none h.nil true))]
  rfl

theorem guestRoot_some (h : FreeList k.pm (p :: L)) :
    (guestRoot e).run k = .ok (some p, (k.withPm (k.pm.countOut p)).setEnv e
      { k.envs e with envPml4e := some (p * 512), envCr3 := page2pa p }) := by
  have hclear : (clearPageInfo p).run (k.pm.handOut true p) = .ok ((), k.pm.handOut true p) :=
    clearPageInfo_run (h.ref p (List.mem_cons_self ..)) (update_self ..)
  rw [guestRoot, bind_ok (onPmap_ok (h.pageAlloc true))]
  dsimp only
  rw [bind_ok (onPmap_withPm hclear), bind_ok (onPmap_withPm (incRef_handOut ..)), page2kva,
    bind_ok (onPmap_withPm (kaddr_page2pa h.head_lt)), bind_ok (modifyEnv_run _)]
  rfl

theorem vmcsRegion_none (revId : BitVec 32) (h : FreeList s []) :
    (vmcsRegion revId).run s = .ok (none, s) := by
  rw [vmcsRegion, bind_ok (pageAlloc_none h.nil true)]
  rfl

theorem vmcsRegion_some (revId : BitVec 32) (h : FreeList s (p :: L)) :
    ∃ w, (vmcsRegion revId).run s = .ok (some p, (s.countOut p).setWord (p * 512) w) := by
  rw [vmcsRegion, bind_ok (h.pageAlloc true)]
  dsimp only
  rw [bind_ok (incRef_handOut s p), page2kva, bind_ok (kaddr_page2pa h.head_lt)]
  have hlt := h.head_lt
  obtain ⟨w, hw, -⟩ := storeDword_run (s := s.countOut p) (a := 2 * (p * 512)) (by omega) revId
  rw [Nat.mul_div_cancel_left _ (by decide)] at hw
  exact ⟨w, bind_ok hw⟩

theorem vmxInitVmcs_none (h : FreeList k.pm []) : vmxInitVmcs.run k = .ok (none, k) := by
  rw [vmxInitVmcs, bind_get, onPmap_ok (vmcsRegion_none _ h)]
  rfl

theorem vmxInitVmcs_some (h : FreeList k.pm (p :: L)) :
    ∃ w, vmxInitVmcs.run k = .ok (some p, k.withPm ((k.pm.countOut p).setWord (p * 512) w)) := by
  obtain ⟨w, hw⟩ := vmcsRegion_some ((k.cpu.msr 0x480#32).setWidth 32) h
  refine ⟨w, ?_⟩
  rw [vmxInitVmcs, bind_get, onPmap_ok hw]

theorem guestVmcs_none (h : FreeList k.pm []) :
    (guestVmcs e p).run k = .ok (none, k.withPm (k.pm.decref p)) := by
  rw [guestVmcs, bind_ok (vmxInitVmcs_none h)]
  dsimp only
  rw [bind_ok (onPmap_ok (pageDecref_run k.pm p))]
  rfl

theorem guestVmcs_some {q : Nat} (h : FreeList k.pm (q :: L)) :
    ∃ w, (guestVmcs e p).run k = .ok (some q, (k.withPm (k.pm.vmcsOut q w)).setEnv e
      { k.envs e with envVmxinfo.vmcs := some (q * 512) }) := by
  obtain ⟨w, hw⟩ := vmxInitVmcs_some h
  refine ⟨w, ?_⟩
  rw [guestVmcs, bind_ok hw]
  dsimp only
  have hcount : (incRef q).run ((k.pm.countOut q).setWord (q * 512) w) =
      .ok ((), k.pm.vmcsOut q w) := incRef_run _ q
  rw [bind_ok (onPmap_withPm hcount), page2kva,
    bind_ok (onPmap_withPm (kaddr_page2pa (s := k.pm.vmcsOut q w) h.head_lt)),
    bind_ok (modifyEnv_run _)]
  rfl

section
variable {undo : List Nat} {install : Ptr → VmxGuestInfo → VmxGuestInfo}

theorem guestPage_none (h : FreeList k.pm []) :
    (guestPage e undo install).run k = .ok (none, k.withPm (k.pm.decrefAll undo)) := by
  have hpage : (countedPage undo).run k.pm = .ok (none, k.pm.decrefAll undo) := by
    rw [countedPage, bind_ok (pageAlloc_none h.nil true)]
    dsimp only
    rw [bind_ok forM_pageDecref]
    rfl
  rw [guestPage, bind_ok (onPmap_ok hpage)]
  rfl

theorem guestPage_some {q : Nat} (h : FreeList k.pm (q :: L)) :
    (guestPage e undo install).run k = .ok (some q, (k.withPm (k.pm.countOut q)).setEnv e
      { k.envs e with envVmxinfo := install (q * 512) (k.envs e).envVmxinfo }) := by
  have hpage : (countedPage undo).run k.pm = .ok (some q, k.pm.countOut q) := by
    rw [countedPage, bind_ok (h.pageAlloc true)]
    dsimp only
    rw [bind_ok (incRef_handOut ..)]
    rfl
  rw [guestPage, bind_ok (onPmap_ok hpage)]
  dsimp only
  rw [page2kva, bind_ok (onPmap_withPm (kaddr_page2pa h.head_lt)), bind_ok (modifyEnv_run _)]
  rfl

end

/-! ### What is left -/

/-- **A new root is given up again**, with the references `l`. -/
theorem Acct.undo {l : List Nat} (h : Acct R (F.plant p) A extra s L) (hp : p ∉ F.roots)
    (hlt : ∀ q ∈ l, q < s.npages) (hm : ∀ q, l.count q + m q ≤ extra q + one (p = q)) :
    ∃ A' extra' L', Acct R F A' extra' (s.decrefAll l) L' ∧ ∀ q, m q ≤ extra' q := by
  have hroot : p ∈ (F.plant p).roots := Finset.mem_insert_self ..
  have hdebt : ∀ q, one (p = q) ≤ debt R (F.plant p) s p q := fun q => by
    by_cases e : p = q
    · subst e
      rw [one_of rfl, debt, tables_eq_one (Layout.isTable_root (Finset.mem_singleton_self p))]
      exact Nat.le_add_left ..
    · rw [one_not e]
      exact Nat.zero_le _
  have h1 := h.prune hroot
  rw [Layout.prune_plant hp] at h1
  refine Acct.decrefAll h1 hlt (fun q hq => ?_) (fun q hq => ?_)
  · have := hm q
    have := hdebt q
    rw [if_neg hq]
    omega
  · obtain ⟨-, -, -, ht, he⟩ := h.anon q hq
    have hne : p ≠ q := by
      rintro rfl
      exact tables_eq_zero.mp ht (Layout.isTable_root hroot)
    have := hm q
    rw [he, one_not hne] at this
    refine ⟨by omega, by omega, fun hql => ?_⟩
    have := List.count_pos_iff.mpr hql
    omega

/-- **The EPT root**: a zeroed page becomes a root of the layout. -/
theorem Acct.plantOut (h : Acct R F A extra s (p :: L)) :
    p ∉ F.roots ∧ Acct R (F.plant p) A extra (s.countOut p) L := by
  have hp : p ∈ p :: L := List.mem_cons_self ..
  have he : extra p = 0 := (h.ref_of_free hp).2.2
  obtain ⟨hA, -, hT1, h1⟩ := h.counted true
  refine ⟨fun hr => h.table_not_free p (Layout.isTable_root hr) hp, ?_⟩
  have h2 := h1.plant (fun i _ => clear_slot_self ..) hA h.toFreeList.head_lt
    (by rw [one_of rfl]; omega) (by rw [tables_setRef, hT1])
  have hextra : update (fun q => extra q + one (p = q)) p
      (extra p + one (p = p) - 1) = extra := by
    funext q
    by_cases e : q = p
    · subst e
      rw [update_self, one_of rfl, Nat.add_sub_cancel]
    · rw [update_of_ne e, one_not (Ne.symm e), Nat.add_zero]
  rwa [hextra] at h2

/-- **The VMCS**, whose first word is written, counted twice. -/
theorem Acct.vmcsOut (h : Acct R F A extra s (p :: L)) (w : Word) :
    Acct R F A (fun q => extra q + 2 * one (p = q)) (s.vmcsOut p w) L ∧
      (s.vmcsOut p w).ppRef p = 2#16 := by
  obtain ⟨hA, hL, hT, h1⟩ := h.counted true
  have href : ((s.countOut p).setWord (p * 512) w).ppRef p = 1#16 := by
    rw [Pmap.setWord_ppRef, Pmap.countOut, Pmap.setRef_ppRef, update_self, Pmap.handOut_ppRef,
      h.ref p (List.mem_cons_self ..)]
    rfl
  have hT1 : ¬ F.IsTable dec (s.countOut p).mem p :=
    tables_eq_zero.mp (by rw [Pmap.countOut, tables_setRef, hT])
  have h2 : Acct R F A (fun q => extra q + one (p = q)) ((s.countOut p).setWord (p * 512) w) L := by
    refine h1.withMem fun t ht i => update_of_ne ?_ ..
    intro hs
    have hp : slot t i / 512 = p := by rw [hs]; omega
    rw [slot_div] at hp
    exact hT1 (hp ▸ ht)
  have h3 := h2.incRef hL (by rw [href]; decide) fun hA' => absurd hA' hA
  rw [Finset.erase_eq_of_notMem hA, update_add_one] at h3
  simp only [Nat.add_assoc, ← Nat.two_mul] at h3
  refine ⟨h3, ?_⟩
  rw [Pmap.vmcsOut, Pmap.setRef_ppRef, update_self, href]
  rfl

/-- What is left when a new guest runs out of pages: those it had are released. -/
def GaveUp (R : Reading Nat) (F : Layout 512) (m : Nat → Nat) (k k' : Kernel) (s : Pmap) (e : EnvIx)
    (v : Env) : Prop :=
  ∃ s' A' extra' L', k' = (k.withPm s').setEnv e v ∧ s'.npages = s.npages ∧
    Acct R F A' extra' s' L' ∧ ∀ q, m q ≤ extra' q

/-- An environment that has been changed before is changed again. -/
theorem setEnv_again (k : Kernel) (s s' : Pmap) (v : Env) (f : Env → Env) :
    (((k.withPm s).setEnv e v).withPm s').setEnv e (f (((k.withPm s).setEnv e v).envs e)) =
      (k.withPm s').setEnv e (f v) := by
  rw [Kernel.setEnv_withPm, Kernel.withPm_withPm, Kernel.setEnv_setEnv, Kernel.setEnv_envs,
    update_self]

variable {v : Env}

section

variable (h : Acct R (F.plant p) A extra s L) (hp : p ∉ F.roots)
include h hp

/-- **The VMCS**, counted twice. -/
theorem guestVmcs_spec (hplt : p < s.npages) (hm : ∀ q, m q ≤ extra q)
    (hrun : (guestVmcs e p).run ((k.withPm s).setEnv e v) = .ok (o, k')) :
    o = none ∧ GaveUp R F m k k' s e v ∨ ∃ q L' s', o = some q ∧ L = q :: L' ∧ q < s.npages ∧
      s'.npages = s.npages ∧ s'.ppRef q = 2#16 ∧
      Acct R (F.plant p) A (fun x => extra x + 2 * one (q = x)) s' L' ∧
      k' = (k.withPm s').setEnv e { v with envVmxinfo.vmcs := some (q * 512) } := by
  cases L with
  | nil =>
    -- the root is released
    rw [guestVmcs_none h.toFreeList] at hrun
    cases hrun
    obtain ⟨A', extra', L', h', hm'⟩ := h.undo (l := [p]) (m := m) hp (by simpa using hplt)
      fun q => by
        have := hm q
        rw [count_cons_one, List.count_nil]
        omega
    exact .inl ⟨rfl, _, A', extra', L', rfl, Pmap.decref_npages, h', hm'⟩
  | cons q L =>
    obtain ⟨w, hw⟩ := guestVmcs_some (k := (k.withPm s).setEnv e v) (e := e) (p := p) h.toFreeList
    rw [hw] at hrun
    cases hrun
    obtain ⟨h', href⟩ := h.vmcsOut w
    exact .inr ⟨q, L, s.vmcsOut q w, rfl, rfl, h.toFreeList.head_lt, rfl, href, h',
      setEnv_again k s _ v fun v => { v with envVmxinfo.vmcs := some (q * 512) }⟩

/-- **Another page**, counted once. -/
theorem guestPage_spec {l : List Nat} {install : Ptr → VmxGuestInfo → VmxGuestInfo}
    (hlt : ∀ q ∈ l, q < s.npages) (hm : ∀ q, l.count q + m q ≤ extra q + one (p = q))
    (hrun : (guestPage e l install).run ((k.withPm s).setEnv e v) = .ok (o, k')) :
    o = none ∧ GaveUp R F m k k' s e v ∨ ∃ q L' s', o = some q ∧ L = q :: L' ∧ q < s.npages ∧
      s'.npages = s.npages ∧ (∀ x ≠ q, s'.ppRef x = s.ppRef x) ∧
      Acct R (F.plant p) A (fun x => extra x + one (q = x)) s' L' ∧
      k' = (k.withPm s').setEnv e { v with envVmxinfo := install (q * 512) v.envVmxinfo } := by
  cases L with
  | nil =>
    rw [guestPage_none h.toFreeList] at hrun
    cases hrun
    obtain ⟨A', extra', L', h', hm'⟩ := h.undo hp hlt hm
    exact .inl ⟨rfl, _, A', extra', L', rfl, Pmap.decrefAll_npages, h', hm'⟩
  | cons q L =>
    rw [guestPage_some (k := (k.withPm s).setEnv e v) h.toFreeList] at hrun
    cases hrun
    exact .inr ⟨q, L, s.countOut q, rfl, rfl, h.toFreeList.head_lt, rfl,
      fun x hx => update_of_ne hx .., (h.counted true).2.2.2,
      setEnv_again k s _ v fun v => { v with envVmxinfo := install (q * 512) v.envVmxinfo }⟩

end

/-- The environment of a guest with the root `p` and the pages `q`, `r`, `a` and `b`. -/
def Env.withGuestPages (v : Env) (p q r a b : Nat) : Env :=
  { v with
    envPml4e := some (p * 512)
    envCr3 := page2pa p
    envVmxinfo := ioBitmapB (b * 512) (ioBitmapA (a * 512) (msrAreas (r * 512)
      { v.envVmxinfo with vmcs := some (q * 512) })) }

/-- **The pages of a new guest.**  Either they are all there, the root is a root of the layout,
and the references that release them are held elsewhere, with one more to the VMCS; or those that
were taken are released. -/
theorem guestPages_spec {res : Except Err Unit} (h : Acct R F A extra k.pm L)
    (hm : ∀ q, m q ≤ extra q) (hrun : (guestPages e).run k = .ok (res, k')) :
    (res = .error .noMem ∧ ∃ pml4e cr3 info, GaveUp R F m k k' k.pm e
      { k.envs e with envPml4e := pml4e, envCr3 := cr3, envVmxinfo := info }) ∨
    (res = .ok () ∧ ∃ p q r a b s' extra' L',
      k' = (k.withPm s').setEnv e ((k.envs e).withGuestPages p q r a b) ∧
      L = p :: q :: r :: a :: b :: L' ∧ s'.npages = k.pm.npages ∧ p ∉ F.roots ∧
      s'.ppRef q = 2#16 ∧ Acct R (F.plant p) A extra' s' L' ∧
      ∀ x, [q, r, a, b].count x + one (q = x) + m x ≤ extra' x) := by
  have gaveUp : ∀ {s1 : Pmap} {pml4e cr3 info}, s1.npages = k.pm.npages →
      GaveUp R F m k k' s1 e
        { k.envs e with envPml4e := pml4e, envCr3 := cr3, envVmxinfo := info } →
      GaveUp R F m k k' k.pm e
        { k.envs e with envPml4e := pml4e, envCr3 := cr3, envVmxinfo := info } :=
    fun hnp ⟨s', A', extra', L', hk, hnp', h'⟩ => ⟨s', A', extra', L', hk, hnp'.trans hnp, h'⟩
  have below : ∀ {l : List Nat} {x n n' : Nat}, n' = n → (∀ y ∈ l, y < n) → x < n →
      ∀ y ∈ l ++ [x], y < n' := fun hn hl hx =>
    hn ▸ List.forall_mem_append.mpr ⟨hl, List.forall_mem_singleton.mpr hx⟩
  rw [guestPages] at hrun
  obtain _ | ⟨p, L1⟩ := L
  · rw [bind_ok (guestRoot_none h.toFreeList)] at hrun
    cases hrun
    refine .inl ⟨rfl, (k.envs e).envPml4e, (k.envs e).envCr3, (k.envs e).envVmxinfo,
      k.pm, A, extra, [], ?_, rfl, h, hm⟩
    exact (congrArg (fun f => { k with envs := f }) (update_eq_self e k.envs)).symm
  rw [bind_ok (guestRoot_some h.toFreeList)] at hrun
  obtain ⟨hp, h1⟩ := h.plantOut
  have hplt := h.toFreeList.head_lt
  obtain ⟨o, k₂, hk2, hrun2⟩ := bind_inv hrun
  obtain ⟨rfl, hgave⟩ | ⟨q, L2, s2, rfl, rfl, hq, hnp2, href, h2, rfl⟩ :=
    guestVmcs_spec h1 hp hplt hm hk2
  · cases hrun2
    exact .inl ⟨rfl, _, _, _, gaveUp (show (k.pm.countOut p).npages = _ from rfl) hgave⟩
  have hpq : ∀ x ∈ [p, q], x < s2.npages :=
    below (l := [p]) hnp2 (List.forall_mem_singleton.mpr hplt) hq
  obtain ⟨o, k₃, hk3, hrun3⟩ := bind_inv hrun2
  obtain ⟨rfl, hgave⟩ | ⟨r, L3, s3, rfl, rfl, hr, hnp3, href3, h3, rfl⟩ :=
    guestPage_spec (m := m) h2 hp hpq (fun x => by
      have := hm x
      simp only [count_cons_one, List.count_nil]
      omega) hk3
  · cases hrun3
    exact .inl ⟨rfl, _, _, _, gaveUp hnp2 hgave⟩
  have hpqr : ∀ x ∈ [p, q, r], x < s3.npages := below hnp3 hpq hr
  obtain ⟨o, k₄, hk4, hrun4⟩ := bind_inv hrun3
  obtain ⟨rfl, hgave⟩ | ⟨a, L4, s4, rfl, rfl, ha, hnp4, href4, h4, rfl⟩ :=
    guestPage_spec (m := m) h3 hp hpqr (fun x => by
      have := hm x
      simp only [count_cons_one, List.count_nil]
      omega) hk4
  · cases hrun4
    exact .inl ⟨rfl, _, _, _, gaveUp (hnp3.trans hnp2) hgave⟩
  have hpqra : ∀ x ∈ [p, q, r, a], x < s4.npages := below hnp4 hpqr ha
  obtain ⟨o, k5, hk5, hrun5⟩ := bind_inv hrun4
  have hnp : s4.npages = k.pm.npages := hnp4.trans (hnp3.trans hnp2)
  obtain ⟨rfl, hgave⟩ | ⟨b, L5, s5, rfl, rfl, hb, hnp5, href5, h5, rfl⟩ :=
    guestPage_spec (m := m) h4 hp hpqra (fun x => by
      have := hm x
      simp only [count_cons_one, List.count_nil]
      omega) hk5
  · cases hrun5
    exact .inl ⟨rfl, _, _, _, gaveUp hnp hgave⟩
  cases hrun5
  have hnd := h.nodup
  simp only [List.nodup_cons, List.mem_cons, not_or] at hnd
  obtain ⟨-, ⟨hqr, hqa, hqb, -⟩, -⟩ := hnd
  refine .inr ⟨rfl, p, q, r, a, b, s5, _, L5, rfl, rfl, hnp5.trans hnp, hp, ?_, h5, fun x => ?_⟩
  · rw [href5 q hqb, href4 q hqa, href3 q hqr, href]
  · have := hm x
    simp only [count_cons_one, List.count_nil]
    omega

end JosVmm
