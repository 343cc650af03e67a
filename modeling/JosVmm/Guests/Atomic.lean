import JosVmm.Guests.Targets

/-!
# Guests — a new guest that runs out of pages

`env_guest_alloc` takes five pages and gives back those it has when one is missing.  The page of
the VMCS is counted twice, by `vmx_init_vmcs` and by its caller, and given back once.  So the call
leaves everything as it was when the first or the second page is missing, and loses the page of
the VMCS when one of the others is (`envGuestAlloc_atomic_iff`).

`Taken s₀ s held L` describes the state on the way: of the pages of `s₀` the references in `held`
have been taken, and `L` is left on the free list.
-/

namespace JosVmm
open Support Support.Radix Support.Prog Support.Counting Function List Pmap Kernel

variable {s₀ s : Pmap} {held undo L : List Nat} {p q : Nat} {k k' k'' : Kernel} {e : EnvIx}

/-! ### References taken on the way -/

/-- The references in `held` have been taken since `s₀`; the free list is `L`. -/
structure Taken (s₀ s : Pmap) (held L : List Nat) : Prop where
  free : FreeList s L
  npages : s.npages = s₀.npages
  refs : ∀ p, s.ppRef p = s₀.ppRef p + BitVec.ofNat 16 (held.count p)

namespace Taken

theorem start (h : FreeList s L) : Taken s s [] L := ⟨h, rfl, fun p => by simp⟩

/-- A page is taken off the list, without being counted. -/
theorem handOut (h : Taken s₀ s held (p :: L)) (z : Bool) : Taken s₀ (s.handOut z p) held L := by
  refine ⟨?_, (handOut_npages z).trans h.npages, fun q => by
    rw [handOut_ppRef]
    exact h.refs q⟩
  cases z with
  | false => exact h.free.take
  | true => exact h.free.take.setMem _

/-- One more reference to a page that is not free. -/
theorem incRef (h : Taken s₀ s held L) (hp : p ∉ L) :
    Taken s₀ (s.setRef p (s.ppRef p + 1#16)) (held ++ [p]) L := by
  refine ⟨h.free.setRef hp _, h.npages, fun q => ?_⟩
  rw [count_append, count_singleton]
  by_cases e : q = p
  · subst e
    rw [setRef_ppRef, update_self, h.refs, beq_self_eq_true, if_pos rfl,
      BitVec.ofNat_add, BitVec.add_assoc]
  · rw [setRef_ppRef, update_of_ne e, h.refs, beq_false_of_ne (Ne.symm e),
      if_neg (by simp), Nat.add_zero]

theorem setWord (h : Taken s₀ s held L) (a : Nat) (w : Word) : Taken s₀ (s.setWord a w) held L :=
  ⟨h.free.setMem _, h.npages, h.refs⟩

section

variable (h : Taken s₀ s held (p :: L))
include h

theorem head_notMem : p ∉ L := (List.nodup_cons.mp h.free.nodup).1

/-- A page is taken and counted. -/
theorem countOut : Taken s₀ (s.countOut p) (held ++ [p]) L :=
  (h.handOut true).incRef h.head_notMem

/-- The page of the VMCS ends up counted twice. -/
theorem vmcsOut (w : Word) :
    Taken s₀ (s.vmcsOut p w) (held ++ [p] ++ [p]) L := (h.countOut.setWord _ w).incRef h.head_notMem

end

theorem refs_decrefAll (h : Taken s₀ s held L) (undo : List Nat) (q : Nat) :
    (s.decrefAll undo).ppRef q =
      s₀.ppRef q + BitVec.ofNat 16 (held.count q) - BitVec.ofNat 16 (undo.count q) := by
  rw [decrefAll_ppRef, h.refs]

end Taken

/-- What the environment table keeps on the way. -/
structure SameEnvs (k k' : Kernel) : Prop where
  freeList : k'.envFreeList = k.envFreeList
  status : ∀ x, (k'.envs x).envStatus = (k.envs x).envStatus
  id : ∀ x, (k'.envs x).envId = (k.envs x).envId

theorem SameEnvs.refl (k : Kernel) : SameEnvs k k := ⟨rfl, fun _ => rfl, fun _ => rfl⟩

theorem SameEnvs.trans (h : SameEnvs k k') (h' : SameEnvs k' k'') : SameEnvs k k'' :=
  ⟨h'.freeList.trans h.freeList, fun x => (h'.status x).trans (h.status x),
    fun x => (h'.id x).trans (h.id x)⟩

/-- An environment's other fields may change, and so may memory. -/
theorem SameEnvs.set (k : Kernel) (s : Pmap) (e : EnvIx) (v : Env)
    (hs : v.envStatus = (k.envs e).envStatus) (hi : v.envId = (k.envs e).envId) :
    SameEnvs k ((k.withPm s).setEnv e v) := by
  refine ⟨rfl, fun x => ?_, fun x => ?_⟩
  · by_cases hx : x = e
    · subst hx
      rw [setEnv_envs, update_self, hs]
    · rw [setEnv_envs, update_of_ne hx]
      rfl
  · by_cases hx : x = e
    · subst hx
      rw [setEnv_envs, update_self, hi]
    · rw [setEnv_envs, update_of_ne hx]
      rfl

/-! ### The whole allocation -/

theorem Taken.guestVmcs (h : Taken s₀ k.pm held (q :: L)) : ∃ k',
    (guestVmcs e p).run k = .ok (some q, k') ∧ Taken s₀ k'.pm (held ++ [q] ++ [q]) L := by
  obtain ⟨w, hrun⟩ := guestVmcs_some h.free
  exact ⟨_, hrun, h.vmcsOut w⟩

theorem Taken.guestPage {install : Ptr → VmxGuestInfo → VmxGuestInfo}
    (h : Taken s₀ k.pm held (q :: L)) : ∃ k',
      (guestPage e undo install).run k = .ok (some q, k') ∧ Taken s₀ k'.pm (held ++ [q]) L :=
  ⟨_, guestPage_some h.free, h.countOut⟩

/-- A page that is held once more than it is given back is lost. -/
theorem guestPage_loses (e : EnvIx) (undo : List Nat) (install : Ptr → VmxGuestInfo → VmxGuestInfo)
    (h : Taken s₀ k.pm held []) (hc : held.count q = undo.count q + 1) : ∃ k',
      (guestPage e undo install).run k = .ok (none, k') ∧ k'.pm.ppRef q ≠ s₀.ppRef q := by
  refine ⟨_, guestPage_none h.free, ?_⟩
  rw [withPm_pm, h.refs_decrefAll, hc, BitVec.ofNat_add]
  bv_omega

/-- The only page taken, given back. -/
theorem Taken.restored (h : Taken s₀ s [p] []) (h0 : FreeList s₀ [p]) :
    (s.decref p).ppRef = s₀.ppRef ∧ FreeList (s.decref p) [p] := by
  have hlt : p < s.npages := h.npages ▸ h0.lt p (mem_singleton_self p)
  have href : s.ppRef p = 1#16 := by
    rw [h.refs, h0.ref p (mem_singleton_self p), count_singleton_self]
    rfl
  have hgive : s.decref p = s.give p := if_pos ⟨href, h.free.unlinked p not_mem_nil⟩
  refine ⟨funext fun q => ?_, hgive ▸ h.free.give not_mem_nil hlt⟩
  have := h.refs_decrefAll [p] q
  rwa [decrefAll_singleton, BitVec.add_sub_cancel] at this

/-- **What the page allocations of a new guest come to**, by the length of the free list. -/
theorem guestPages_outcome (h : FreeList k.pm L) :
    (L.length < 2 ∧ ∃ k', (guestPages e).run k = .ok (.error .noMem, k') ∧ SameEnvs k k' ∧
      k'.pm.ppRef = k.pm.ppRef ∧ FreeList k'.pm L) ∨
    (2 ≤ L.length ∧ L.length < 5 ∧ ∃ k' q, (guestPages e).run k = .ok (.error .noMem, k') ∧
      k'.pm.ppRef q ≠ k.pm.ppRef q) ∨
    (5 ≤ L.length ∧ ∃ k', (guestPages e).run k = .ok (.ok (), k')) := by
  rw [guestPages]
  cases L with
  | nil =>
    refine .inl ⟨by simp, k, ?_, .refl k, rfl, h⟩
    rw [bind_ok (guestRoot_none h)]
    rfl
  | cons p L =>
    obtain ⟨k₁, hroot, h1, hsame⟩ : ∃ k₁, (guestRoot e).run k = .ok (some p, k₁) ∧
        Taken k.pm k₁.pm [p] L ∧ SameEnvs k k₁ :=
      ⟨_, guestRoot_some h, (Taken.start h).countOut, SameEnvs.set k _ e _ rfl rfl⟩
    rw [bind_ok hroot]
    dsimp only
    cases L with
    | nil =>
      obtain ⟨href, hfree⟩ := h1.restored h
      refine .inl ⟨by simp, k₁.withPm (k₁.pm.decref p), ?_, ?_, href, hfree⟩
      · rw [bind_ok (guestVmcs_none h1.free)]
        rfl
      · exact hsame.trans ⟨rfl, fun _ => rfl, fun _ => rfl⟩
    | cons q L =>
      obtain ⟨k₂, hvmcs, h2⟩ := h1.guestVmcs (e := e) (p := p)
      rw [bind_ok hvmcs]
      dsimp only
      -- `q` is held twice now, and a failure gives it back once
      cases L with
      | nil =>
        obtain ⟨k', hrun, hlost⟩ := guestPage_loses e [p, q] msrAreas (q := q) h2 (by
          simp [count_cons]
          omega)
        exact .inr (.inl ⟨by simp, by simp, k', q, by rw [bind_ok hrun]; rfl, hlost⟩)
      | cons r L =>
        obtain ⟨k₃, hmsr, h3⟩ := h2.guestPage
        rw [bind_ok hmsr]
        dsimp only
        cases L with
        | nil =>
          obtain ⟨k', hrun, hlost⟩ := guestPage_loses e [p, q, r] ioBitmapA (q := q) h3 (by
            simp [count_cons]
            omega)
          exact .inr (.inl ⟨by simp, by simp, k', q, by rw [bind_ok hrun]; rfl, hlost⟩)
        | cons t L =>
          obtain ⟨k₄, hioA, h4⟩ := h3.guestPage
          rw [bind_ok hioA]
          dsimp only
          cases L with
          | nil =>
            obtain ⟨k', hrun, hlost⟩ := guestPage_loses e [p, q, r, t] ioBitmapB (q := q) h4 (by
              simp [count_cons]
              omega)
            exact .inr (.inl
              ⟨by simp, by simp, k', q, by rw [bind_ok hrun]; rfl, hlost⟩)
          | cons u L =>
            rw [bind_ok (guestPage_some h4.free)]
            exact .inr (.inr ⟨by simp, _, rfl⟩)

/-- `env_guest_alloc` returns, and if it returns an error, then every page is counted as before,
the same pages are free, and the table of environments is as it was. -/
def AllocAtomic (k : Kernel) (parentId : EnvId) : Prop :=
  ∃ res k', (envGuestAlloc parentId).run k = .ok (res, k') ∧ ∀ err, res = .error err →
    k'.pm.ppRef = k.pm.ppRef ∧
    (∀ p, Reaches k'.pm.ppLink k'.pm.pageFreeList p ↔ Reaches k.pm.ppLink k.pm.pageFreeList p) ∧
    k'.envFreeList = k.envFreeList ∧
    ∀ e, k.envFreeList = some e → (k'.envs e).envStatus = (k.envs e).envStatus ∧
      (k'.envs e).envId = (k.envs e).envId

/-- **When `env_guest_alloc` is atomic**: it fails without a trace exactly when there is no free
environment, or the free list holds fewer than two pages; with five it does not fail. -/
theorem envGuestAlloc_atomic_iff (parentId : EnvId) (h : FreeList k.pm L) :
    AllocAtomic k parentId ↔ k.envFreeList = none ∨ L.length < 2 ∨ 5 ≤ L.length := by
  unfold AllocAtomic
  rw [envGuestAlloc, bind_get]
  cases hfree : k.envFreeList with
  | none =>
    refine iff_of_true ⟨_, k, rfl, fun _ _ => ⟨rfl, fun _ => Iff.rfl, hfree, ?_⟩⟩ (.inl rfl)
    exact fun _ he => by cases he
  | some e =>
    dsimp only
    rw [bind_ok (modifyEnv_run _)]
    generalize hk₁ : k.setEnv e { k.envs e with envVmxinfo := {} } = k₁
    have hsame₁ : SameEnvs k k₁ := hk₁ ▸ SameEnvs.set k k.pm e _ rfl rfl
    have hpm : k₁.pm = k.pm := hk₁ ▸ rfl
    obtain ⟨hlt, k', hrun, hsame, href, hfree'⟩ | ⟨hge, hlt, k', q, hrun, hlost⟩ |
      ⟨hge, k', hrun⟩ := guestPages_outcome (k := k₁) (e := e) (hpm.symm ▸ h)
    · rw [bind_ok hrun]
      have hall := hsame₁.trans hsame
      refine iff_of_true ⟨_, k', rfl, fun _ _ => ⟨href.trans (hpm ▸ rfl), fun p => ?_,
        hall.freeList.trans hfree, fun x _ => ⟨hall.status x, hall.id x⟩⟩⟩ (.inr (.inl hlt))
      exact ⟨fun hr => h.chain.reaches_of_mem (hfree'.chain.mem_of_reaches hr),
        fun hr => hfree'.chain.reaches_of_mem (h.chain.mem_of_reaches hr)⟩
    · rw [bind_ok hrun]
      refine iff_of_false ?_ (by simp; omega)
      rintro ⟨res, k'', hrun', hat⟩
      cases hrun'
      have := (hat .noMem rfl).1
      rw [this, hpm] at hlost
      exact hlost rfl
    · rw [bind_ok hrun]
      exact iff_of_true ⟨.ok e, _, rfl, fun _ h => by cases h⟩ (.inr (.inr hge))

/-- The small machine with eight pages, of which 1 to `n` are free. -/
def freePages (n : Nat) : Kernel := (smallMachine capable).withPm
  { npages := 8
    npages_le := eight_le_maxNpages
    mem := fun _ => 0
    ppRef := fun p => if 1 ≤ p ∧ p ≤ n then 0#16 else 1#16
    ppLink := fun p => if 1 ≤ p ∧ p < n then some (p + 1) else none
    pageFreeList := if n = 0 then none else some 1 }

theorem freePages_one : FreeList (freePages 1).pm [1] where
  chain := ⟨rfl, rfl⟩
  unlinked p hp := if_neg (by omega)
  lt := by decide
  ref := by decide

/-- The theorem with one page left. -/
theorem envGuestAlloc_atomic_iff_one : AllocAtomic (freePages 1) 0 :=
  (envGuestAlloc_atomic_iff 0 freePages_one).mpr (.inr (.inl (by decide)))

/-- **With two pages left the page of the VMCS is lost**: the call fails for want of a third, and
page 2 stays counted and is not free. -/
theorem envGuestAlloc_loses_vmcs : Chain (freePages 2).pm.ppLink (freePages 2).pm.pageFreeList [1, 2] ∧
    (freePages 2).pm.ppRef 2 = 0#16 ∧
    Returns ((envGuestAlloc 0).run (freePages 2)) fun res k' =>
      res = .error .noMem ∧ k'.pm.ppRef 2 = 1#16 ∧ k'.pm.pageFreeList = some 1 ∧
        k'.pm.ppLink 1 = none :=
  ⟨⟨rfl, rfl, rfl⟩, rfl, by decide +kernel⟩

end JosVmm
