import JosVmm.Guests.Slots

/-!
# Environments — ids

An environment's id names its slot and how often the slot has been used: the `n`-th environment of
slot `e` has the id `idAfter e n`, as long as the generation fits into the positive numbers
(`newEnvId_idAfter`).  So an id is not used again, and one whose environment has been freed is
refused by `envid2env` from then on, whatever happens in between (`envIds_sound`).
-/

namespace JosVmm
open Support Support.Prog BitVec

/-- The id of the `n`-th environment in slot `e`; the id of an unused slot is 0. -/
def idAfter (e : EnvIx) : Nat → EnvId
  | 0 => 0
  | n + 1 => BitVec.ofNat 32 (4096 * (n + 1) + e)

/-- Runs of the environment table, with the slots and ids that were handed out and the ids of the
environments that were freed, newest first. -/
inductive IdRun (k₀ : Kernel) : Kernel → List (EnvIx × EnvId) → List EnvId → Prop where
  | start : IdRun k₀ k₀ [] []
  /-- `env_alloc`, or `env_guest_alloc`, makes an environment. -/
  | alloc {k k' handed freed parentId e} : IdRun k₀ k handed freed →
      (envAlloc parentId).run k = .ok (.ok e, k') ∨ (envGuestAlloc parentId).run k = .ok (.ok e, k') →
      IdRun k₀ k' ((e, (k'.envs e).envId) :: handed) freed
  /-- They fail. -/
  | refuse {k k' handed freed parentId err} : IdRun k₀ k handed freed →
      (envAlloc parentId).run k = .ok (.error err, k') ∨
        (envGuestAlloc parentId).run k = .ok (.error err, k') →
      IdRun k₀ k' handed freed
  /-- `env_free` of a live environment. -/
  | free {k k' handed freed e} : IdRun k₀ k handed freed → (k.envs e).envStatus ≠ .free →
      (envFree e).run k = .ok ((), k') → IdRun k₀ k' handed ((k.envs e).envId :: freed)
  /-- Whatever else happens: no id changes, and slots that are free stay free. -/
  | other {k k' handed freed} : IdRun k₀ k handed freed →
      (∀ e, (k'.envs e).envId = (k.envs e).envId ∧
        ((k'.envs e).envStatus = .free ↔ (k.envs e).envStatus = .free)) →
      IdRun k₀ k' handed freed

/-- How often slot `e` was handed out. -/
def timesUsed (handed : List (EnvIx × EnvId)) (e : EnvIx) : Nat := (handed.map Prod.fst).count e

variable {k₀ k k' : Kernel} {e g : EnvIx} {handed : List (EnvIx × EnvId)} {freed : List EnvId}
  {n : Nat} {parentId : EnvId}

/-! ### Arithmetic of ids -/

theorem envMask_bit : ∀ i, i < 32 → (~~~1023#32).getLsbD i = decide (10 ≤ i) := by decide

/-- The mask takes the slot out of an id. -/
theorem and_envMask (x : Nat) (e : EnvIx) :
    BitVec.ofNat 32 (2 ^ 10 * x + e) &&& ~~~1023#32 = BitVec.ofNat 32 (2 ^ 10 * x) := by
  refine eq_of_getLsbD_eq fun i hi => ?_
  have hz := Nat.testBit_two_pow_mul_add x (b := 0) (i := 10) (Nat.two_pow_pos 10) i
  rw [Nat.add_zero] at hz
  rw [getLsbD_and, envMask_bit i hi, getLsbD_ofNat, getLsbD_ofNat, hz,
    Nat.testBit_two_pow_mul_add x e.isLt]
  by_cases h : i < 10
  · simp [h, Nat.not_le.mpr h]
  · simp [h, Nat.not_lt.mp h]

theorem or_slot (x : Nat) (e : EnvIx) :
    BitVec.ofNat 32 (2 ^ 10 * x) ||| BitVec.ofNat 32 e = BitVec.ofNat 32 (2 ^ 10 * x + e) := by
  rw [Nat.two_pow_add_eq_or_of_lt (i := 10) e.isLt, ofNat_or]

theorem newEnvId_generation {old : EnvId} (hn : 4096 * (n + 1) < 2 ^ 31)
    (hmask : (old + 4096#32) &&& ~~~1023#32 = BitVec.ofNat 32 (4096 * (n + 1))) :
    newEnvId old e = idAfter e (n + 1) := by
  have hpos : (BitVec.ofNat 32 (4096 * (n + 1))).sle 0#32 = false := by
    rw [sle_eq_decide, decide_eq_false_iff_not, toInt_eq_toNat_of_lt]
    · simp only [toNat_ofNat, toInt_zero]
      omega
    · simp only [toNat_ofNat]
      omega
  rw [newEnvId, hmask, hpos, if_neg (by decide), idAfter]
  have h := or_slot (4 * (n + 1)) e
  rwa [show 2 ^ 10 * (4 * (n + 1)) = 4096 * (n + 1) by omega] at h

/-- **The next id of a slot.** -/
theorem newEnvId_idAfter (hn : n + 1 < 2 ^ 19) : newEnvId (idAfter e n) e = idAfter e (n + 1) := by
  refine newEnvId_generation (by omega) ?_
  cases n with
  | zero =>
    rw [idAfter]
    decide
  | succ n =>
    have h := and_envMask (4 * (n + 1 + 1)) e
    rw [show 2 ^ 10 * (4 * (n + 1 + 1)) = 4096 * (n + 1 + 1) by omega] at h
    rw [idAfter, ← ofNat_add, show 4096 * (n + 1) + e.val + 4096 =
      4096 * (n + 1 + 1) + e.val by omega]
    exact h

theorem toNat_idAfter (hn : n + 1 < 2 ^ 19) : (idAfter e (n + 1)).toNat = 4096 * (n + 1) + e := by
  have he := e.isLt
  rw [idAfter, toNat_ofNat, Nat.mod_eq_of_lt (by omega)]

section

variable (h₁ : 1 ≤ n) (hn : n < 2 ^ 19)
include h₁ hn

theorem envx_idAfter : envx (idAfter e n) = e := by
  obtain ⟨n, rfl⟩ := Nat.exists_eq_add_of_le' h₁
  have he := e.isLt
  refine Fin.ext ?_
  rw [envx, toNat_idAfter hn, Fin.val_ofNat]
  omega

theorem idAfter_pos : 0 < (idAfter e n).toInt := by
  obtain ⟨n, rfl⟩ := Nat.exists_eq_add_of_le' h₁
  have he := e.isLt
  have hv := toNat_idAfter (e := e) hn
  rw [toInt_eq_toNat_of_lt (by omega)]
  omega

theorem idAfter_ne_zero : idAfter e n ≠ 0 := fun h => by
  have hpos := idAfter_pos (e := e) h₁ hn
  rw [h] at hpos
  exact absurd hpos (by decide)

end

/-- Different uses of a slot have different ids. -/
theorem idAfter_ne {m : Nat} (h₁ : 1 ≤ m) (hm : m < n) (hn : n < 2 ^ 19) :
    idAfter e n ≠ idAfter e m := fun h => by
  obtain ⟨m, rfl⟩ := Nat.exists_eq_add_of_le' h₁
  obtain ⟨n, rfl⟩ := Nat.exists_eq_add_of_le' (Nat.le_trans h₁ hm.le)
  have hv := congrArg BitVec.toNat h
  rw [toNat_idAfter hn, toNat_idAfter (by omega)] at hv
  omega

/-! ### Runs -/

/-- The ids of the slots are those of their last use, and an id that has been freed is one of an
earlier use, or of a slot that is free now. -/
structure IdInv (handed : List (EnvIx × EnvId)) (freed : List EnvId) (k : Kernel) : Prop where
  id : ∀ e, (k.envs e).envId = idAfter e (timesUsed handed e)
  unused : ∀ e, timesUsed handed e = 0 → (k.envs e).envStatus = .free
  given : ∀ p ∈ handed, ∃ n, 1 ≤ n ∧ n ≤ timesUsed handed p.1 ∧ p.2 = idAfter p.1 n
  gone : ∀ i ∈ freed, ∃ e n, 1 ≤ n ∧ i = idAfter e n ∧ (n < timesUsed handed e ∨
    n = timesUsed handed e ∧ (k.envs e).envStatus = .free)

theorem timesUsed_cons_self (i : EnvId) : timesUsed ((e, i) :: handed) e = timesUsed handed e + 1 :=
  List.count_cons_self

theorem timesUsed_cons_ne (i : EnvId) (h : g ≠ e) :
    timesUsed ((e, i) :: handed) g = timesUsed handed g :=
  List.count_cons_of_ne (Ne.symm h)

theorem timesUsed_le_cons (i : EnvId) (g : EnvIx) :
    timesUsed handed g ≤ timesUsed ((e, i) :: handed) g :=
  List.count_le_count_cons

/-- Slots that keep their ids, and stay free. -/
theorem IdInv.of_same (h : IdInv handed freed k)
    (hk : ∀ e, (k'.envs e).envId = (k.envs e).envId ∧
      ((k'.envs e).envStatus = .free ↔ (k.envs e).envStatus = .free)) : IdInv handed freed k' where
  id e := (hk e).1.trans (h.id e)
  unused e he := (hk e).2.mpr (h.unused e he)
  given := h.given
  gone i hi := by
    obtain ⟨e, n, h₁, hid, hn | ⟨hn, hst⟩⟩ := h.gone i hi
    · exact ⟨e, n, h₁, hid, .inl hn⟩
    · exact ⟨e, n, h₁, hid, .inr ⟨hn, (hk e).2.mpr hst⟩⟩

/-- **A slot is used once more.** -/
theorem IdInv.use (h : IdInv handed freed k) (hbound : timesUsed handed e + 1 < 2 ^ 19)
    (hid : (k'.envs e).envId = newEnvId (k.envs e).envId e)
    (hother : ∀ g, g ≠ e → k'.envs g = k.envs g) :
    IdInv ((e, (k'.envs e).envId) :: handed) freed k' := by
  have hnew : (k'.envs e).envId = idAfter e (timesUsed handed e + 1) := by
    rw [hid, h.id, newEnvId_idAfter hbound]
  refine ⟨fun g => ?_, fun g hg => ?_, fun p hp => ?_, fun i hi => ?_⟩
  · by_cases hge : g = e
    · subst hge
      rw [timesUsed_cons_self, hnew]
    · rw [timesUsed_cons_ne _ hge, hother g hge, h.id]
  · by_cases hge : g = e
    · subst hge
      rw [timesUsed_cons_self] at hg
      cases hg
    · rw [timesUsed_cons_ne _ hge] at hg
      rw [hother g hge]
      exact h.unused g hg
  · obtain rfl | hp := List.mem_cons.mp hp
    · exact ⟨_, Nat.le_add_left 1 _, (timesUsed_cons_self _).ge, hnew⟩
    · obtain ⟨n, h₁, hn, hid⟩ := h.given p hp
      exact ⟨n, h₁, hn.trans (timesUsed_le_cons _ _), hid⟩
  · obtain ⟨g, n, h₁, hid, hn⟩ := h.gone i hi
    refine ⟨g, n, h₁, hid, ?_⟩
    by_cases hge : g = e
    · subst hge
      rw [timesUsed_cons_self]
      omega
    · rw [timesUsed_cons_ne _ hge, hother g hge]
      exact hn

/-- **A live slot is freed.** -/
theorem IdInv.release (h : IdInv handed freed k) (hlive : (k.envs e).envStatus ≠ .free)
    (hid : (k'.envs e).envId = (k.envs e).envId) (hst : (k'.envs e).envStatus = .free)
    (hother : ∀ g, g ≠ e → k'.envs g = k.envs g) : IdInv handed ((k.envs e).envId :: freed) k' := by
  have hfree : ∀ g, (k.envs g).envStatus = .free → (k'.envs g).envStatus = .free := fun g hg => by
    rw [hother g (by rintro rfl; exact hlive hg)]
    exact hg
  refine ⟨fun g => ?_, fun g hg => hfree g (h.unused g hg), h.given, fun i hi => ?_⟩
  · by_cases hge : g = e
    · subst hge
      rw [hid, h.id]
    · rw [hother g hge, h.id]
  · obtain rfl | hi := List.mem_cons.mp hi
    · exact ⟨e, _, Nat.one_le_iff_ne_zero.mpr fun h0 => hlive (h.unused e h0), h.id e,
        .inr ⟨rfl, hst⟩⟩
    · obtain ⟨g, n, h₁, hid, hn | ⟨hn, hg⟩⟩ := h.gone i hi
      · exact ⟨g, n, h₁, hid, .inl hn⟩
      · exact ⟨g, n, h₁, hid, .inr ⟨hn, hfree g hg⟩⟩

/-! ### Functions -/

/-- What an allocation that fails keeps of a slot. -/
structure SameId (v₀ v : Env) : Prop where
  id : v.envId = v₀.envId
  status : v.envStatus = v₀.envStatus
  link : v.envLink = v₀.envLink

theorem SameId.pageless (v₀ : Env) : Pageless (SameId v₀) where
  root _ _ _ h := ⟨h.1, h.2, h.3⟩
  info _ _ _ h := ⟨h.1, h.2, h.3⟩

/-- The slot at the head of the free list gets the next id, or keeps its own. -/
theorem alloc_ids {res : Except Err EnvIx}
    (hrun : (envAlloc parentId).run k = .ok (res, k') ∨
      (envGuestAlloc parentId).run k = .ok (res, k')) :
    Allocates k SameId (fun v₀ v => ∀ e, k.envFreeList = some e → v.envId = newEnvId v₀.envId e)
      res k' := by
  have hnew : ∀ {e : EnvIx} {v₀ v : Env}, k.envFreeList = some e → SameId v₀ v → ∀ g,
      k.envFreeList = some g → newEnvId v.envId e = newEnvId v₀.envId g := fun he hv g hg => by
    rw [hv.id, Option.some.inj (he.symm.trans hg)]
  rcases hrun with hrun | hrun
  · exact envAlloc_allocates SameId.pageless (fun _ => ⟨rfl, rfl, rfl⟩) (fun _ _ hv => hv.link)
      (fun _ _ _ he hv => hnew he hv) hrun
  · exact envGuestAlloc_allocates SameId.pageless (fun _ => ⟨rfl, rfl, rfl⟩)
      (fun _ _ hv => hv.link) (fun _ _ _ _ he hv => hnew he hv) hrun

theorem IdInv.alloc (h : IdInv handed freed k)
    (hbound : timesUsed handed e + 1 < 2 ^ 19)
    (hrun : (envAlloc parentId).run k = .ok (.ok e, k') ∨
      (envGuestAlloc parentId).run k = .ok (.ok e, k')) :
    IdInv ((e, (k'.envs e).envId) :: handed) freed k' := by
  obtain ⟨-, -, er, hr⟩ | ⟨g, hl, ⟨er, hr, -⟩ | ⟨hr, hw⟩⟩ := alloc_ids hrun
  · cases hr
  · cases hr
  · cases hr
    exact h.use hbound (hw.self e hl) hw.others

theorem IdInv.refuse {err : Err} (h : IdInv handed freed k)
    (hrun : (envAlloc parentId).run k = .ok (.error err, k') ∨
      (envGuestAlloc parentId).run k = .ok (.error err, k')) : IdInv handed freed k' := by
  obtain ⟨-, rfl, -⟩ | ⟨e, hl, ⟨er, -, hw⟩ | ⟨hr, -⟩⟩ := alloc_ids hrun
  · exact h
  · refine h.of_same fun g => ?_
    by_cases hge : g = e
    · subst hge
      exact ⟨hw.self.id, by rw [hw.self.status]⟩
    · rw [hw.others g hge]
      exact ⟨rfl, Iff.rfl⟩
  · cases hr

theorem IdInv.envFree {u : Unit} (h : IdInv handed freed k) (hlive : (k.envs e).envStatus ≠ .free)
    (hrun : (envFree e).run k = .ok (u, k')) : IdInv handed ((k.envs e).envId :: freed) k' := by
  have hw := envFree_within (SameId.pageless (k.envs e)) ⟨rfl, rfl, rfl⟩ hrun
  obtain ⟨w, hsame, hv⟩ := hw.self
  refine h.release hlive ?_ ?_ hw.others
  · rw [hv]
    exact hsame.id
  · rw [hv]

/-- **The ids of a run.** -/
theorem IdRun.inv (hrun : IdRun (envInit k₀) k handed freed) (hzero : ∀ e, (k₀.envs e).envId = 0)
    (hbound : ∀ e, timesUsed handed e < 2 ^ 19) : IdInv handed freed k := by
  induction hrun with
  | start => exact ⟨hzero, fun _ _ => rfl, nofun, nofun⟩
  | alloc _ hstep ih =>
    refine (ih fun g => (timesUsed_le_cons _ g).trans_lt (hbound g)).alloc ?_ hstep
    rw [← timesUsed_cons_self]
    exact hbound _
  | refuse _ hstep ih => exact (ih hbound).refuse hstep
  | free _ hlive hstep ih => exact (ih hbound).envFree hlive hstep
  | other _ hstep ih => exact (ih hbound).of_same hstep

section

variable (h : IdInv handed freed k) (hbound : ∀ e, timesUsed handed e < 2 ^ 19)
include h hbound

/-- An id that has been freed is refused. -/
theorem IdInv.stale {i : EnvId} (hi : i ∈ freed) (checkperm : Bool) :
    (envid2env i checkperm).run k = .ok (.error .badEnv, k) := by
  obtain ⟨e, n, h₁, rfl, hn⟩ := h.gone i hi
  have hlt : n < 2 ^ 19 := by
    have := hbound e
    omega
  have hbad : (k.envs e).envStatus = .free ∨ (k.envs e).envId ≠ idAfter e n := by
    obtain hn | ⟨-, hst⟩ := hn
    · rw [h.id]
      exact .inr (idAfter_ne h₁ hn (hbound e))
    · exact .inl hst
  rw [envid2env, bind_get, if_neg (idAfter_ne_zero h₁ hlt)]
  dsimp only
  rw [envx_idAfter h₁ hlt, if_pos hbad]
  rfl

theorem IdInv.envx_live (hlive : (k.envs e).envStatus ≠ .free) : envx (k.envs e).envId = e := by
  rw [h.id]
  exact envx_idAfter (Nat.one_le_iff_ne_zero.mpr fun h0 => hlive (h.unused e h0)) (hbound e)

end

/-- With `checkperm` set, `envid2env` finds the current environment or a child of it. -/
theorem envid2env_permitted {i : EnvId} {o : Option EnvIx}
    (hrun : (envid2env i true).run k = .ok (.ok o, k')) : o = k.curenv ∨
      ∃ e cur, o = some e ∧ k.curenv = some cur ∧ (k.envs e).envParentId = (k.envs cur).envId := by
  rw [envid2env, bind_get] at hrun
  split at hrun
  · cases hrun
    exact .inl rfl
  dsimp only at hrun
  split at hrun
  · cases hrun
  split at hrun
  · obtain ⟨cur, k₁, h₁, hrun⟩ := bind_inv hrun
    obtain ⟨hcur, -⟩ := deref_eq_ok h₁
    split at hrun
    · cases hrun
    · rename_i hparent
      cases hrun
      exact .inr ⟨_, cur, rfl, hcur, not_not.mp hparent⟩
  · rename_i hcur
    cases hrun
    exact .inl (not_not.mp fun hne => hcur ⟨rfl, Ne.symm hne⟩)

/-- **Ids are capabilities.**  In every run from `env_init` in which each slot is used fewer than
`2 ^ 19 - 1` times, the ids that are handed out are positive and name their slots, live environments
have different ids, the id of an environment that was freed is refused from then on, and with
`checkperm` set only the current environment and its children are found. -/
theorem envIds_sound (hzero : ∀ e, (k₀.envs e).envId = 0)
    (hrun : IdRun (envInit k₀) k handed freed) (hbound : ∀ e, timesUsed handed e < 2 ^ 19 - 1) :
    (∀ e i, (e, i) ∈ handed → 0 < i.toInt ∧ envx i = e) ∧
    (∀ e g, (k.envs e).envStatus ≠ .free → (k.envs g).envStatus ≠ .free → e ≠ g →
      (k.envs e).envId ≠ (k.envs g).envId) ∧
    (∀ i ∈ freed, ∀ checkperm, (envid2env i checkperm).run k = .ok (.error .badEnv, k)) ∧
    ∀ i o k', (envid2env i true).run k = .ok (.ok o, k') → o = k.curenv ∨
      ∃ e cur, o = some e ∧ k.curenv = some cur ∧
        (k.envs e).envParentId = (k.envs cur).envId := by
  have hb : ∀ e, timesUsed handed e < 2 ^ 19 := fun e => (hbound e).trans (by decide)
  have h := hrun.inv hzero hb
  refine ⟨fun e i hi => ?_, fun e g he hg hne heq => hne ?_, fun i hi => h.stale hb hi,
    fun i o k' => envid2env_permitted⟩
  · obtain ⟨n, h₁, hn, hid⟩ := h.given (e, i) hi
    have hlt : n < 2 ^ 19 := hn.trans_lt (hb e)
    dsimp only at hid
    rw [hid]
    exact ⟨idAfter_pos h₁ hlt, envx_idAfter h₁ hlt⟩
  · rw [← h.envx_live hb he, ← h.envx_live hb hg, heq]

theorem smallMachine_freed : Returns ((envGuestAlloc 0).run (smallMachine (faultAt 2 0)))
    fun r k => r.toOption = some 0 ∧ (k.envs 0).envId = 4096#32 ∧ (k.envs 0).envStatus ≠ .free ∧
      ((envFree 0).run k).toOption.isSome = true := by
  decide +kernel

/-- A guest is made and freed. -/
theorem envIds_sound_freed :
    ∃ k, IdRun (smallMachine (faultAt 2 0)) k [(0, 4096#32)] [4096#32] ∧
      (envid2env 4096#32 false).run k = .ok (.error .badEnv, k) := by
  obtain ⟨r, k₁, h₁, hr, hid, hlive, hfree⟩ := smallMachine_freed.exists_ok
  obtain ⟨⟨_, k₂⟩, h₂⟩ := Option.isSome_iff_exists.mp hfree
  obtain rfl := eq_ok_of_toOption hr
  have hr₂ := (IdRun.alloc .start (.inr h₁)).free hlive (eq_ok_of_toOption h₂)
  rw [hid] at hr₂
  have hb : ∀ e, timesUsed [(0, 4096#32)] e < 2 ^ 19 - 1 := fun e =>
    List.count_le_length.trans_lt (by decide)
  exact ⟨k₂, hr₂, (envIds_sound (fun _ => rfl) hr₂ hb).2.2.1 _ List.mem_cons_self false⟩

end JosVmm
