import Mathlib.Data.List.FinRange
import Mathlib.Logic.Relation

/-!
# Support — Programs

A program reads and writes a state and may panic: `StateT σ (Except ε) α`.  A run is taken apart
at a bind: forwards when the first part's outcome is known (`bind_ok`), backwards when the
whole run is known to succeed (`bind_inv`).  `Ensures` carries a property through a program,
part by part.  `Returns` says what a run ends with, and can be
evaluated.

A system of such programs runs by taking one step after another: `Step exec C` is one operation
that meets the condition `C`, and `Reach exec C` a run of them.  A property that one step keeps
holds along every run (`invariant`); a run on given operations can be evaluated (`Follows`).  A
`Trace` also keeps the operations, for properties that speak of what happened before.
-/

namespace Support.Prog

open List

variable {σ ε α β : Type} {s u : σ} {a : α} {e : ε} {P : σ → Prop} {x : StateT σ (Except ε) α}
  {f : α → StateT σ (Except ε) β}

theorem run_pure (a : α) (s : σ) : (pure a : StateT σ (Except ε) α).run s = .ok (a, s) := rfl

theorem bind_ok (h : x.run s = .ok (a, u)) : (x >>= f).run s = (f a).run u := by
  rw [StateT.run_bind, h]
  rfl

theorem bind_get {f : σ → StateT σ (Except ε) β} : (get >>= f).run s = (f s).run s := rfl

theorem bind_modify {g : σ → σ} {f : PUnit → StateT σ (Except ε) β} :
    (modify g >>= f).run s = (f ⟨⟩).run (g s) := rfl

theorem bind_error (h : x.run s = .error e) : (x >>= f).run s = .error e := by
  rw [StateT.run_bind, h]
  rfl

theorem bind_inv {r : β × σ} (h : (x >>= f).run s = .ok r) :
    ∃ a s', x.run s = .ok (a, s') ∧ (f a).run s' = .ok r := by
  cases hx : x.run s with
  | error e =>
    rw [bind_error hx] at h
    cases h
  | ok p => exact ⟨p.1, p.2, rfl, (bind_ok hx).symm.trans h⟩

/-- A program that succeeds, and then another one. -/
theorem exists_run_bind {Q : σ → Prop} {b : β} (hx : ∃ u, x.run s = .ok (a, u) ∧ Q u)
    (hf : ∀ u, Q u → ∃ w, (f a).run u = .ok (b, w) ∧ P w) :
    ∃ w, (x >>= f).run s = .ok (b, w) ∧ P w := by
  obtain ⟨u, hrun, hu⟩ := hx
  rw [bind_ok hrun]
  exact hf u hu

/-- The program changes nothing. -/
def ReadOnly (x : StateT σ (Except ε) α) : Prop := ∀ s a u, x.run s = .ok (a, u) → u = s

theorem readOnly_pure (a : α) : ReadOnly (pure a : StateT σ (Except ε) α) := fun _ _ _ h => by
  cases h
  rfl

theorem ReadOnly.bind (hx : ReadOnly x) (hf : ∀ a, ReadOnly (f a)) :
    ReadOnly (x >>= f) := fun s b u h => by
  obtain ⟨a, s', h1, h2⟩ := bind_inv h
  obtain rfl := hx s a s' h1
  exact hf a s' b u h2

/-- From a state that satisfies `P` the program ends, if it does, with a result and a state that
satisfy `Q`. -/
def Ensures (P : σ → Prop) (x : StateT σ (Except ε) α) (Q : α → σ → Prop) : Prop :=
  ∀ ⦃s a u⦄, P s → x.run s = .ok (a, u) → Q a u

theorem Ensures.pure {Q : α → σ → Prop} (h : ∀ s, P s → Q a s) :
    Ensures P (pure a : StateT σ (Except ε) α) Q := fun s _ _ hs hrun => by
  cases hrun
  exact h s hs

theorem Ensures.skip : Ensures P (Pure.pure a : StateT σ (Except ε) α) fun _ => P :=
  .pure fun _ hs => hs

theorem Ensures.throw {Q : α → σ → Prop} :
    Ensures P (throw e : StateT σ (Except ε) α) Q := fun _ _ _ _ hrun => by cases hrun

theorem Ensures.bind {R : α → σ → Prop} {Q : β → σ → Prop} (hx : Ensures P x R)
    (hf : ∀ a, Ensures (R a) (f a) Q) : Ensures P (x >>= f) Q := fun _ _ _ hs hrun => by
  obtain ⟨a, s', h1, h2⟩ := bind_inv hrun
  exact hf a (hx hs h1) h2

theorem Ensures.option {γ : Type} {x : StateT σ (Except ε) (Option γ)} {R : σ → Prop}
    {f : Option γ → StateT σ (Except ε) β} {Q : β → σ → Prop} (hx : Ensures P x fun _ => R)
    (hnone : Ensures R (f none) Q) (hsome : ∀ c, Ensures R (f (some c)) Q) :
    Ensures P (x >>= f) Q :=
  hx.bind fun
    | none => hnone
    | some c => hsome c

theorem Ensures.ite {p : Prop} [Decidable p] {y : StateT σ (Except ε) α} {Q : α → σ → Prop}
    (hx : Ensures P x Q) (hy : Ensures P y Q) : Ensures P (if p then x else y) Q := by
  split
  · exact hx
  · exact hy

theorem Ensures.get : Ensures P (get : StateT σ (Except ε) σ) fun _ => P := fun _ _ _ hs hrun => by
  cases hrun
  exact hs

theorem Ensures.modify {f : σ → σ} {Q : Unit → σ → Prop} (h : ∀ s, P s → Q () (f s)) :
    Ensures P (modify f : StateT σ (Except ε) Unit) Q := fun s _ _ hs hrun => by
  cases hrun
  exact h s hs

theorem Ensures.of_run (Q : α → σ → Prop) (hs : P s) (hrun : x.run s = .ok (a, u))
    (hx : Ensures P x Q) : Q a u := hx hs hrun

theorem Ensures.of_imp {P' : σ → Prop} {Q : α → σ → Prop} (h : ∀ s, P s → P' s)
    (hx : Ensures P' x Q) : Ensures P x Q := fun s _ _ hs hrun =>
  hx (h s hs) hrun

theorem Ensures.of_pre {φ : Prop} {Q : α → σ → Prop} (h : φ → Ensures P x Q) :
    Ensures (fun s => φ ∧ P s) x Q := fun _ _ _ hs hrun =>
  h hs.1 hs.2 hrun

/-- The program does not stop with `e`. -/
def Avoids (e : ε) (x : StateT σ (Except ε) α) : Prop := ∀ s, x.run s ≠ .error e

theorem Avoids.pure {e : ε} {a : α} : Avoids e (pure a : StateT σ (Except ε) α) :=
  fun _ h => by cases h

theorem Avoids.throw {e' : ε} (h : e' ≠ e) : Avoids e (throw e' : StateT σ (Except ε) α) :=
  fun _ he => by
    cases he
    exact h rfl

theorem Avoids.bind_of_ok (hx : Avoids e x)
    (hf : ∀ s a u, x.run s = .ok (a, u) → (f a).run u ≠ .error e) :
    Avoids e (x >>= f) := fun s h => by
  cases hrun : x.run s with
  | error e' =>
    rw [bind_error hrun] at h
    cases h
    exact hx s hrun
  | ok r =>
    rw [bind_ok hrun] at h
    exact hf s r.1 r.2 hrun h

theorem Avoids.bind (hx : Avoids e x) (hf : ∀ a, Avoids e (f a)) : Avoids e (x >>= f) :=
  hx.bind_of_ok fun _ a u _ => hf a u

theorem Avoids.ite {p : Prop} [Decidable p] {y : StateT σ (Except ε) α} (hx : Avoids e x)
    (hy : Avoids e y) : Avoids e (if p then x else y) := by
  split
  · exact hx
  · exact hy

/-- A property that every round keeps is kept by the loop. -/
theorem Ensures.forM {ι : Type} {body : ι → StateT σ (Except ε) Unit}
    (h : ∀ i, Ensures P (body i) fun _ => P) : ∀ l : List ι, Ensures P (l.forM body) fun _ => P
  | [] => .skip
  | i :: l => by
    exact .bind (h i) fun _ => Ensures.forM h l

/-- A loop whose rounds, if they end, lead from `I i` to `I (i + 1)`. -/
theorem Ensures.forM_range' {body : Nat → StateT σ (Except ε) Unit} {I : Nat → σ → Prop} :
    ∀ (start n : Nat), (∀ i, start ≤ i → i < start + n → Ensures (I i) (body i) fun _ => I (i + 1)) →
      Ensures (I start) ((List.range' start n).forM body) fun _ => I (start + n)
  | _, 0, _ => .pure fun _ hs => hs
  | start, n + 1, h => by
    refine .bind (h start (Nat.le_refl _) (by omega)) fun _ => ?_
    have hrest := Ensures.forM_range' (start + 1) n fun i h1 h2 => h i (by omega) (by omega)
    rwa [show start + 1 + n = start + (n + 1) by omega] at hrest

/-- A loop whose rounds act as `f` on the states that satisfy `P` is a fold. -/
theorem forM_run {ι : Type} {body : ι → StateT σ (Except ε) Unit} {f : σ → ι → σ} :
    ∀ {l : List ι} {s : σ}, (∀ i ∈ l, ∀ s, P s → (body i).run s = .ok ((), f s i) ∧ P (f s i)) →
      P s → (l.forM body).run s = .ok ((), l.foldl f s)
  | [], _, _, _ => rfl
  | i :: l, s, h, hs => by
    obtain ⟨hrun, hP⟩ := h i (mem_cons_self ..) s hs
    rw [forM_eq_forM, forM_cons, bind_ok hrun]
    exact forM_run (fun j hj => h j (mem_cons_of_mem i hj)) hP

/-- The same for a loop over the indexes below `n`. -/
theorem forM_range_run {n : Nat} {body : Nat → StateT σ (Except ε) Unit} {f : σ → Fin n → σ}
    (h : ∀ (i : Fin n) (s : σ), P s → (body i).run s = .ok ((), f s i) ∧ P (f s i)) (hs : P s) :
    ((List.range n).forM body).run s = .ok ((), (List.finRange n).foldl f s) := by
  rw [← map_coe_finRange_eq_range, forM_eq_forM, forM_map, ← forM_eq_forM]
  exact forM_run (fun i _ s hs => h i s hs) hs

/-- A loop whose rounds succeed and lead from `I i` to `I (i + 1)`. -/
theorem forM_range'_run {body : Nat → StateT σ (Except ε) Unit} {I : Nat → σ → Prop} :
    ∀ {n start : Nat} {s : σ}, (∀ i s, start ≤ i → i < start + n → I i s →
      ∃ u, (body i).run s = .ok ((), u) ∧ I (i + 1) u) → I start s →
      ∃ u, ((List.range' start n).forM body).run s = .ok ((), u) ∧ I (start + n) u
  | 0, start, s, _, hs => ⟨s, rfl, hs⟩
  | n + 1, start, s, h, hs => by
    obtain ⟨u, hrun, hu⟩ := h start s (Nat.le_refl _) (by omega) hs
    obtain ⟨t, hrest, ht⟩ := forM_range'_run (n := n) (s := u)
      (fun i s h1 h2 => h i s (by omega) (by omega)) hu
    refine ⟨t, ?_, by rwa [Nat.add_right_comm, Nat.add_assoc] at ht⟩
    rw [range'_succ, forM_eq_forM, forM_cons, bind_ok hrun]
    exact hrest

/-- The run succeeds, with a result and a state that satisfy `P`. -/
def Returns (x : Except ε (α × σ)) (P : α → σ → Prop) : Prop :=
  match x with
  | .ok (a, s) => P a s
  | .error _ => False

instance {x : Except ε (α × σ)} {P : α → σ → Prop} [∀ a s, Decidable (P a s)] :
    Decidable (Returns x P) :=
  match x with
  | .ok (a, s) => inferInstanceAs (Decidable (P a s))
  | .error _ => inferInstanceAs (Decidable False)

/-- The run panics with `e`. -/
def Fails (x : Except ε α) (e : ε) : Prop :=
  match x with
  | .ok _ => False
  | .error e' => e' = e

instance [DecidableEq ε] {x : Except ε α} {e : ε} : Decidable (Fails x e) :=
  match x with
  | .ok _ => inferInstanceAs (Decidable False)
  | .error e' => inferInstanceAs (Decidable (e' = e))

theorem Fails.eq_error {x : Except ε α} (h : Fails x e) : x = .error e := by
  match x, h with
  | .error _, rfl => rfl

theorem eq_ok_of_toOption {x : Except ε α} (h : x.toOption = some a) : x = .ok a := by
  cases x with
  | error er => cases h
  | ok b => cases h; rfl

/-! ### Systems -/

/-- One operation that meets the condition `C`, run to its end. -/
def Step {ι : Type} (exec : ι → StateT σ (Except ε) Unit) (C : σ → ι → Prop) (s u : σ) : Prop :=
  ∃ i, C s i ∧ (exec i).run s = .ok ((), u)

/-- Runs whose operations all meet the condition `C`. -/
def Reach {ι : Type} (exec : ι → StateT σ (Except ε) Unit) (C : σ → ι → Prop) : σ → σ → Prop :=
  Relation.ReflTransGen (Step exec C)

/-- The operations run one after the other, each meets `C`, and the last state satisfies `P`. -/
def Follows {ι : Type} (exec : ι → StateT σ (Except ε) Unit) (C : σ → ι → Prop) (P : σ → Prop) :
    List ι → σ → Prop
  | [], s => P s
  | i :: l, s => C s i ∧ Returns ((exec i).run s) fun _ u => Follows exec C P l u

instance Follows.decidable {ι : Type} {exec : ι → StateT σ (Except ε) Unit} {C : σ → ι → Prop}
    {P : σ → Prop} [∀ s i, Decidable (C s i)] [DecidablePred P] :
    ∀ (l : List ι) (s : σ), Decidable (Follows exec C P l s)
  | [], s => inferInstanceAs (Decidable (P s))
  | i :: l, s =>
    have (u : σ) : Decidable (Follows exec C P l u) := Follows.decidable l u
    inferInstanceAs (Decidable (C s i ∧ Returns ((exec i).run s) fun _ u => Follows exec C P l u))

theorem Returns.exists_ok {x : Except ε (α × σ)} {P : α → σ → Prop} (h : Returns x P) :
    ∃ a s, x = .ok (a, s) ∧ P a s := by
  match x, h with
  | .ok (a, s), h => exact ⟨a, s, rfl, h⟩

theorem returns_iff {x : Except ε (α × σ)} {P : α → σ → Prop} :
    Returns x P ↔ ∃ a s, x = .ok (a, s) ∧ P a s :=
  ⟨Returns.exists_ok, by rintro ⟨a, s, rfl, h⟩; exact h⟩

/-- What a run needs at a bind. -/
theorem returns_bind {P : β → σ → Prop} :
    Returns ((x >>= f).run s) P ↔ Returns (x.run s) fun a u => Returns ((f a).run u) P := by
  rw [StateT.run_bind]
  cases x.run s with
  | error e => exact Iff.rfl
  | ok r => exact Iff.rfl

theorem returns_congr {x : Except ε (α × σ)} {P Q : α → σ → Prop}
    (h : ∀ a s, x = .ok (a, s) → (P a s ↔ Q a s)) : Returns x P ↔ Returns x Q := by
  cases x with
  | error e => exact Iff.rfl
  | ok r => exact h r.1 r.2 rfl

theorem returns_and {x : Except ε (α × σ)} {P : α → σ → Prop} {φ : Prop} :
    (Returns x fun a s => P a s ∧ φ) ↔ Returns x P ∧ φ := by
  cases x with
  | error e => exact (and_iff_left_of_imp nofun).symm.trans (and_congr_left' Iff.rfl)
  | ok r => exact Iff.rfl

/-- Operations that follow each other are a run. -/
theorem Follows.reach {ι : Type} {exec : ι → StateT σ (Except ε) Unit} {C : σ → ι → Prop} :
    ∀ {l : List ι} {s : σ}, Follows exec C P l s → ∃ u, Reach exec C s u ∧ P u
  | [], s, h => ⟨s, .refl, h⟩
  | i :: l, s, ⟨hC, h⟩ => by
    obtain ⟨_, t, hrun, ht⟩ := h.exists_ok
    obtain ⟨u, hu, hP⟩ := Follows.reach ht
    exact ⟨u, .head ⟨i, hC, hrun⟩ hu, hP⟩

theorem Reach.mono {ι : Type} {exec : ι → StateT σ (Except ε) Unit} {C C' : σ → ι → Prop}
    (hC : ∀ s i, C s i → C' s i) (h : Reach exec C s u) : Reach exec C' s u := by
  induction h with
  | refl => exact .refl
  | tail _ hs ih =>
    obtain ⟨i, hi, hrun⟩ := hs
    exact ih.tail ⟨i, hC _ i hi, hrun⟩

/-- The operations `l` run one after the other from `s₀`, and each meets `C`, which is told the
operations before it. -/
inductive Trace {ι : Type} (exec : ι → StateT σ (Except ε) Unit) (C : List ι → σ → ι → Prop)
    (s₀ : σ) : List ι → σ → Prop
  | nil : Trace exec C s₀ [] s₀
  | snoc {l : List ι} {s u : σ} {i : ι} : Trace exec C s₀ l s → C l s i →
      (exec i).run s = .ok ((), u) → Trace exec C s₀ (l ++ [i]) u

theorem Trace.invariant {ι : Type} {exec : ι → StateT σ (Except ε) Unit}
    {C : List ι → σ → ι → Prop} {P : List ι → σ → Prop} {s₀ : σ} {l : List ι}
    (hstep : ∀ l s i u, P l s → C l s i → (exec i).run s = .ok ((), u) → P (l ++ [i]) u)
    (h0 : P [] s₀) (h : Trace exec C s₀ l s) : P l s := by
  induction h with
  | nil => exact h0
  | snoc _ hC hrun ih => exact hstep _ _ _ _ ih hC hrun

/-- A property that one step keeps holds along every run. -/
theorem invariant {Step : σ → σ → Prop} (hstep : ∀ s u, P s → Step s u → P u) (h0 : P s)
    (h : Relation.ReflTransGen Step s u) : P u := by
  induction h with
  | refl => exact h0
  | tail _ hs ih => exact hstep _ _ ih hs

end Support.Prog
