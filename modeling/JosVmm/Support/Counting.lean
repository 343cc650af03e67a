import Mathlib.Algebra.BigOperators.Group.Finset.Basic
import Mathlib.Algebra.Order.BigOperators.Group.Finset
import Mathlib.Data.Fintype.Card
import Mathlib.Data.Fintype.BigOperators

/-!
# Support — Counting

The number of arguments a partial map sends to a value, for one map (`fibre`) and for a finite
family of them (`total`).  Changing one argument changes the two counts concerned by one
(`fibre_update`, `total_update`).
-/

namespace Support.Counting

open Function Finset

variable {ι V α : Type} [Fintype V] [DecidableEq α]

/-- How many arguments `f` sends to `p`. -/
def fibre (f : V → Option α) (p : α) : Nat := (Finset.univ.filter fun x => f x = some p).card

/-- How many arguments the maps of a family send to `p`, all together. -/
def total (R : Finset ι) (f : ι → V → Option α) (p : α) : Nat := ∑ r ∈ R, fibre (f r) p

/-- One if the condition holds, and zero otherwise. -/
def one (c : Prop) [Decidable c] : Nat := if c then 1 else 0

@[simp] theorem one_of {c : Prop} [Decidable c] (h : c) : one c = 1 := if_pos h
@[simp] theorem one_not {c : Prop} [Decidable c] (h : ¬ c) : one c = 0 := if_neg h

theorem one_eq_zero {c : Prop} [Decidable c] : one c = 0 ↔ ¬ c := by
  unfold one
  split <;> simp_all

theorem count_cons_one (a : α) (l : List α) (x : α) :
    (a :: l).count x = l.count x + one (a = x) := by
  rw [List.count_cons, beq_eq_decide]
  simp only [one, decide_eq_true_eq]

theorem update_add_one [DecidableEq ι] (f : ι → Nat) (i : ι) :
    update f i (f i + 1) = fun j => f j + one (i = j) := by
  funext j
  by_cases e : j = i
  · subst e
    rw [update_self, one_of rfl]
  · rw [update_of_ne e, one_not (Ne.symm e), Nat.add_zero]

/-- A sum of zeros and ones with at most one one. -/
theorem sum_le_one {f : V → Nat} (h1 : ∀ i, f i ≤ 1) (h : ∀ i j, 0 < f i → 0 < f j → i = j) :
    ∑ i, f i ≤ 1 := by
  by_cases hpos : ∃ i, 0 < f i
  · obtain ⟨i, hi⟩ := hpos
    have rest : ∀ j, j ≠ i → f j = 0 := fun j hj =>
      Nat.eq_zero_of_not_pos fun hjp => hj (h j i hjp hi)
    rw [sum_eq_single i (fun j _ hj => rest j hj) (by simp)]
    exact h1 i
  · rw [sum_eq_zero fun j _ => Nat.eq_zero_of_not_pos fun hj => hpos ⟨j, hj⟩]
    exact Nat.zero_le 1

variable {f g : V → Option α} {p : α}

theorem fibre_eq_sum (f : V → Option α) (p : α) : fibre f p = ∑ x, one (f x = some p) :=
  card_filter ..

theorem fibre_pos_iff : 0 < fibre f p ↔ ∃ x, f x = some p := by
  rw [fibre, card_pos]
  exact ⟨fun ⟨x, hx⟩ => ⟨x, (Finset.mem_filter.mp hx).2⟩,
    fun ⟨x, hx⟩ => ⟨x, Finset.mem_filter.mpr ⟨mem_univ x, hx⟩⟩⟩

theorem fibre_none (p : α) : fibre (fun _ : V => none) p = 0 := by simp [fibre]

/-- Changing one argument changes the two fibres concerned by one. -/
theorem fibre_update [DecidableEq V] (f : V → Option α) (v : V) (o : Option α) (p : α) :
    fibre (update f v o) p + one (f v = some p) = fibre f p + one (o = some p) := by
  have split : ∀ g : V → Option α,
      fibre g p = one (g v = some p) + ∑ x ∈ Finset.univ.erase v, one (g x = some p) := fun g => by
    rw [fibre_eq_sum, ← add_sum_erase _ _ (mem_univ v)]
  have rest : ∑ x ∈ Finset.univ.erase v, one (update f v o x = some p) =
      ∑ x ∈ Finset.univ.erase v, one (f x = some p) :=
    sum_congr rfl fun x hx => by rw [update_of_ne (ne_of_mem_erase hx)]
  rw [split, split f, rest, update_self]
  omega

/-- The arguments in `S` and the others. -/
theorem fibre_split (S : V → Prop) [DecidablePred S] [DecidablePred fun x => ¬ S x]
    (f : V → Option α) (p : α) :
    fibre f p = fibre (fun x => if S x then f x else none) p +
      fibre (fun x => if ¬ S x then f x else none) p := by
  rw [fibre_eq_sum, fibre_eq_sum, fibre_eq_sum, ← sum_add_distrib]
  refine sum_congr rfl fun x _ => ?_
  by_cases hx : S x <;> simp [hx]

/-- A part of a map sends no more arguments to a value. -/
theorem fibre_mono (h : ∀ x, g x = some p → f x = some p) : fibre g p ≤ fibre f p :=
  card_le_card fun x hx => Finset.mem_filter.mpr
    ⟨mem_univ x, h x (Finset.mem_filter.mp hx).2⟩

/-- The arguments sent to a value are among the images of `g`. -/
theorem fibre_le_card {W : Type} [Fintype W] (g : W → V) (h : ∀ x, f x = some p → ∃ w, g w = x) :
    fibre f p ≤ Fintype.card W := by
  classical
  have hsub : (Finset.univ.filter fun x => f x = some p) ⊆ Finset.univ.image g := fun x hx => by
    obtain ⟨w, hw⟩ := h x (Finset.mem_filter.mp hx).2
    exact Finset.mem_image.mpr ⟨w, mem_univ w, hw⟩
  exact (card_le_card hsub).trans card_image_le

/-- If `g` leads the arguments sent to `p` or `q` to different arguments sent to `r`, there are at
least as many of these. -/
theorem fibre_add_le {q r : α} (hpq : p ≠ q) (g : V → V)
    (hg : ∀ x, f x = some p ∨ f x = some q → f (g x) = some r)
    (hinj : ∀ x y, f x = some p ∨ f x = some q → f y = some p ∨ f y = some q → g x = g y → x = y) :
    fibre f p + fibre f q ≤ fibre f r := by
  classical
  have hdisj : Disjoint (Finset.univ.filter fun x => f x = some p)
      (Finset.univ.filter fun x => f x = some q) := by
    rw [disjoint_filter]
    intro x _ hp hq
    exact hpq (Option.some.inj (hp.symm.trans hq))
  have hmem : ∀ {x}, x ∈ (Finset.univ.filter fun x => f x = some p) ∪
      (Finset.univ.filter fun x => f x = some q) → f x = some p ∨ f x = some q := fun {x} hx => by
    simpa using hx
  rw [fibre, fibre, ← card_union_of_disjoint hdisj]
  refine card_le_card_of_injOn g (fun x hx => ?_) fun x hx y hy h => ?_
  · simpa using hg x (hmem hx)
  · exact hinj x y (hmem hx) (hmem hy) h

variable {R : Finset ι} {φ ψ : ι → V → Option α}

theorem total_pos_iff : 0 < total R φ p ↔ ∃ r ∈ R, ∃ x, φ r x = some p := by
  rw [total, sum_pos_iff]
  exact exists_congr fun r => and_congr_right fun _ => fibre_pos_iff

theorem total_congr (h : ∀ r ∈ R, ψ r = φ r) (p : α) : total R ψ p = total R φ p :=
  sum_congr rfl fun r hr => by rw [h r hr]

theorem total_mono (h : ∀ r ∈ R, ∀ x, ψ r x = some p → φ r x = some p) :
    total R ψ p ≤ total R φ p :=
  sum_le_sum fun r hr => fibre_mono (h r hr)

/-- Changing one argument of one map of the family. -/
theorem total_update [DecidableEq ι] [DecidableEq V] {r : ι} (hr : r ∈ R) {v : V} {o : Option α}
    (hat : ψ r = update (φ r) v o) (hoff : ∀ r' ∈ R, r' ≠ r → ψ r' = φ r') (p : α) :
    total R ψ p + one (φ r v = some p) = total R φ p + one (o = some p) := by
  have rest : ∑ r' ∈ R.erase r, fibre (ψ r') p = ∑ r' ∈ R.erase r, fibre (φ r') p :=
    sum_congr rfl fun r' h => by
      rw [hoff r' (mem_of_mem_erase h) (ne_of_mem_erase h)]
  have one_map := fibre_update (φ r) v o p
  rw [total, total, ← add_sum_erase R _ hr, ← add_sum_erase R _ hr, rest, hat]
  omega

/-- Two arguments that are sent to one value. -/
theorem two_le_total [DecidableEq ι] [DecidableEq V] {r r' : ι} {x x' : V} (hr : r ∈ R)
    (hr' : r' ∈ R) (hx : φ r x = some p) (hx' : φ r' x' = some p) (hne : ¬ (r' = r ∧ x' = x)) :
    2 ≤ total R φ p := by
  have hdrop := total_update (ψ := update φ r (update (φ r) x none)) hr (update_self ..)
    (fun _ _ h => update_of_ne h ..) p
  have hpos : 0 < total R (update φ r (update (φ r) x none)) p := by
    refine total_pos_iff.mpr ⟨r', hr', x', ?_⟩
    by_cases h : r' = r
    · subst h
      rw [update_self, update_of_ne fun hxx => hne ⟨rfl, hxx⟩, hx']
    · rw [update_of_ne h, hx']
  rw [one_of hx, one_not (by simp)] at hdrop
  omega

end Support.Counting
