import Mathlib.Algebra.Group.Fin.Basic
import Mathlib.Data.List.FinRange
import Mathlib.Data.List.Perm.Subperm
import Mathlib.Tactic.Abel

/-!
# Support — Cyclic order

The slots of a ring of `n` after a given one.  A full turn from a slot meets every slot once and
ends at the slot itself (`turn`); a turn that starts further on is the same turn, rotated
(`turn_eq_of_split`).  Selecting slots of a turn gives the order in which a search that resumes
where it stopped comes to them (`selected_rotate`).
-/

namespace Support.Cyclic

open List

variable {n : Nat} [NeZero n] {i e : Fin n}

/-- The next `m` slots after `i`. -/
def next : Nat → Fin n → List (Fin n)
  | 0, _ => []
  | m + 1, i => (i + 1) :: next m (i + 1)

/-- All slots, from the one after `i` on. -/
def turn (i : Fin n) : List (Fin n) := next n i

theorem length_next (i : Fin n) : ∀ m, (next m i).length = m
  | 0 => rfl
  | m + 1 => by rw [next, length_cons, length_next (i + 1) m]

theorem add_ofNat_succ (i : Fin n) (m : Nat) : i + 1 + Fin.ofNat n m = i + Fin.ofNat n (m + 1) := by
  rw [add_assoc]
  congr 1
  apply Fin.ext
  simp [Fin.val_add, Nat.add_comm]

theorem next_add : ∀ (i : Fin n) (a b : Nat),
    next (a + b) i = next a i ++ next b (i + Fin.ofNat n a)
  | i, 0, b => by simp [next]
  | i, a + 1, b => by
    rw [Nat.add_right_comm, next, next, next_add (i + 1) a b, add_ofNat_succ, cons_append]

theorem mem_next : ∀ {m : Nat} {i : Fin n},
    e ∈ next m i ↔ ∃ j < m, e = i + Fin.ofNat n (j + 1)
  | 0, i => by simp [next]
  | m + 1, i => by
    rw [next, mem_cons, mem_next]
    constructor
    · rintro (rfl | ⟨j, hj, rfl⟩)
      · exact ⟨0, Nat.succ_pos m, by rw [← add_ofNat_succ]; simp⟩
      · exact ⟨j + 1, Nat.succ_lt_succ hj, by rw [add_ofNat_succ]⟩
    · rintro ⟨j, hj, rfl⟩
      cases j with
      | zero => exact .inl (by rw [← add_ofNat_succ]; simp)
      | succ j => exact .inr ⟨j, Nat.lt_of_succ_lt_succ hj, by rw [add_ofNat_succ]⟩

theorem mem_turn (i e : Fin n) : e ∈ turn i := by
  refine mem_next.mpr ⟨(e - i - 1).val, (e - i - 1).isLt, ?_⟩
  rw [← add_ofNat_succ, Fin.ofNat_val_eq_self]
  abel

theorem nodup_turn (i : Fin n) : (turn i).Nodup := by
  have hsub := subperm_of_subset (nodup_finRange n) fun e _ => mem_turn i e
  exact (hsub.perm_of_length_le (by rw [turn, length_next, length_finRange])).nodup_iff.mp
    (nodup_finRange n)

/-- A turn that starts further on. -/
theorem turn_eq_of_split {pre post : List (Fin n)} (h : turn i = pre ++ e :: post) :
    turn e = post ++ (pre ++ [e]) := by
  have hlen : pre.length + 1 + post.length = n := by
    have := congrArg List.length h
    rw [turn, length_next, length_append, length_cons] at this
    omega
  -- the turn from `i` goes to `e` in `pre.length + 1` steps
  have hsplit := next_add i (pre.length + 1) post.length
  rw [hlen] at hsplit
  rw [turn, hsplit, append_cons] at h
  obtain ⟨h1, h2⟩ := append_inj h (by simp [length_next])
  have he : e = i + Fin.ofNat n (pre.length + 1) := by
    have hlast := next_add i pre.length 1
    rw [h1] at hlast
    have := (append_inj' hlast rfl).2
    rw [next, next, List.cons.injEq] at this
    rw [this.1, add_right_comm, add_ofNat_succ]
  rw [← he] at h2
  have hback : e + Fin.ofNat n post.length = i := by
    rw [he]
    apply Fin.ext
    simp [Fin.val_add]
    rw [show i.val + (pre.length + 1) + post.length = i.val + n by omega]
    simp [Nat.mod_eq_of_lt i.isLt]
  have hrest := next_add e post.length (pre.length + 1)
  rw [Nat.add_comm post.length, hlen, hback, h1, h2] at hrest
  exact hrest

variable {p : Fin n → Bool}

/-- The slots that are selected, from the one after `i` on, and those after the first of them. -/
theorem selected_rotate {l : List (Fin n)} (h : (turn i).filter p = e :: l) :
    (turn e).filter p = l ++ [e] := by
  obtain ⟨pre, post, hsplit, hpre, he, hpost⟩ := List.filter_eq_cons_iff.mp h
  rw [turn_eq_of_split hsplit, filter_append, filter_append, hpost,
    List.filter_eq_nil_iff.mpr hpre, filter_singleton, he]
  rfl

end Support.Cyclic
