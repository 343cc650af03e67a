import Mathlib.Data.Nat.ModEq
import Mathlib.Data.List.Basic
import Mathlib.Logic.Function.Basic

/-!
# Support — Ring buffers

A buffer of `n` places used in a circle.  `next` is the place of the next value, and `head` the
place of the oldest one, or `none` if there is none; so `head = next` means that the buffer is full.

`Ring.Holds` reads the values off the places, oldest first.  A push to a buffer that is not full
appends a value (`Holds.push`), and a pop from one that is not empty takes the first one away
(`Holds.pop`); what is left at the other places does not matter.
-/

namespace Support

open Function List

variable {n : Nat} {α : Type}

structure Ring (n : Nat) (α : Type) where
  head : Option (Fin n)
  next : Fin n
  buf : Fin n → α

namespace Ring

/-- The place `k` places after `h`. -/
def place (h : Fin n) (k : Nat) : Fin n := ⟨(h + k) % n, Nat.mod_lt _ (Fin.pos h)⟩

/-- A value is stored at `next`. -/
def push (r : Ring n α) (x : α) : Ring n α where
  head := if r.head = none then some r.next else r.head
  next := place r.next 1
  buf := update r.buf r.next x

/-- The value at the head `h` is given up. -/
def pop (r : Ring n α) (h : Fin n) : Ring n α :=
  { r with head := if place h 1 = r.next then none else some (place h 1) }

variable {r : Ring n α} {h : Fin n} {j k : Nat} {x : α} {l : List α}

@[simp] theorem place_zero : place h 0 = h := Fin.ext (Nat.mod_eq_of_lt h.isLt)

theorem place_place : place (place h j) k = place h (j + k) := by
  apply Fin.ext
  simp only [place, Nat.mod_add_mod, Nat.add_assoc]

theorem place_inj (hj : j < n) (hk : k < n) : place h j = place h k ↔ j = k := by
  refine ⟨fun heq => ?_, fun heq => heq ▸ rfl⟩
  have hval : (h + j) % n = (h + k) % n := congrArg Fin.val heq
  have hmod : j % n = k % n := Nat.ModEq.add_left_cancel' h hval
  rwa [Nat.mod_eq_of_lt hj, Nat.mod_eq_of_lt hk] at hmod

/-- The buffer holds the values `l`, oldest first. -/
structure Holds (r : Ring n α) (l : List α) : Prop where
  le : l.length ≤ n
  empty : r.head = none → l = []
  next : ∀ h, r.head = some h → r.next = place h l.length
  ne : ∀ h, r.head = some h → l ≠ []
  value : ∀ h k x, r.head = some h → l[k]? = some x → r.buf (place h k) = x

namespace Holds

theorem new (next : Fin n) (buf : Fin n → α) : Holds ⟨none, next, buf⟩ [] :=
  ⟨Nat.zero_le n, fun _ => rfl, nofun, nofun, nofun⟩

/-- A buffer with room is not full. -/
theorem not_full (hr : r.Holds l) (hlt : l.length < n) : r.head ≠ some r.next := by
  intro hh
  have hzero : 0 = l.length := (place_inj (h := r.next) (Nat.zero_lt_of_lt hlt) hlt).mp
    (place_zero.trans (hr.next _ hh))
  exact hr.ne _ hh (List.length_eq_zero_iff.mp hzero.symm)

theorem push (hr : r.Holds l) (hlt : l.length < n) : (r.push x).Holds (l ++ [x]) := by
  have hlen : (l ++ [x]).length = l.length + 1 := length_append
  cases hh : r.head with
  | none =>
    obtain rfl := hr.empty hh
    have hhead : (r.push x).head = some r.next := if_pos hh
    refine ⟨hlen ▸ hlt, fun h' => ?_, fun h h' => ?_, fun _ _ => nofun, fun h k y h' hk => ?_⟩
    · rw [hhead] at h'
      cases h'
    · rw [hhead] at h'
      cases h'
      rfl
    · rw [hhead] at h'
      cases h'
      cases k with
      | zero =>
        cases hk
        rw [place_zero]
        exact update_self ..
      | succ k => cases hk
  | some h0 =>
    have hnext := hr.next h0 hh
    have hhead : (r.push x).head = some h0 := (if_neg (by rw [hh]; nofun)).trans hh
    refine ⟨hlen ▸ hlt, fun h' => ?_, fun h h' => ?_, fun _ _ => by simp, fun h k y h' hk => ?_⟩
    · rw [hhead] at h'
      cases h'
    · rw [hhead] at h'
      cases h'
      change place r.next 1 = _
      rw [hnext, place_place, hlen]
    · rw [hhead] at h'
      cases h'
      change update r.buf r.next x (place h0 k) = y
      rcases Nat.lt_trichotomy k l.length with hlt' | rfl | hgt
      · -- an older value, at another place
        rw [getElem?_append_left hlt'] at hk
        rw [update_of_ne, hr.value h0 k y hh hk]
        rw [hnext, Ne, place_inj (Nat.lt_trans hlt' hlt) hlt]
        exact Nat.ne_of_lt hlt'
      · rw [getElem?_concat_length] at hk
        cases hk
        rw [← hnext, update_self]
      · rw [getElem?_eq_none (by rw [hlen]; exact hgt)] at hk
        cases hk

theorem pop (hr : r.Holds (x :: l)) : ∃ h, r.head = some h ∧ r.buf h = x ∧ (r.pop h).Holds l := by
  obtain ⟨h, hh⟩ : ∃ h, r.head = some h := by
    cases hh : r.head with
    | none => exact absurd (hr.empty hh) (cons_ne_nil x l)
    | some h => exact ⟨h, rfl⟩
  have hlen : l.length < n := hr.le
  have hnext : r.next = place (place h 1) l.length := by
    rw [hr.next h hh, place_place, length_cons, Nat.add_comm]
  -- the buffer becomes empty exactly if this was the only value
  have hlast : place h 1 = r.next ↔ l = [] := by
    rw [hnext, ← length_eq_zero_iff]
    have hinj := place_inj (h := place h 1) (Nat.zero_lt_of_lt hlen) hlen
    rw [place_zero] at hinj
    rw [hinj, eq_comm]
  have hhead : ∀ h', (r.pop h).head = some h' → place h 1 ≠ r.next ∧ h' = place h 1 := by
    intro h' heq
    by_cases hp : place h 1 = r.next
    · rw [Ring.pop, if_pos hp] at heq
      cases heq
    · rw [Ring.pop, if_neg hp] at heq
      exact ⟨hp, (Option.some.inj heq).symm⟩
  refine ⟨h, hh, ?_, Nat.le_of_lt hlen, fun h' => ?_, fun h' heq => ?_, fun h' heq => ?_,
    fun h' k y heq hk => ?_⟩
  · have hfirst := hr.value h 0 x hh rfl
    rwa [place_zero] at hfirst
  · by_contra hne
    rw [Ring.pop, if_neg fun hp => hne (hlast.mp hp)] at h'
    cases h'
  · rw [(hhead h' heq).2]
    exact hnext
  · exact fun hl => (hhead h' heq).1 (hlast.mpr hl)
  · rw [(hhead h' heq).2, place_place, Nat.add_comm]
    exact hr.value h (k + 1) y hh hk

end Holds

end Ring

end Support
