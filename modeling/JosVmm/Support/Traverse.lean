import JosVmm.Support.Counting
import JosVmm.Support.Radix
import Mathlib.Algebra.BigOperators.Fin

/-!
# Support — Traversal of a radix tree

`visited` lists what a depth-first traversal of a radix tree meets: the values of the last-level
entries, as `leaf` reads them, and each table after everything below it.  A value occurs in it
once for each last-level entry that holds it (`leafCount`) and once for each interior entry that
points to it (`occ`); in a tree the second number is at most one (`occ_le_one`).  A traversal
sees the tables of the tree and nothing else (`visited_congr`).
-/

namespace Support.Radix
open Counting List Finset

variable {W : Type}

/-- The values met below the table `t`, with `level` levels of interior entries. -/
def visited (n : Nat) (dec leaf : W → Option Nat) (mem : Nat → W) : Nat → Nat → List Nat
  | 0, t => (List.finRange n).flatMap fun i => (leaf (mem (slot t i))).toList
  | level + 1, t => (List.finRange n).flatMap fun i =>
    match dec (mem (slot t i)) with
    | none => []
    | some c => visited n dec leaf mem level c ++ [c]

/-- How many last-level entries below `t` hold `p`. -/
def leafCount (n : Nat) (dec leaf : W → Option Nat) (mem : Nat → W) (p : Nat) : Nat → Nat → Nat
  | 0, t => ∑ i : Fin n, one (leaf (mem (slot t i)) = some p)
  | level + 1, t => ∑ i : Fin n,
      match dec (mem (slot t i)) with
      | none => 0
      | some c => leafCount n dec leaf mem p level c

/-- The occurrences of `p` behind one entry: the table it points to, and those below it. -/
def entryOcc (below : Nat → Nat) (p : Nat) (entry : Option Nat) : Nat :=
  match entry with
  | none => 0
  | some c => below c + one (c = p)

/-- How many interior entries below `t` point to `p`. -/
def occ (n : Nat) (dec : W → Option Nat) (mem : Nat → W) (p : Nat) : Nat → Nat → Nat
  | 0, _ => 0
  | level + 1, t => ∑ i : Fin n, entryOcc (occ n dec mem p level) p (dec (mem (slot t i)))

variable {n : Nat} {dec leaf : W → Option Nat} {mem : Nat → W} {p : Nat}

theorem count_visited : ∀ (level t : Nat), (visited n dec leaf mem level t).count p =
    leafCount n dec leaf mem p level t + occ n dec mem p level t
  | 0, t => by
    rw [visited, leafCount, occ, count_flatMap, ← Fin.sum_univ_def, Nat.add_zero]
    refine sum_congr rfl fun i _ => ?_
    cases h : leaf (mem (slot t i)) with
    | none => simp [h, one]
    | some c => simp [h, one, count_singleton, beq_iff_eq]
  | level + 1, t => by
    rw [visited, leafCount, occ, count_flatMap, ← Fin.sum_univ_def, ← sum_add_distrib]
    refine sum_congr rfl fun i _ => ?_
    cases h : dec (mem (slot t i)) with
    | none => simp [h, entryOcc]
    | some c =>
      simp only [Function.comp_apply, h, count_append, count_visited level c,
        count_singleton, beq_iff_eq, one, entryOcc]
      omega

/-- A traversal sees only the entries of the tables it passes through. -/
theorem visited_congr {dec' leaf' : W → Option Nat} {mem' : Nat → W} : ∀ {level t : Nat},
    (∀ (π : List (Fin n)) (c : Nat) (i : Fin n), π.length < level →
      tableAt dec mem t π = some c → dec' (mem' (slot c i)) = dec (mem (slot c i))) →
    (∀ (π : List (Fin n)) (c : Nat) (i : Fin n), π.length = level →
      tableAt dec mem t π = some c → leaf' (mem' (slot c i)) = leaf (mem (slot c i))) →
    visited n dec' leaf' mem' level t = visited n dec leaf mem level t
  | 0, t, _, hleaf => by
    refine congrArg List.flatten (map_congr_left fun i _ => ?_)
    rw [hleaf [] t i rfl rfl]
  | level + 1, t, hdec, hleaf => by
    refine congrArg List.flatten (map_congr_left fun i _ => ?_)
    rw [hdec [] t i (Nat.succ_pos _) rfl]
    cases hc : dec (mem (slot t i)) with
    | none => rfl
    | some c =>
      have step : ∀ π, tableAt dec mem t (i :: π) = tableAt dec mem c π := fun π => by
        rw [tableAt, hc, Option.bind_some]
      refine congrArg (· ++ [c]) (visited_congr (fun π d j hl hd => ?_) fun π d j hl hd => ?_)
      · exact hdec (i :: π) d j (by simpa using hl) (by rwa [step])
      · exact hleaf (i :: π) d j (by simpa using hl) (by rwa [step])

theorem exists_of_entryOcc_pos {below : Nat → Nat} {level t : Nat} {i : Fin n}
    (hbelow : ∀ c, 0 < below c → ∃ π : List (Fin n),
      π ≠ [] ∧ π.length ≤ level ∧ tableAt dec mem c π = some p)
    (h : 0 < entryOcc below p (dec (mem (slot t i)))) :
    ∃ π : List (Fin n), π.length ≤ level ∧ tableAt dec mem t (i :: π) = some p := by
  cases hc : dec (mem (slot t i)) with
  | none => simp [hc, entryOcc] at h
  | some c =>
    rw [hc, entryOcc] at h
    by_cases hp : c = p
    · exact ⟨[], by simp, by simp [tableAt, hc, hp]⟩
    · rw [one_not hp, Nat.add_zero] at h
      obtain ⟨π, -, hlen, hπ⟩ := hbelow c h
      exact ⟨π, hlen, by simp [tableAt, hc, hπ]⟩

/-- An occurrence is the end of a path. -/
theorem exists_of_occ_pos : ∀ {level t : Nat}, 0 < occ n dec mem p level t →
    ∃ π : List (Fin n), π ≠ [] ∧ π.length ≤ level ∧ tableAt dec mem t π = some p
  | 0, _, h => by simp [occ] at h
  | level + 1, t, h => by
    rw [occ, sum_pos_iff] at h
    obtain ⟨i, -, hi⟩ := h
    obtain ⟨π, hlen, hπ⟩ := exists_of_entryOcc_pos (fun c hc => exists_of_occ_pos hc) hi
    exact ⟨i :: π, by simp, by simpa using hlen, hπ⟩

/-- The end of a path is an occurrence. -/
theorem occ_pos : ∀ {level t : Nat} {π : List (Fin n)}, π ≠ [] → π.length ≤ level →
    tableAt dec mem t π = some p → 0 < occ n dec mem p level t
  | _, _, [], hne, _, _ => absurd rfl hne
  | 0, _, _ :: _, _, hl, _ => absurd hl (by simp)
  | level + 1, t, i :: π, _, hl, h => by
    rw [occ, sum_pos_iff]
    refine ⟨i, mem_univ i, ?_⟩
    cases hc : dec (mem (slot t i)) with
    | none => rw [tableAt, hc] at h; cases h
    | some c =>
      rw [tableAt, hc, Option.bind_some] at h
      rw [entryOcc]
      by_cases hπ : π = []
      · subst hπ
        rw [one_of (Option.some.inj h)]
        omega
      · exact Nat.add_pos_left (occ_pos hπ (by simpa using hl) h) _

/-- **In a tree a table occurs at most once.** -/
theorem occ_le_one : ∀ {level t : Nat},
    (∀ π π' : List (Fin n), π ≠ [] → π' ≠ [] → π.length ≤ level → π'.length ≤ level →
      tableAt dec mem t π = some p → tableAt dec mem t π' = some p → π = π') →
    occ n dec mem p level t ≤ 1
  | 0, _, _ => by simp [occ]
  | level + 1, t, h => by
    have unique : ∀ {i j : Fin n} {π π' : List (Fin n)}, π.length ≤ level → π'.length ≤ level →
        tableAt dec mem t (i :: π) = some p → tableAt dec mem t (j :: π') = some p →
        i = j ∧ π = π' := fun hl hl' h1 h2 =>
      List.cons.inj (h _ _ (by simp) (by simp) (by simpa using hl) (by simpa using hl') h1 h2)
    refine sum_le_one (fun i => ?_) (fun i j hi hj => ?_)
    · cases hc : dec (mem (slot t i)) with
      | none => simp [entryOcc]
      | some c =>
        have step : ∀ π, tableAt dec mem c π = some p →
            tableAt dec mem t (i :: π) = some p := fun π hπ => by simp [tableAt, hc, hπ]
        rw [entryOcc]
        by_cases hp : c = p
        · -- the table itself, so nothing below it
          have : occ n dec mem p level c = 0 := Nat.eq_zero_of_not_pos fun hpos => by
            obtain ⟨π, hne, hlen, hπ⟩ := exists_of_occ_pos hpos
            exact hne (unique hlen (Nat.zero_le _) (step π hπ)
              (step [] (by simp [tableAt, hp]))).2
          rw [this, one_of hp]
        · rw [one_not hp, Nat.add_zero]
          exact occ_le_one fun π π' _ _ hl hl' hπ hπ' =>
            (unique hl hl' (step π hπ) (step π' hπ')).2
    · obtain ⟨π, hl, hπ⟩ := exists_of_entryOcc_pos (fun c hc => exists_of_occ_pos hc) hi
      obtain ⟨π', hl', hπ'⟩ := exists_of_entryOcc_pos (fun c hc => exists_of_occ_pos hc) hj
      exact (unique hl hl' hπ hπ').1

end Support.Radix
