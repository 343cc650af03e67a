import Mathlib.Data.List.FinRange
import Mathlib.Data.List.Nodup
import Mathlib.Logic.Function.Basic

/-!
# Support — Chains

A list threaded through a link function: `Chain link h L` says that following `link` from the
head `h` visits the cells of `L` in order and then stops.  `link` is a function, so a head has
at most one chain (`Chain.functional`), and a chain that stops visits no cell twice
(`Chain.nodup`): a finite chain is acyclic.  A chain survives any change of the links off it
(`Chain.congr`), and takes a cell that is not on it at its head (`Chain.push`) or at its end
(`Chain.snoc`).
-/

namespace Support

open Function List

variable {α : Type}

/-- Following `link` from `h` visits the cells of the list in order and stops. -/
def Chain (link : α → Option α) : Option α → List α → Prop
  | h, [] => h = none
  | h, p :: L => h = some p ∧ Chain link (link p) L

/-- Following `link` from `h` comes to the cell. -/
inductive Reaches (link : α → Option α) : Option α → α → Prop
  | here (p : α) : Reaches link (some p) p
  | next {q p : α} : Reaches link (link q) p → Reaches link (some q) p

/-- Following `link` from `h` visits at least so many cells. -/
def AtLeast (link : α → Option α) : Option α → Nat → Prop
  | _, 0 => True
  | none, _ + 1 => False
  | some p, n + 1 => AtLeast link (link p) n

instance AtLeast.decidable (link : α → Option α) :
    ∀ (h : Option α) (n : Nat), Decidable (AtLeast link h n)
  | _, 0 => inferInstanceAs (Decidable True)
  | none, _ + 1 => inferInstanceAs (Decidable False)
  | some p, n + 1 => AtLeast.decidable link (link p) n

namespace Chain

variable {link link' : α → Option α} {h : Option α} {p : α} {L L' : List α}

theorem atLeast_iff : ∀ {h : Option α} {L : List α} {n : Nat}, Chain link h L →
    (AtLeast link h n ↔ n ≤ L.length)
  | _, _, 0, _ => iff_of_true trivial (Nat.zero_le _)
  | none, [], n + 1, _ => iff_of_false nofun (Nat.not_succ_le_zero n)
  | some p, q :: L, n + 1, hL => by
    obtain rfl := Option.some.inj hL.1
    rw [length_cons, Nat.add_le_add_iff_right]
    exact atLeast_iff hL.2
  | none, _ :: _, _, hL => by cases hL.1
  | some _, [], _, hL => by cases hL

/-- The links determine the list. -/
theorem functional : ∀ {h : Option α} {L L' : List α},
    Chain link h L → Chain link h L' → L = L'
  | _, [], [], _, _ => rfl
  | _, [], _ :: _, hL, hL' => by rw [Chain] at hL; simp [Chain, hL] at hL'
  | _, _ :: _, [], hL, hL' => by rw [Chain] at hL'; simp [Chain, hL'] at hL
  | _, p :: L, q :: L', hL, hL' => by
    obtain rfl : p = q := Option.some.inj (hL.1.symm.trans hL'.1)
    rw [functional hL.2 hL'.2]

/-- The cells of a chain are those that following it comes to. -/
theorem mem_of_reaches : ∀ {h : Option α} {L : List α}, Chain link h L → Reaches link h p → p ∈ L
  | _, [], hL, hp => by
    obtain rfl : _ = none := hL
    cases hp
  | _, q :: L, hL, hp => by
    obtain ⟨rfl, hL⟩ := hL
    cases hp with
    | here => exact mem_cons_self ..
    | next hp => exact mem_cons_of_mem _ (mem_of_reaches hL hp)

theorem reaches_of_mem : ∀ {h : Option α} {L : List α}, Chain link h L → p ∈ L → Reaches link h p
  | _, q :: L, hL, hp => by
    obtain ⟨rfl, hL⟩ := hL
    rcases List.mem_cons.mp hp with rfl | hp
    · exact .here _
    · exact .next (reaches_of_mem hL hp)

/-- The rest of a chain after one of its cells. -/
theorem tail_of_mem : ∀ {h : Option α} {L : List α}, Chain link h L → p ∈ L →
    ∃ L1 L2, L = L1 ++ p :: L2 ∧ Chain link (link p) L2
  | _, q :: L, hL, hp => by
    rcases List.mem_cons.mp hp with rfl | hp
    · exact ⟨[], L, rfl, hL.2⟩
    · obtain ⟨L1, L2, rfl, h2⟩ := tail_of_mem hL.2 hp
      exact ⟨q :: L1, L2, rfl, h2⟩

/-- A chain that stops visits no cell twice. -/
theorem nodup : ∀ {h : Option α} {L : List α}, Chain link h L → L.Nodup
  | _, [], _ => nodup_nil
  | _, p :: L, hL => by
    refine List.nodup_cons.mpr ⟨fun hp => ?_, nodup hL.2⟩
    -- a second visit of `p` would make the rest of the chain a proper suffix of itself
    obtain ⟨L1, L2, e, h2⟩ := tail_of_mem hL.2 hp
    have hlen := congrArg List.length (functional hL.2 h2)
    rw [e] at hlen
    simp at hlen
    omega

theorem congr : ∀ {h : Option α} {L : List α}, (∀ p ∈ L, link' p = link p) →
    Chain link h L → Chain link' h L
  | _, [], _, hL => hL
  | _, p :: L, he, hL => by
    refine ⟨hL.1, ?_⟩
    rw [he p (mem_cons_self ..)]
    exact congr (fun q hq => he q (mem_cons_of_mem _ hq)) hL.2

/-- Cells linked each to the next one are visited in order.  Stated with an equation, so that the
list of all cells is never unfolded. -/
theorem finRange {n : Nat} (link : Fin n → Option (Fin n))
    (hlink : ∀ i, link i = if h : i.val + 1 < n then some ⟨i + 1, h⟩ else none) (hn : 0 < n) :
    ∃ L, Chain link (some ⟨0, hn⟩) L ∧ L = List.finRange n := by
  -- from cell `i` on, by induction on the number of cells left
  have from_cell : ∀ m i, i + m = n →
      Chain link (if h : i < n then some ⟨i, h⟩ else none) ((List.finRange n).drop i) := by
    intro m
    induction m with
    | zero =>
      intro i hi
      rw [dif_neg (by omega), drop_of_length_le (by rw [length_finRange]; omega)]
      rfl
    | succ m ih =>
      intro i hi
      have hlt : i < n := by omega
      rw [dif_pos hlt, drop_eq_getElem_cons (by rwa [length_finRange]), getElem_finRange]
      refine ⟨rfl, ?_⟩
      rw [hlink]
      exact ih (i + 1) (by omega)
  have h := from_cell n 0 (Nat.zero_add n)
  rw [dif_pos hn] at h
  exact ⟨_, h, drop_zero⟩

variable [DecidableEq α]

theorem push (hL : Chain link h L) (hp : p ∉ L) : Chain (update link p h) (some p) (p :: L) := by
  refine ⟨rfl, ?_⟩
  rw [update_self]
  refine congr (fun q hq => update_of_ne ?_ _ _) hL
  rintro rfl
  exact hp hq

/-- Unlinking the head leaves the rest. -/
theorem pop (hL : Chain link h (p :: L)) : Chain (update link p none) (link p) L := by
  have hp : p ∉ L := (List.nodup_cons.mp hL.nodup).1
  refine congr (fun q hq => update_of_ne ?_ _ _) hL.2
  rintro rfl
  exact hp hq

/-- A change of a cell's own link does not matter before the cell is reached. -/
theorem reaches_update {x : Option α} (hp : Reaches link h p) : Reaches (update link p x) h p := by
  induction hp with
  | here q => exact .here q
  | @next q p _ ih =>
    by_cases e : q = p
    · subst e
      exact .here q
    · refine .next ?_
      rwa [update_of_ne e]

/-- A cell of a chain, put at its head again, closes a cycle. -/
theorem not_relink (hL : Chain link h L) (hp : p ∈ L) : ¬ Chain (update link p h) (some p) L' := by
  intro hL'
  cases L' with
  | nil => cases hL'
  | cons q L' =>
    obtain ⟨hq, htl⟩ := hL'
    obtain rfl := Option.some.inj hq
    have hcons : Chain (update link p h) (some p) (p :: L') := ⟨rfl, htl⟩
    rw [update_self] at htl
    exact (List.nodup_cons.mp hcons.nodup).1
      (mem_of_reaches htl (reaches_update (reaches_of_mem hL hp)))

/-- A new last cell. -/
theorem snoc {l : α} : ∀ {h : Option α} {L : List α}, Chain link h L → p ∉ L →
    L.getLast? = some l → Chain (update (update link p none) l (some p)) h (L ++ [p])
  | _, [], _, _, hl => by cases hl
  | h, [q], hL, hp, hl => by
    obtain rfl : q = l := by simpa using hl
    have hne : p ≠ q := by simpa using hp
    refine ⟨hL.1, ?_⟩
    rw [update_self]
    refine ⟨rfl, ?_⟩
    rw [update_of_ne hne, update_self]
    rfl
  | h, q :: q' :: L, hL, hp, hl => by
    have hq : q ≠ l := by
      rintro rfl
      exact (List.nodup_cons.mp hL.nodup).1 (mem_of_getLast? hl)
    have hpq : q ≠ p := by rintro rfl; exact hp (mem_cons_self ..)
    refine ⟨hL.1, ?_⟩
    rw [update_of_ne hq, update_of_ne hpq]
    exact snoc hL.2 (fun hc => hp (mem_cons_of_mem _ hc))
      (by rwa [getLast?_cons_cons] at hl)

end Chain

end Support
