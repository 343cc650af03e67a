import Mathlib.Data.List.Basic
import Mathlib.Tactic.Cases

/-!
# Support — Memory in pages

A partial memory has a value at each address that is mapped.  Pieces of data are placed in it one
after the other: the pages that a piece touches are mapped anew, whatever they held is lost, and the
data of the piece is written.  So data that is in place stays there as long as no later piece
touches a page of it (`Places.holds`), and it is lost if a later piece only shares a page with it.
-/

namespace Support.Paged

open List

variable {β : Type} {pg a n x : Nat} {l : List β}

abbrev Mem (β : Type) := Nat → Option β

/-- The address `x` lies in a page of `[a, a + n)`. -/
def Touches (pg a n x : Nat) : Prop := ∃ y, a ≤ y ∧ y < a + n ∧ y / pg = x / pg

/-- The values `l` from `a` on, over those of `m`. -/
def overlay (m : Mem β) (a : Nat) (l : List β) : Mem β := fun x =>
  if a ≤ x ∧ x < a + l.length then l[x - a]? else m x

/-- The values from `a` on are `l`. -/
def Holds (m : Mem β) (a : Nat) (l : List β) : Prop := ∀ i < l.length, m (a + i) = l[i]?

/-- The pages of `[a, a + n)` are mapped anew. -/
structure Renews (pg : Nat) (m m' : Mem β) (a n : Nat) : Prop where
  mapped : ∀ x, Touches pg a n x → m' x ≠ none
  other : ∀ x, ¬ Touches pg a n x → m' x = m x

/-- Data to be placed: `size` is what is mapped for it. -/
structure Piece (β : Type) where
  addr : Nat
  size : Nat
  data : List β

/-- The data does not go past what is mapped. -/
def Piece.Fits (p : Piece β) : Prop := p.data.length ≤ p.size

/-- The pages of `p` are mapped anew, and its data is written. -/
def Place (pg : Nat) (m m' : Mem β) (p : Piece β) : Prop :=
  ∃ m₁, Renews pg m m₁ p.addr p.size ∧ m' = overlay m₁ p.addr p.data

/-- One piece after the other. -/
inductive Places (pg : Nat) : Mem β → List (Piece β) → Mem β → Prop
  | nil {m : Mem β} : Places pg m [] m
  | cons {m m₁ m₂ : Mem β} {p : Piece β} {ps : List (Piece β)} : Place pg m m₁ p →
      Places pg m₁ ps m₂ → Places pg m (p :: ps) m₂

variable {m m' m₁ m₂ : Mem β} {p : Piece β} {ps ps' : List (Piece β)}

/-! ### Writing -/

theorem overlay_of_lt (h : x < l.length) : overlay m a l (a + x) = l[x]? := by
  rw [overlay, if_pos ⟨Nat.le_add_right .., Nat.add_lt_add_left h a⟩, Nat.add_sub_cancel_left]

theorem holds_overlay : Holds (overlay m a l) a l := fun _ hi => overlay_of_lt hi

/-- The first of two parts. -/
theorem Holds.left {l₁ l₂ : List β} (h : Holds m a (l₁ ++ l₂)) : Holds m a l₁ := fun i hi => by
  rw [h i (by rw [length_append]; omega), getElem?_append_left hi]

/-- The second of two parts. -/
theorem Holds.right {l₁ l₂ : List β} (h : Holds m a (l₁ ++ l₂)) :
    Holds m (a + l₁.length) l₂ := fun i hi => by
  rw [Nat.add_assoc, h _ (by rw [length_append]; omega),
    getElem?_append_right (Nat.le_add_right ..), Nat.add_sub_cancel_left]

theorem overlay_of_not (h : ¬ (a ≤ x ∧ x < a + l.length)) : overlay m a l x = m x := if_neg h

@[simp] theorem overlay_nil : overlay m a [] = m := by
  funext x
  refine overlay_of_not ?_
  rw [length_nil]
  omega

/-- Writing in two parts. -/
theorem overlay_append (l₁ l₂ : List β) :
    overlay m a (l₁ ++ l₂) = overlay (overlay m a l₁) (a + l₁.length) l₂ := by
  funext x
  simp only [overlay, length_append]
  by_cases h2 : a + l₁.length ≤ x ∧ x < a + l₁.length + l₂.length
  · rw [if_pos (by omega), if_pos h2, getElem?_append_right (by omega)]
    congr 1
    omega
  · rw [if_neg h2]
    by_cases h1 : a ≤ x ∧ x < a + l₁.length
    · rw [if_pos (by omega), if_pos h1, getElem?_append_left (by omega)]
    · rw [if_neg (by omega), if_neg h1]

/-- What is mapped stays mapped. -/
theorem overlay_ne_none (h : m x ≠ none) : overlay m a l x ≠ none := by
  rw [overlay]
  split
  · rw [getElem?_eq_getElem (by omega)]
    exact Option.some_ne_none _
  · exact h

/-! ### Renewing -/

theorem touches_of_mem (h : a ≤ x ∧ x < a + n) : Touches pg a n x := ⟨x, h.1, h.2, rfl⟩

theorem not_touches_zero : ¬ Touches pg a 0 x := by
  rintro ⟨y, h1, h2, -⟩
  omega

theorem Touches.mono {a' n' : Nat} (h : Touches pg a n x) (ha : a' ≤ a) (hn : a + n ≤ a' + n') :
    Touches pg a' n' x := by
  obtain ⟨y, h1, h2, hy⟩ := h
  exact ⟨y, Nat.le_trans ha h1, Nat.lt_of_lt_of_le h2 hn, hy⟩

theorem Renews.refl : Renews pg m m a 0 :=
  ⟨fun _ h => absurd h not_touches_zero, fun _ _ => rfl⟩

theorem Renews.eq (h : Renews pg m m' a 0) : m' = m :=
  funext fun x => h.other x not_touches_zero

theorem Renews.ne_none (h : Renews pg m m' a n) (hx : m x ≠ none) : m' x ≠ none := by
  by_cases ht : Touches pg a n x
  · exact h.mapped x ht
  · rw [h.other x ht]
    exact hx

/-- A range within one page. -/
theorem touches_page_iff (hn : 0 < n) (h : a % pg + n ≤ pg) :
    Touches pg a n x ↔ x / pg = a / pg := by
  constructor
  · rintro ⟨y, h1, h2, hy⟩
    have hpg : 0 < pg := by omega
    rw [← hy, Nat.div_eq_iff hpg]
    have := Nat.div_add_mod a pg
    rw [Nat.mul_comm] at this
    omega
  · intro hx
    exact ⟨a, Nat.le_refl _, by omega, hx.symm⟩

theorem touches_add {n1 n2 : Nat} :
    Touches pg a (n1 + n2) x ↔ Touches pg a n1 x ∨ Touches pg (a + n1) n2 x := by
  constructor
  · rintro ⟨y, h1, h2, hy⟩
    rcases Nat.lt_or_ge y (a + n1) with h | h
    · exact .inl ⟨y, h1, h, hy⟩
    · exact .inr ⟨y, h, by omega, hy⟩
  · rintro (⟨y, h1, h2, hy⟩ | ⟨y, h1, h2, hy⟩)
    · exact ⟨y, h1, by omega, hy⟩
    · exact ⟨y, by omega, by omega, hy⟩

/-- A page is renewed with any of its bytes. -/
theorem Renews.page (h : Renews pg m m' a 1) (hn : 0 < n) (hpg : a % pg + n ≤ pg) :
    Renews pg m m' a n := by
  have hiff : ∀ x, Touches pg a n x ↔ Touches pg a 1 x := fun x => by
    rw [touches_page_iff hn hpg, touches_page_iff Nat.one_pos (by omega)]
  refine ⟨fun x hx => h.mapped x ((hiff x).mp hx), fun x hx => h.other x fun hc => hx ?_⟩
  exact (hiff x).mpr hc

theorem Renews.trans {n1 n2 : Nat} (h1 : Renews pg m m₁ a n1) (h2 : Renews pg m₁ m₂ (a + n1) n2) :
    Renews pg m m₂ a (n1 + n2) where
  mapped x hx := by
    rcases touches_add.mp hx with hx | hx
    · exact h2.ne_none (h1.mapped x hx)
    · exact h2.mapped x hx
  other x hx := by
    rw [touches_add, not_or] at hx
    rw [h2.other x hx.2, h1.other x hx.1]

/-! ### Placing -/

namespace Place

section

variable (h : Place pg m m' p)
include h

theorem holds : Holds m' p.addr p.data := by
  obtain ⟨m₁, -, rfl⟩ := h
  exact holds_overlay

/-- Pages that the piece does not touch are as before. -/
theorem other (hp : p.Fits) (hx : ¬ Touches pg p.addr p.size x) : m' x = m x := by
  obtain ⟨m₁, hr, rfl⟩ := h
  rw [overlay_of_not, hr.other x hx]
  rintro ⟨h1, h2⟩
  exact hx (touches_of_mem ⟨h1, Nat.lt_of_lt_of_le h2 (Nat.add_le_add_left hp _)⟩)

theorem mapped (hx : Touches pg p.addr p.size x) : m' x ≠ none := by
  obtain ⟨m₁, hr, rfl⟩ := h
  exact overlay_ne_none (hr.mapped x hx)

theorem ne_none (hx : m x ≠ none) : m' x ≠ none := by
  obtain ⟨m₁, hr, rfl⟩ := h
  exact overlay_ne_none (hr.ne_none hx)

end

end Place

namespace Places

theorem append (h1 : Places pg m ps m₁) (h2 : Places pg m₁ ps' m₂) :
    Places pg m (ps ++ ps') m₂ := by
  induction h1 with
  | nil => exact h2
  | cons h _ ih => exact .cons h (ih h2)

/-- A split of the pieces is one of the run. -/
theorem split (h : Places pg m (ps ++ ps') m₂) : ∃ m₁, Places pg m ps m₁ ∧ Places pg m₁ ps' m₂ := by
  induction ps generalizing m with
  | nil => exact ⟨m, .nil, h⟩
  | cons p ps ih =>
    cases h with
    | cons hp hps =>
      obtain ⟨m₁, h1, h2⟩ := ih hps
      exact ⟨m₁, .cons hp h1, h2⟩

theorem other (h : Places pg m ps m') (hfits : ∀ p ∈ ps, p.Fits)
    (hx : ∀ p ∈ ps, ¬ Touches pg p.addr p.size x) : m' x = m x := by
  induction h with
  | nil => rfl
  | cons hp _ ih =>
    rw [ih (fun p h => hfits p (.tail _ h)) fun p h => hx p (.tail _ h),
      hp.other (hfits _ (.head _)) (hx _ (.head _))]

theorem ne_none (h : Places pg m ps m') (hx : m x ≠ none) : m' x ≠ none := by
  induction h with
  | nil => exact hx
  | cons hp _ ih => exact ih (hp.ne_none hx)

/-- **Data stays where it is placed**, if no later piece touches its pages. -/
theorem holds (h : Places pg m (ps ++ p :: ps') m') (hfits : ∀ q ∈ ps', q.Fits)
    (hoff : ∀ q ∈ ps', ∀ i < p.data.length, ¬ Touches pg q.addr q.size (p.addr + i)) :
    Holds m' p.addr p.data := by
  obtain ⟨m₁, -, h1⟩ := h.split
  cases h1 with
  | cons hp hps =>
    intro i hi
    rw [hps.other hfits fun q hq => hoff q hq i hi]
    exact hp.holds i hi

/-- The pages of a piece are mapped in the end. -/
theorem mapped (h : Places pg m ps m') (hp : p ∈ ps) (hx : Touches pg p.addr p.size x) :
    m' x ≠ none := by
  induction h with
  | nil => cases hp
  | cons hq hqs ih =>
    rcases List.mem_cons.mp hp with rfl | hp
    · exact hqs.ne_none (hq.mapped hx)
    · exact ih hp

end Places

end Support.Paged
