import Mathlib.Data.Finset.Basic
import Mathlib.Data.List.Basic
import Mathlib.Logic.Function.Basic

/-!
# Support — Radix forests

Radix trees laid out in a flat memory.  A *table* is a block of `n` consecutive words, named by
its block number; the word of entry `i` of table `t` is `slot t i`.  `dec` reads an interior
entry: the table it points to, or nothing when the entry is absent.  `tableAt dec mem t π` is
the table reached from `t` along the path `π`.

A `Layout` names a finite set of roots, the entries of each root that belong to the forest, and
the depth below which entries are no longer followed.  `Layout.Tree` says that no table is
reached along two paths; then a write to one entry is seen by the paths through that entry and
by no others:

* `tableAt_congr`: a path sees only the entries it passes through;
* `Layout.Tree.tableAt_leaf`: a write to an entry at full depth moves no table;
* `Layout.Tree.tableAt_grow`: linking a cleared block into an absent entry adds one table and
  nothing else, and the forest stays a forest (`Layout.Tree.grow`);
* `Layout.Tree.tableAt_cut`: emptying an interior entry removes what is below it and nothing else.
-/

namespace Support.Radix

open Function List

variable {W : Type} {n : Nat}

/-- The word of entry `i` of table `t`. -/
def slot (t : Nat) (i : Fin n) : Nat := t * n + i

theorem slot_div (t : Nat) (i : Fin n) : slot t i / n = t := by
  have hn : 0 < n := Nat.lt_of_le_of_lt (Nat.zero_le _) i.isLt
  rw [slot, Nat.mul_comm, Nat.mul_add_div hn, Nat.div_eq_of_lt i.isLt, Nat.add_zero]

theorem slot_inj {t t' : Nat} {i i' : Fin n} : slot t i = slot t' i' ↔ t = t' ∧ i = i' := by
  constructor
  · intro h
    have ht : t = t' := by rw [← slot_div t i, h, slot_div]
    subst ht
    exact ⟨rfl, Fin.ext (Nat.add_left_cancel h)⟩
  · rintro ⟨rfl, rfl⟩
    rfl

theorem slot_lt {t m : Nat} (h : t < m) (i : Fin n) : slot t i < m * n := by
  calc t * n + i < t * n + n := Nat.add_lt_add_left i.isLt _
    _ = (t + 1) * n := by rw [Nat.add_mul, Nat.one_mul]
    _ ≤ m * n := Nat.mul_le_mul_right n h

/-- `mem` with every word of block `p` cleared. -/
def clear [Zero W] (n : Nat) (mem : Nat → W) (p : Nat) : Nat → W :=
  fun a => if a / n = p then 0 else mem a

theorem clear_slot_self [Zero W] (mem : Nat → W) (p : Nat) (i : Fin n) :
    clear n mem p (slot p i) = 0 := by
  simp [clear, slot_div]

theorem clear_slot_of_ne [Zero W] {mem : Nat → W} {p t : Nat} (h : t ≠ p) (i : Fin n) :
    clear n mem p (slot t i) = mem (slot t i) := by
  simp [clear, slot_div, h]

/-! ### Paths -/

/-- The table reached from `t` along a path. -/
def tableAt (dec : W → Option Nat) (mem : Nat → W) : Nat → List (Fin n) → Option Nat
  | t, [] => some t
  | t, i :: π => (dec (mem (slot t i))).bind fun c => tableAt dec mem c π

/-- How many tables are missing along a path from `t`. -/
def missing (dec : W → Option Nat) (mem : Nat → W) : Nat → List (Fin n) → Nat
  | _, [] => 0
  | t, i :: π =>
    match dec (mem (slot t i)) with
    | none => π.length + 1
    | some c => missing dec mem c π

variable {dec : W → Option Nat} {mem mem' : Nat → W}

theorem tableAt_append : ∀ (t : Nat) (π σ : List (Fin n)),
    tableAt dec mem t (π ++ σ) = (tableAt dec mem t π).bind fun u => tableAt dec mem u σ
  | _, [], _ => rfl
  | t, i :: π, σ => by
    rw [cons_append, tableAt, tableAt, Option.bind_assoc]
    exact congrArg _ (funext fun c => tableAt_append c π σ)

theorem tableAt_snoc (t : Nat) (π : List (Fin n)) (i : Fin n) :
    tableAt dec mem t (π ++ [i]) = (tableAt dec mem t π).bind fun u => dec (mem (slot u i)) := by
  rw [tableAt_append]
  refine congrArg _ (funext fun u => ?_)
  simp [tableAt]

theorem tableAt_snoc_of {t u : Nat} {π : List (Fin n)} (h : tableAt dec mem t π = some u)
    (i : Fin n) : tableAt dec mem t (π ++ [i]) = dec (mem (slot u i)) := by
  rw [tableAt_snoc, h, Option.bind_some]

/-- A path sees only the entries it passes through. -/
theorem tableAt_congr {dec' : W → Option Nat} : ∀ {t : Nat} {π : List (Fin n)},
    (∀ ρ i σ u, π = ρ ++ i :: σ → tableAt dec mem t ρ = some u →
      dec' (mem' (slot u i)) = dec (mem (slot u i))) →
    tableAt dec' mem' t π = tableAt dec mem t π
  | _, [], _ => rfl
  | t, i :: π, h => by
    rw [tableAt, tableAt, h [] i π t rfl rfl]
    cases hc : dec (mem (slot t i)) with
    | none => rfl
    | some c =>
      refine tableAt_congr fun ρ j σ u e hu => h (i :: ρ) j σ u (by rw [e]; rfl) ?_
      rw [tableAt, hc]
      exact hu

/-- Entries that read the same give the same tables. -/
theorem tableAt_dec_congr (h : ∀ a, dec (mem' a) = dec (mem a)) (t : Nat) (π : List (Fin n)) :
    tableAt dec mem' t π = tableAt dec mem t π :=
  tableAt_congr fun _ _ _ _ _ _ => h _

theorem missing_eq_zero : ∀ {t u : Nat} {π : List (Fin n)},
    tableAt dec mem t π = some u → missing dec mem t π = 0
  | _, _, [], _ => rfl
  | t, u, i :: π, h => by
    rw [tableAt] at h
    rw [missing]
    cases hc : dec (mem (slot t i)) with
    | none => rw [hc] at h; cases h
    | some c => rw [hc] at h; exact missing_eq_zero h

theorem missing_le_length : ∀ (t : Nat) (π : List (Fin n)), missing dec mem t π ≤ π.length
  | _, [] => Nat.le_refl 0
  | t, i :: π => by
    rw [missing]
    cases dec (mem (slot t i)) with
    | none => exact Nat.le_refl _
    | some c => exact Nat.le_succ_of_le (missing_le_length c π)

theorem missing_clear {p : Nat} (h0 : ∀ i : Fin n, dec (mem (slot p i)) = none) :
    ∀ π : List (Fin n), missing dec mem p π = π.length
  | [] => rfl
  | i :: π => by rw [missing, h0 i]; rfl

/-- A path that leads somewhere does so from the beginning. -/
theorem tableAt_prefix {t u : Nat} {π ρ : List (Fin n)} (h : tableAt dec mem t π = some u)
    (hρ : ρ <+: π) : ∃ c, tableAt dec mem t ρ = some c := by
  obtain ⟨σ, rfl⟩ := hρ
  rw [tableAt_append] at h
  obtain ⟨c, hc, -⟩ := Option.bind_eq_some_iff.mp h
  exact ⟨c, hc⟩

/-- The beginnings of a path that lead nowhere are as many as there are tables missing. -/
theorem missing_prefixes : ∀ (t : Nat) (π : List (Fin n)), ∃ ks : List (List (Fin n)),
    ks.Nodup ∧ ks.length = missing dec mem t π ∧
      ∀ ρ ∈ ks, ρ <+: π ∧ tableAt dec mem t ρ = none
  | _, [] => ⟨[], nodup_nil, rfl, nofun⟩
  | t, i :: π => by
    have cons_inj : Function.Injective (i :: ·) := fun _ _ h => (List.cons.inj h).2
    rw [missing]
    cases hc : dec (mem (slot t i)) with
    | none =>
      refine ⟨(List.range (π.length + 1)).map fun k => i :: π.take k, ?_, by simp, ?_⟩
      · refine List.Nodup.map_on (fun a ha b hb h => ?_) nodup_range
        have := congrArg List.length (cons_inj h)
        rw [mem_range] at ha hb
        rw [length_take, length_take] at this
        omega
      · intro ρ hρ
        obtain ⟨k, -, rfl⟩ := List.mem_map.mp hρ
        exact ⟨(prefix_cons_inj i).mpr (List.take_prefix k π), by rw [tableAt, hc]; rfl⟩
    | some c =>
      obtain ⟨ks, hnd, hlen, hks⟩ := missing_prefixes c π
      refine ⟨ks.map (i :: ·), hnd.map cons_inj, by rw [length_map, hlen], fun ρ hρ => ?_⟩
      obtain ⟨ρ', hρ', rfl⟩ := List.mem_map.mp hρ
      obtain ⟨h1, h2⟩ := hks ρ' hρ'
      exact ⟨(prefix_cons_inj i).mpr h1, by rw [tableAt, hc]; exact h2⟩

theorem tableAt_clear {p : Nat} (h0 : ∀ i : Fin n, dec (mem (slot p i)) = none) {π : List (Fin n)}
    {t : Nat} (h : tableAt dec mem p π = some t) : π = [] ∧ t = p := by
  cases π with
  | nil => exact ⟨rfl, (Option.some.inj h).symm⟩
  | cons i π => rw [tableAt, h0 i] at h; cases h

/-! ### Layouts -/

/-- Which tables a forest has: its roots, the entries of each root that belong to it, and the
number of levels of interior entries. -/
structure Layout (n : Nat) where
  depth : Nat
  roots : Finset Nat
  dom : Nat → Fin n → Prop

namespace Layout

variable {F G : Layout n} {r r' t p : Nat} {π σ : List (Fin n)} {i : Fin n}

/-- `π` is a path of the forest from the root `r`. -/
def Node (F : Layout n) (r : Nat) (π : List (Fin n)) : Prop :=
  r ∈ F.roots ∧ π.length ≤ F.depth ∧ ∀ i, π.head? = some i → F.dom r i

/-- The forest's table at the end of `π` is `t`. -/
def Table (F : Layout n) (dec : W → Option Nat) (mem : Nat → W) (r : Nat) (π : List (Fin n))
    (t : Nat) : Prop :=
  F.Node r π ∧ tableAt dec mem r π = some t

def IsTable (F : Layout n) (dec : W → Option Nat) (mem : Nat → W) (t : Nat) : Prop :=
  ∃ r π, F.Table dec mem r π t

/-- No table is reached along two paths. -/
def Tree (F : Layout n) (dec : W → Option Nat) (mem : Nat → W) : Prop :=
  ∀ r π r' π' t, F.Table dec mem r π t → F.Table dec mem r' π' t → r = r' ∧ π = π'

theorem Node.of_append (h : F.Node r (π ++ σ)) : F.Node r π := by
  refine ⟨h.1, Nat.le_trans (by simp) h.2.1, fun i hi => h.2.2 i ?_⟩
  cases π with
  | nil => cases hi
  | cons j π => exact hi

theorem Node.root (h : F.Node r π) : F.Node r [] :=
  ⟨h.1, Nat.zero_le _, fun _ hi => by cases hi⟩

theorem node_nil (h : r ∈ F.roots) : F.Node r [] :=
  ⟨h, Nat.zero_le _, fun _ hi => by cases hi⟩

theorem Table.isTable (h : F.Table dec mem r π t) : F.IsTable dec mem t := ⟨r, π, h⟩

theorem isTable_root (h : r ∈ F.roots) : F.IsTable dec mem r := ⟨r, [], node_nil h, rfl⟩

/-- An entry of the layout is not an entry of a root outside of it. -/
theorem Tree.outer_ne (hT : F.Tree dec mem) (ht : F.Table dec mem r π t) (hn : F.Node r (π ++ [i]))
    (hr' : r' ∈ F.roots) {j : Fin n} (hj : ¬ F.dom r' j) : slot r' j ≠ slot t i := by
  intro hs
  obtain ⟨rfl, rfl⟩ := slot_inj.mp hs
  obtain ⟨rfl, rfl⟩ := hT _ _ _ _ _ ⟨node_nil hr', rfl⟩ ht
  exact hj (hn.2.2 j rfl)

/-- Memories that agree on the tables of a forest have the same tables. -/
theorem tableAt_agree (h : ∀ t, F.IsTable dec mem t → ∀ i : Fin n, mem' (slot t i) = mem (slot t i))
    (hn : F.Node r π) : tableAt dec mem' r π = tableAt dec mem r π := by
  refine tableAt_congr fun ρ i σ u e hu => ?_
  subst e
  rw [h u ⟨r, ρ, hn.of_append, hu⟩ i]

theorem isTable_congr (h : ∀ r π, F.Node r π → tableAt dec mem' r π = tableAt dec mem r π) :
    F.IsTable dec mem' t ↔ F.IsTable dec mem t := by
  constructor
  · rintro ⟨r, π, hn, ht⟩
    exact ⟨r, π, hn, (h r π hn).symm.trans ht⟩
  · rintro ⟨r, π, hn, ht⟩
    exact ⟨r, π, hn, (h r π hn).trans ht⟩

theorem Tree.congr (hT : F.Tree dec mem)
    (h : ∀ r π, F.Node r π → tableAt dec mem' r π = tableAt dec mem r π) : F.Tree dec mem' :=
  fun r π r' π' t h1 h2 => hT r π r' π' t ⟨h1.1, (h r π h1.1).symm.trans h1.2⟩
    ⟨h2.1, (h r' π' h2.1).symm.trans h2.2⟩

section

variable (hT : F.Tree dec mem) (ht : F.Table dec mem r π t)
include hT ht

/-- A write to an entry at full depth moves no table. -/
theorem Tree.tableAt_leaf (hlen : π.length = F.depth) (i : Fin n) (w : W) {r' : Nat}
    {π' : List (Fin n)} (hn : F.Node r' π') :
    tableAt dec (update mem (slot t i) w) r' π' = tableAt dec mem r' π' := by
  refine tableAt_congr fun ρ j σ u e hu => ?_
  subst e
  rw [update_of_ne]
  intro hs
  -- the entry would be read at a path shorter than `π`
  obtain ⟨rfl, rfl⟩ := slot_inj.mp hs
  obtain ⟨-, rfl⟩ := hT _ _ _ _ _ ⟨hn.of_append, hu⟩ ht
  have := hn.2.1
  rw [length_append, length_cons] at this
  omega

/-- Emptying an interior entry removes the tables below it and no others. -/
theorem Tree.tableAt_cut {e : W} (he : dec e = none) {r' : Nat} {π' : List (Fin n)}
    (hn : F.Node r' π') :
    tableAt dec (update mem (slot t i) e) r' π' =
      if r' = r ∧ π ++ [i] <+: π' then none else tableAt dec mem r' π' := by
  -- a path that does not pass through the entry sees no change
  have off : ∀ {r' : Nat} {π' : List (Fin n)}, F.Node r' π' → ¬ (r' = r ∧ π ++ [i] <+: π') →
      tableAt dec (update mem (slot t i) e) r' π' = tableAt dec mem r' π' := by
    intro r' π' hn hoff
    refine tableAt_congr fun ρ j σ u e' hu => ?_
    subst e'
    rw [update_of_ne]
    intro hs
    obtain ⟨rfl, rfl⟩ := slot_inj.mp hs
    obtain ⟨rfl, rfl⟩ := hT _ _ _ _ _ ⟨hn.of_append, hu⟩ ht
    exact hoff ⟨rfl, σ, by simp⟩
  split
  · rename_i hext
    obtain ⟨rfl, σ, rfl⟩ := hext
    have hshort : ¬ π ++ [i] <+: π := fun h => by
      have hlen := h.length_le
      rw [length_append] at hlen
      exact Nat.not_succ_le_self _ hlen
    have hat : tableAt dec (update mem (slot t i) e) r' π = some t := by
      rw [off ht.1 fun h => hshort h.2, ht.2]
    rw [tableAt_append, tableAt_snoc, hat, Option.bind_some, update_self, he, Option.bind_none]
  · exact off hn ‹_›

theorem Tree.cut {e : W} (he : dec e = none) : F.Tree dec (update mem (slot t i) e) := by
  intro r1 π1 r2 π2 u h1 h2
  have e1 := h1.2
  have e2 := h2.2
  rw [hT.tableAt_cut ht he h1.1] at e1
  rw [hT.tableAt_cut ht he h2.1] at e2
  split at e1
  · cases e1
  split at e2
  · cases e2
  exact hT _ _ _ _ _ ⟨h1.1, e1⟩ ⟨h2.1, e2⟩

end

section grow

variable [Zero W] {e : W}

section

variable (hT : F.Tree dec mem) (h0 : dec 0 = none) (ht : F.Table dec mem r π t)
  (habs : dec (mem (slot t i)) = none) (hp : ¬ F.IsTable dec mem p) (he : dec e = some p)
include hT h0 ht habs hp he

/-- Linking the cleared block `p` into an absent entry adds one table and nothing else. -/
theorem Tree.tableAt_grow {r' : Nat} {π' : List (Fin n)} (hn : F.Node r' π') :
    tableAt dec (update (clear n mem p) (slot t i) e) r' π' =
      if r' = r ∧ π' = π ++ [i] then some p else tableAt dec mem r' π' := by
  have hpt : t ≠ p := by rintro rfl; exact hp ht.isTable
  -- a path that does not pass through the entry sees no change
  have off : ∀ {r' : Nat} {π' : List (Fin n)}, F.Node r' π' →
      (∀ σ, ¬ (r' = r ∧ π' = π ++ i :: σ)) →
      tableAt dec (update (clear n mem p) (slot t i) e) r' π' =
        tableAt dec mem r' π' := by
    intro r' π' hn hoff
    refine tableAt_congr fun ρ j σ u e' hu => ?_
    subst e'
    have hu' : F.Table dec mem r' ρ u := ⟨hn.of_append, hu⟩
    have hup : u ≠ p := by rintro rfl; exact hp hu'.isTable
    rw [update_of_ne, clear_slot_of_ne hup]
    intro hs
    obtain ⟨rfl, rfl⟩ := slot_inj.mp hs
    obtain ⟨rfl, rfl⟩ := hT _ _ _ _ _ hu' ht
    exact hoff σ ⟨rfl, rfl⟩
  have hat : tableAt dec (update (clear n mem p) (slot t i) e) r π = some t := by
    rw [off ht.1 (fun σ h => by simpa using congrArg List.length h.2), ht.2]
  by_cases hext : ∃ σ, r' = r ∧ π' = π ++ i :: σ
  · obtain ⟨σ, rfl, rfl⟩ := hext
    rw [tableAt_append, tableAt_append, hat, ht.2]
    cases σ with
    | nil => simp [tableAt, he]
    | cons j σ =>
      have hne : slot p j ≠ slot t i := fun h => hpt (slot_inj.mp h).1.symm
      simp [tableAt, he, habs, update_of_ne hne, clear_slot_self, h0]
  · rw [off hn (fun σ h => hext ⟨σ, h⟩), if_neg]
    rintro ⟨rfl, rfl⟩
    exact hext ⟨[], rfl, rfl⟩

theorem Tree.grow : F.Tree dec (update (clear n mem p) (slot t i) e) := by
  intro r1 π1 r2 π2 u h1 h2
  have e1 := h1.2
  have e2 := h2.2
  rw [hT.tableAt_grow h0 ht habs hp he h1.1] at e1
  rw [hT.tableAt_grow h0 ht habs hp he h2.1] at e2
  split at e1 <;> split at e2
  · rename_i c1 c2
    exact ⟨c1.1.trans c2.1.symm, c1.2.trans c2.2.symm⟩
  · obtain rfl := Option.some.inj e1
    exact absurd ⟨r2, π2, h2.1, e2⟩ hp
  · obtain rfl := Option.some.inj e2
    exact absurd ⟨r1, π1, h1.1, e1⟩ hp
  · exact hT _ _ _ _ _ ⟨h1.1, e1⟩ ⟨h2.1, e2⟩

end

end grow

end Layout

end Support.Radix
