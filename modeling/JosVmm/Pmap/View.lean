import JosVmm.Pmap.Upper

/-!
# Page maps — views

The abstract map of a root: what the last-level entry of each page of addresses holds.  A
`Reading` says, for each root, what a last-level entry stands for; `view` looks it up.

* `Grown.view`: a growth changes no view;
* `Wf.view_setLeaf`: a last-level store changes one page of one view;
* `Wf.view_withMem`: a store off the tables changes no view.
-/

namespace JosVmm
open Support Support.Radix Function

/-- What a last-level entry stands for, by root; a zero entry stands for nothing. -/
structure Reading (β : Type) where
  read : Nat → Word → Option β
  zero : ∀ r, read r 0 = none

/-- Host tables: an entry is present when `PTE_P` is set, and names a page. -/
def hostReading : Reading Nat := ⟨fun _ => dec, fun _ => dec_zero⟩

variable {β : Type} {R : Reading β} {F : Layout 512} {s s' : Pmap} {L L' new : List Nat}
  {r u : Nat} {b : β} {v : Vpn} {w : Word}

noncomputable section

open Classical in
/-- The abstract map of the root `r`. -/
def view (R : Reading β) (F : Layout 512) (s : Pmap) (r : Nat) (v : Vpn) : Option β :=
  if F.dom r v.1 then (tab s r v.path).bind fun u => R.read r (s.mem (slot u v.last)) else none

/-- The paths of a root's own entries. -/
theorem node_path (h : Wf F s L) (hr : r ∈ F.roots) (hd : F.dom r v.1) : F.Node r v.path := by
  refine ⟨hr, ?_, fun i hi => ?_⟩
  · rw [h.depth, Vpn.path_length]
  · rw [Vpn.path, List.head?_cons, Option.some.injEq] at hi
    exact hi ▸ hd

theorem node_dom (hn : F.Node r v.path) : F.dom r v.1 := hn.2.2 v.1 rfl

theorem view_of_tab (hn : F.Node r v.path) (ht : tab s r v.path = some u) :
    view R F s r v = R.read r (s.mem (slot u v.last)) := by
  rw [view, if_pos (node_dom hn), ht, Option.bind_some]

theorem view_of_none (ht : tab s r v.path = none) : view R F s r v = none := by
  rw [view, ht, Option.bind_none]
  split <;> rfl

/-- An entry that names `p` is found in a table. -/
theorem exists_tab_of_view (h : view R F s r v = some b) :
    F.dom r v.1 ∧ ∃ u, tab s r v.path = some u ∧ R.read r (s.mem (slot u v.last)) = some b := by
  rw [view] at h
  split at h
  · exact ⟨‹_›, Option.bind_eq_some_iff.mp h⟩
  · cases h

/-- States with the same tables and the same last-level entries have the same view. -/
theorem view_congr (htab : tab s' r v.path = tab s r v.path)
    (hmem : ∀ u, tab s r v.path = some u → s'.mem (slot u v.last) = s.mem (slot u v.last)) :
    view R F s' r v = view R F s r v := by
  unfold view
  rw [htab]
  cases ht : tab s r v.path with
  | none => rfl
  | some u => rw [Option.bind_some, Option.bind_some, hmem u ht]

/-! ### Views under each change -/

theorem Grown.view (g : Grown F s s' new L') (h : Wf F s L) (hr : r ∈ F.roots) :
    view R F s' r = view R F s r := by
  funext v
  by_cases hd : F.dom r v.1
  · have hn := node_path h hr hd
    cases ht : tab s r v.path with
    | some u =>
      rw [view_of_tab hn ht, view_of_tab hn (g.old r _ u hn ht), g.leaf_old r _ u _ hn rfl ht]
    | none =>
      rw [view_of_none ht]
      cases ht' : tab s' r v.path with
      | none => exact view_of_none ht'
      | some u => rw [view_of_tab hn ht', g.leaf_new r _ u _ hn rfl ht ht', R.zero]
  · rw [JosVmm.view, JosVmm.view, if_neg hd, if_neg hd]

section

variable (h : Wf F s L) (hn : F.Node r v.path) (ht : tab s r v.path = some u)
include h hn ht

/-- A last-level store changes one page of one root's view. -/
theorem Wf.view_setLeaf (w : Word) : view R F (s.setWord (slot u v.last) w) r =
      update (view R F s r) v (R.read r w) := by
  funext x
  have htab : tab (s.setWord (slot u v.last) w) r v.path = some u :=
    (h.tab_setLeaf hn rfl ht _ w hn).trans ht
  by_cases hx : x = v
  · subst hx
    rw [update_self, view_of_tab hn htab, Pmap.setWord_self]
  · rw [update_of_ne hx]
    by_cases hd : F.dom r x.1
    · have hnx := node_path h hn.1 hd
      refine view_congr (h.tab_setLeaf hn rfl ht _ w hnx) fun u' ht' => Pmap.setWord_of_ne ?_
      intro hs
      obtain ⟨rfl, hlast⟩ := slot_inj.mp hs
      exact hx (Vpn.ext_path (h.tree _ _ _ _ _ ⟨hnx, ht'⟩ ⟨hn, ht⟩).2 hlast)
    · rw [view, view, if_neg hd, if_neg hd]

theorem Wf.view_setLeaf_of_ne (w : Word) {r' : Nat} (hr' : r' ∈ F.roots) (hne : r' ≠ r) :
    view R F (s.setWord (slot u v.last) w) r' = view R F s r' := by
  funext x
  by_cases hd : F.dom r' x.1
  · have hnx := node_path h hr' hd
    refine view_congr (h.tab_setLeaf hn rfl ht _ w hnx) fun u' ht' => Pmap.setWord_of_ne ?_
    intro hs
    obtain ⟨rfl, -⟩ := slot_inj.mp hs
    exact hne (h.tree _ _ _ _ _ ⟨hnx, ht'⟩ ⟨hn, ht⟩).1
  · rw [view, view, if_neg hd, if_neg hd]

end

/-- A store off the tables changes no view. -/
theorem Wf.view_withMem (h : Wf F s L) {m : Nat → Word}
    (hm : ∀ t, F.IsTable dec s.mem t → ∀ i : Fin 512, m (slot t i) = s.mem (slot t i))
    (hr : r ∈ F.roots) : view R F (s.withMem m) r = view R F s r := by
  funext v
  by_cases hd : F.dom r v.1
  · have hn := node_path h hr hd
    exact view_congr (Layout.tableAt_agree hm hn) fun u hu => hm u ⟨r, _, hn, hu⟩ _
  · rw [view, view, if_neg hd, if_neg hd]

theorem view_of_mem (h : s'.mem = s.mem) : view R F s' = view R F s := by
  funext r v
  rw [view, view, tab, tab, h]

end

end JosVmm
