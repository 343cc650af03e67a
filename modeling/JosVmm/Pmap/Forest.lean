import JosVmm.Support.Traverse
import JosVmm.Pmap.Account

/-!
# Page maps — adding and removing trees

A table root joins a layout as a zeroed page (`Acct.plant`) and leaves it together with its tree
(`Acct.prune`); a subtree leaves it when the entry above is emptied (`Acct.cut`).  The
references that the entries and tables of the tree stood for are then held elsewhere: `debt` counts
them, and a traversal of the tree meets no page more often (`Acct.count_le_debt`).
-/

namespace Support.Radix.Layout

variable {W : Type} {n : Nat} {F : Layout n} {r r' t : Nat} {π : List (Fin n)}
  {dec : W → Option Nat} {mem : Nat → W}

/-- The layout without the root `r`. -/
def prune (F : Layout n) (r : Nat) : Layout n := { F with roots := F.roots.erase r }

/-- The layout with the root `r`. -/
def plant (F : Layout n) (r : Nat) : Layout n := { F with roots := insert r F.roots }

/-- The layout of the root `r` alone. -/
def only (F : Layout n) (r : Nat) : Layout n := { F with roots := {r} }

theorem prune_node : (F.prune r).Node r' π ↔ r' ≠ r ∧ F.Node r' π := by
  simp only [Node, prune, Finset.mem_erase]
  tauto

theorem only_node (hr : r ∈ F.roots) : (F.only r).Node r' π ↔ r' = r ∧ F.Node r' π := by
  simp only [Node, only, Finset.mem_singleton]
  constructor
  · rintro ⟨rfl, h⟩
    exact ⟨rfl, hr, h⟩
  · rintro ⟨rfl, -, h⟩
    exact ⟨rfl, h⟩

theorem plant_node (h : (F.plant r).Node r' π) : r' = r ∨ F.Node r' π := by
  obtain ⟨hr, h⟩ := h
  exact (Finset.mem_insert.mp hr).imp_right fun hr => ⟨hr, h⟩

theorem node_plant (h : F.Node r' π) : (F.plant r).Node r' π :=
  ⟨Finset.mem_insert_of_mem h.1, h.2⟩

/-- The tables of a forest are those of one tree and those of the others. -/
theorem isTable_prune_or (hr : r ∈ F.roots) :
    F.IsTable dec mem t ↔ (F.prune r).IsTable dec mem t ∨ (F.only r).IsTable dec mem t := by
  constructor
  · rintro ⟨r', π, hn, ht⟩
    by_cases e : r' = r
    · exact .inr ⟨r', π, (only_node hr).mpr ⟨e, hn⟩, ht⟩
    · exact .inl ⟨r', π, prune_node.mpr ⟨e, hn⟩, ht⟩
  · rintro (⟨r', π, hn, ht⟩ | ⟨r', π, hn, ht⟩)
    · exact ⟨r', π, (prune_node.mp hn).2, ht⟩
    · exact ⟨r', π, ((only_node hr).mp hn).2, ht⟩

theorem Tree.not_both (hT : F.Tree dec mem) (hr : r ∈ F.roots)
    (h1 : (F.prune r).IsTable dec mem t) : ¬ (F.only r).IsTable dec mem t := by
  rintro ⟨r2, π2, hn2, ht2⟩
  obtain ⟨r1, π1, hn1, ht1⟩ := h1
  obtain ⟨hne, hn1⟩ := prune_node.mp hn1
  obtain ⟨e, hn2⟩ := (only_node hr).mp hn2
  exact hne ((hT _ _ _ _ _ ⟨hn1, ht1⟩ ⟨hn2, ht2⟩).1.trans e)

/-- A traversal of one tree of the forest, root included, meets each of its tables once. -/
theorem Tree.occ_le (hT : F.Tree dec mem) (hr : r ∈ F.roots) (hd : ∀ i, F.dom r i) (p : Nat)
    [Decidable ((F.only r).IsTable dec mem p)] :
    occ n dec mem p F.depth r + Counting.one (r = p) ≤
      Counting.one ((F.only r).IsTable dec mem p) := by
  have node : ∀ {π : List (Fin n)}, π.length ≤ F.depth → F.Node r π := fun hl =>
    ⟨hr, hl, fun i _ => hd i⟩
  have mem_only : ∀ {π : List (Fin n)}, π.length ≤ F.depth → tableAt dec mem r π = some p →
      (F.only r).IsTable dec mem p := fun hl h => ⟨r, _, (only_node hr).mpr ⟨rfl, node hl⟩, h⟩
  by_cases e : r = p
  · -- the root is met at the end and nowhere else
    have h0 : occ n dec mem p F.depth r = 0 := Nat.eq_zero_of_not_pos fun hpos => by
      obtain ⟨π, hne, hl, hπ⟩ := exists_of_occ_pos hpos
      exact hne (hT r π r [] p ⟨node hl, hπ⟩ ⟨node (Nat.zero_le _), by rw [tableAt, e]⟩).2
    rw [h0, Counting.one_of e, Counting.one_of (mem_only (Nat.zero_le _) (by rw [tableAt, e]))]
  · rw [Counting.one_not e, Nat.add_zero]
    by_cases hpos : 0 < occ n dec mem p F.depth r
    · obtain ⟨π, -, hl, hπ⟩ := exists_of_occ_pos hpos
      rw [Counting.one_of (mem_only hl hπ)]
      exact occ_le_one fun π π' _ _ hl hl' h h' =>
        (hT r π r π' p ⟨node hl, h⟩ ⟨node hl', h'⟩).2
    · omega

end Support.Radix.Layout

namespace JosVmm
open Support Support.Radix Support.Counting Function

variable {R : Reading Nat} {F : Layout 512} {A : Finset Nat} {extra : Nat → Nat} {s : Pmap}
  {L : List Nat} {r p : Nat}

noncomputable section

/-- The references that the entries and tables of the tree of `r` stand for. -/
def debt (R : Reading Nat) (F : Layout 512) (s : Pmap) (r p : Nat) : Nat :=
  fibre (view R F s r) p + tables (F.only r) s p

theorem leaves_prune (hr : r ∈ F.roots) (p : Nat) :
    leaves R F s p = fibre (view R F s r) p + leaves R (F.prune r) s p :=
  (Finset.add_sum_erase F.roots (fun r' => fibre (view R F s r') p) hr).symm

theorem Wf.tables_prune (h : Wf F s L) (hr : r ∈ F.roots) (p : Nat) :
    tables F s p = tables (F.prune r) s p + tables (F.only r) s p := by
  by_cases h1 : (F.prune r).IsTable dec s.mem p
  · rw [tables_eq_one h1, tables_eq_zero.mpr (h.tree.not_both hr h1),
      tables_eq_one ((Layout.isTable_prune_or hr).mpr (.inl h1))]
  · rw [tables_eq_zero.mpr h1, Nat.zero_add]
    unfold tables
    congr 1
    exact propext ((Layout.isTable_prune_or hr).trans (or_iff_right h1))

/-- **A root leaves the layout** with its tree; the references it stood for are held elsewhere. -/
theorem Acct.prune (h : Acct R F A extra s L) (hr : r ∈ F.roots) :
    Acct R (F.prune r) A (fun p => if p ∈ A then 0 else extra p + debt R F s r p) s L where
  toWf := h.toWf.part h.depth fun _ _ hn => (Layout.prune_node.mp hn).2
  exact p hp := by
    have h1 := h.exact p hp
    rw [leaves_prune hr, h.tables_prune hr] at h1
    rw [if_neg hp, debt]
    omega
  anon p hp := by
    obtain ⟨h1, h2, h3, h4, -⟩ := h.anon p hp
    rw [leaves_prune hr] at h3
    rw [h.tables_prune hr] at h4
    exact ⟨h1, h2, by omega, by omega, if_pos hp⟩
  anon_lt := h.anon_lt
  zero := h.zero
  mapped_lt p hp := h.mapped_lt p (by rw [leaves_prune hr]; omega)

/-! ### A new root -/

section plant

variable (hz : ∀ i : Fin 512, F.dom p i → s.mem (slot p i) = 0)
include hz

/-- A root whose own entries are zero has no other table. -/
theorem tab_zero {π : List (Fin 512)} {t : Nat} (hn : (F.plant p).Node p π)
    (h : tab s p π = some t) : π = [] ∧ t = p := by
  cases π with
  | nil => exact ⟨rfl, (Option.some.inj h).symm⟩
  | cons i π =>
    rw [tab, tableAt, hz i (hn.2.2 i rfl), dec_zero] at h
    cases h

theorem isTable_plant {t : Nat} :
    (F.plant p).IsTable dec s.mem t ↔ F.IsTable dec s.mem t ∨ t = p := by
  constructor
  · rintro ⟨r', π, hn, ht⟩
    rcases Layout.plant_node hn with rfl | hn'
    · exact .inr (tab_zero hz hn ht).2
    · exact .inl ⟨r', π, hn', ht⟩
  · rintro (⟨r', π, hn, ht⟩ | rfl)
    · exact ⟨r', π, Layout.node_plant hn, ht⟩
    · exact Layout.isTable_root (Finset.mem_insert_self ..)

theorem Wf.plant (h : Wf F s L) (hlt : p < s.npages) (hL : p ∉ L)
    (hT : ¬ F.IsTable dec s.mem p) : Wf (F.plant p) s L where
  toFreeList := h.toFreeList
  depth := h.depth
  tree r1 π1 r2 π2 t h1 h2 := by
    rcases Layout.plant_node h1.1 with rfl | n1 <;> rcases Layout.plant_node h2.1 with rfl | n2
    · exact ⟨rfl, (tab_zero hz h1.1 h1.2).1.trans (tab_zero hz h2.1 h2.2).1.symm⟩
    · obtain ⟨-, rfl⟩ := tab_zero hz h1.1 h1.2
      exact absurd ⟨r2, π2, n2, h2.2⟩ hT
    · obtain ⟨-, rfl⟩ := tab_zero hz h2.1 h2.2
      exact absurd ⟨r1, π1, n1, h1.2⟩ hT
    · exact h.tree _ _ _ _ _ ⟨n1, h1.2⟩ ⟨n2, h2.2⟩
  table_lt t ht := ((isTable_plant hz).mp ht).elim (h.table_lt t) (fun e => e ▸ hlt)
  table_not_free t ht := ((isTable_plant hz).mp ht).elim (h.table_not_free t) (fun e => e ▸ hL)
  absent r' π i t hn ht hd := by
    rcases Layout.plant_node hn with rfl | hn'
    · obtain ⟨rfl, rfl⟩ := tab_zero hz hn.of_append ht
      exact hz i (hn.2.2 i rfl)
    · exact h.absent r' π i t hn' ht hd

theorem leaves_plant (hroot : p ∉ F.roots) (q : Nat) :
    leaves R (F.plant p) s q = leaves R F s q := by
  have hview : ∀ v, view R F s p v = none := fun v => by
    by_cases hd : F.dom p v.1
    · refine view_of_none ?_
      rw [tab, Vpn.path, tableAt, hz v.1 hd, dec_zero]
      rfl
    · rw [view, if_neg hd]
  have hzero : fibre (view R F s p) q = 0 := by
    rw [show view R F s p = fun _ => none from funext hview]
    exact fibre_none q
  show ∑ r ∈ insert p F.roots, fibre (view R F s r) q = _
  rw [Finset.sum_insert hroot, hzero, Nat.zero_add]
  rfl

/-- **A page becomes a root**, if its own entries are zero; its reference is the table's now. -/
theorem Acct.plant (h : Acct R F A extra s L) (hA : p ∉ A) (hlt : p < s.npages) (hex : 0 < extra p)
    (hT : tables F s p = 0) : Acct R (F.plant p) A (update extra p (extra p - 1)) s L := by
  have hT' := tables_eq_zero.mp hT
  have hL : p ∉ L := fun hL => by
    have := (h.ref_of_free hL).2.2
    omega
  have hroot : p ∉ F.roots := fun hr => hT' (Layout.isTable_root hr)
  have hleaves : ∀ q, leaves R (F.plant p) s q = leaves R F s q := leaves_plant hz hroot
  have htables : ∀ q, q ≠ p → tables (F.plant p) s q = tables F s q := fun q hq => by
    unfold tables
    congr 1
    exact propext ((isTable_plant hz).trans (or_iff_left hq))
  exact
    { toWf := h.toWf.plant hz hlt hL hT'
      exact := fun q hq => by
        have h1 := h.exact q hq
        rw [hleaves]
        by_cases e : q = p
        · subst e
          rw [update_self, tables_eq_one ((isTable_plant hz).mpr (.inr rfl))]
          omega
        · rw [htables q e, update_of_ne e]
          exact h1
      anon := fun q hq => by
        have e : q ≠ p := by rintro rfl; exact hA hq
        rw [hleaves, htables q e, update_of_ne e]
        exact h.anon q hq
      anon_lt := h.anon_lt
      zero := h.zero
      mapped_lt := fun q hq => h.mapped_lt q (hleaves q ▸ hq) }

end plant

/-! ### A subtree -/

section cut

variable {π : List (Fin 512)} {i : Fin 512} {t c : Nat}

section

variable (h : Wf F s L) (hn : F.Node r (π ++ [i])) (ht : tab s r π = some t)
include h hn ht

theorem Wf.tab_cut {r' : Nat} {π' : List (Fin 512)} (hn' : F.Node r' π') :
    tab (s.setWord (slot t i) 0) r' π' =
      if r' = r ∧ π ++ [i] <+: π' then none else tab s r' π' :=
  h.tree.tableAt_cut ⟨hn.of_append, ht⟩ dec_zero hn'

/-- The tables that remain are those that are not below the entry. -/
theorem Wf.table_of_cut {r' x : Nat} {π' : List (Fin 512)} :
    F.Table dec (s.setWord (slot t i) 0).mem r' π' x ↔
      F.Table dec s.mem r' π' x ∧ ¬ (r' = r ∧ π ++ [i] <+: π') := by
  constructor
  · rintro ⟨hn', hx⟩
    have hx' := (h.tab_cut hn ht hn').symm.trans hx
    split at hx'
    · cases hx'
    · exact ⟨⟨hn', hx'⟩, ‹_›⟩
  · rintro ⟨⟨hn', hx⟩, hoff⟩
    exact ⟨hn', (h.tab_cut hn ht hn').trans ((if_neg hoff).trans hx)⟩

/-- **An interior entry is emptied**: the tables below it leave the forest. -/
theorem Wf.cut :
    Wf F (s.setWord (slot t i) 0) L where
  toFreeList := h.toFreeList.setMem _
  depth := h.depth
  tree := h.tree.cut ⟨hn.of_append, ht⟩ dec_zero
  table_lt x := fun ⟨r', π', hx⟩ => h.table_lt x ⟨r', π', ((h.table_of_cut hn ht).mp hx).1⟩
  table_not_free x := fun ⟨r', π', hx⟩ =>
    h.table_not_free x ⟨r', π', ((h.table_of_cut hn ht).mp hx).1⟩
  absent r' π' j x hn' hx hd := by
    by_cases e : slot x j = slot t i
    · rw [e, Pmap.setWord_self]
    · rw [Pmap.setWord_of_ne e] at hd ⊢
      exact h.absent r' π' j x hn' ((h.table_of_cut hn ht).mp ⟨hn'.of_append, hx⟩).1.2 hd

/-- The views lose what was below the entry. -/
theorem Wf.view_cut {β : Type} {W : Reading β} {r' : Nat} (hr' : r' ∈ F.roots) (v : Vpn) :
    view W F (s.setWord (slot t i) 0) r' v =
      if r' = r ∧ π ++ [i] <+: v.path then none else view W F s r' v := by
  by_cases hd : F.dom r' v.1
  · have hn' := node_path h hr' hd
    have htab := h.tab_cut hn ht hn'
    split at htab
    · rw [view_of_none htab, if_pos ‹_›]
    · rw [if_neg ‹_›]
      refine view_congr htab fun u hu => Pmap.setWord_of_ne fun hs => ?_
      -- the entry is not a last-level one
      obtain ⟨rfl, -⟩ := slot_inj.mp hs
      obtain ⟨-, rfl⟩ := h.tree _ _ _ _ _ ⟨hn', hu⟩ ⟨hn.of_append, ht⟩
      have := hn.2.1
      rw [h.depth, List.length_append, Vpn.path_length, List.length_singleton] at this
      omega
  · rw [view, view, if_neg hd, if_neg hd, ite_self]

end

/-- A state with fewer entries and tables; what they stood for is held elsewhere. -/
theorem Acct.shrink {s' : Pmap} (h : Acct R F A extra s L) (hw : Wf F s' L)
    (href : s'.ppRef = s.ppRef) (hnp : s'.npages = s.npages)
    (hl : ∀ p, leaves R F s' p ≤ leaves R F s p) (ht : ∀ p, tables F s' p ≤ tables F s p) :
    Acct R F A (fun p => if p ∈ A then 0 else
      extra p + (leaves R F s p - leaves R F s' p) + (tables F s p - tables F s' p)) s' L where
  toWf := hw
  exact p hp := by
    have h1 := h.exact p hp
    have h2 := hl p
    have h3 := ht p
    rw [href, if_neg hp]
    omega
  anon p hp := by
    obtain ⟨h1, h2, h3, h4, -⟩ := h.anon p hp
    have h5 := hl p
    have h6 := ht p
    rw [href, if_pos hp]
    exact ⟨h1, h2, by omega, by omega, rfl⟩
  anon_lt p hp := hnp ▸ h.anon_lt p hp
  zero p hp h0 := h.zero p (hnp ▸ hp) (href ▸ h0)
  mapped_lt p hp := by
    have h1 := hl p
    rw [hnp]
    exact h.mapped_lt p (by omega)

/-- **A subtree is cut off**, and the reference to its top table given up. -/
theorem Acct.cut (h : Acct R F A extra s L) (hn : F.Node r (π ++ [i])) (ht : tab s r π = some t)
    (hc : dec (s.mem (slot t i)) = some c) :
    ∃ extra' L', Acct R F A extra' ((s.setWord (slot t i) 0).decref c) L' := by
  have hT : F.Table dec s.mem r (π ++ [i]) c := ⟨hn, (tableAt_snoc_of ht i).trans hc⟩
  have hT' : ¬ F.IsTable dec (s.setWord (slot t i) 0).mem c := fun ⟨r', π', hx⟩ => by
    obtain ⟨hx, hoff⟩ := (h.table_of_cut hn ht).mp hx
    obtain ⟨rfl, rfl⟩ := h.tree _ _ _ _ _ hx hT
    exact hoff ⟨rfl, List.prefix_refl _⟩
  have hcA : c ∉ A := fun hA => tables_eq_zero.mp (h.anon c hA).2.2.2.1 hT.isTable
  have h1 := h.shrink (h.toWf.cut hn ht) rfl rfl
    (fun p => total_mono fun r' hr' v hv => by
      rw [h.view_cut hn ht hr'] at hv
      split at hv
      · cases hv
      · exact hv)
    (fun p => by
      by_cases hp : F.IsTable dec (s.setWord (slot t i) 0).mem p
      · obtain ⟨r', π', hx⟩ := hp
        rw [tables_eq_one (s := s) ⟨r', π', ((h.table_of_cut hn ht).mp hx).1⟩]
        exact tables_le_one
      · rw [tables_eq_zero.mpr hp]
        exact Nat.zero_le _)
  obtain ⟨L', h2, -⟩ := h1.decref hcA (h.table_lt c hT.isTable) (by
    rw [if_neg hcA, tables_eq_one hT.isTable, tables_eq_zero.mpr hT']
    omega)
  exact ⟨_, L', h2⟩

end cut

/-! ### A traversal of a tree -/

/-- The counts of a traversal are those of the map that looks a page of addresses up. -/
theorem leafCount_eq (next leaf : Word → Option Nat) (mem : Nat → Word) (r p : Nat) :
    leafCount 512 next leaf mem p 3 r = fibre (fun v : Vpn =>
      (tableAt next mem r v.path).bind fun u => leaf (mem (slot u v.last))) p := by
  rw [fibre_eq_sum, Fintype.sum_prod_type, leafCount]
  refine Finset.sum_congr rfl fun a _ => ?_
  rw [Fintype.sum_prod_type]
  simp only [Vpn.path, Vpn.last, tableAt, Option.bind_assoc, Option.bind_some]
  rcases Option.eq_none_or_eq_some (next (mem (slot r a))) with h1 | ⟨t₁, h1⟩
  · simp [h1, one]
  simp only [h1, Option.bind_some, leafCount]
  refine Finset.sum_congr rfl fun b _ => ?_
  rw [Fintype.sum_prod_type]
  rcases Option.eq_none_or_eq_some (next (mem (slot t₁ b))) with h2 | ⟨t₂, h2⟩
  · simp [h2, one]
  simp only [h2, Option.bind_some]
  refine Finset.sum_congr rfl fun c _ => ?_
  rcases Option.eq_none_or_eq_some (next (mem (slot t₂ c))) with h3 | ⟨u, h3⟩
  · simp [h3, one]
  simp only [h3, Option.bind_some]

theorem leafCount_eq_fibre {leaf : Word → Option Nat} (hd : ∀ i, F.dom r i)
    (hleaf : R.read r = leaf) (p : Nat) :
    leafCount 512 dec leaf s.mem p 3 r = fibre (view R F s r) p := by
  rw [leafCount_eq]
  refine congrArg (fibre · p) (funext fun v => ?_)
  rw [view, if_pos (hd v.1), hleaf]
  rfl

/-- **A traversal of the tree of `r`, root included, meets no page more often than the tree
refers to it.** -/
theorem Wf.count_le_debt {leaf : Word → Option Nat} (h : Wf F s L) (hr : r ∈ F.roots)
    (hd : ∀ i, F.dom r i) (hleaf : R.read r = leaf) (p : Nat) :
    (visited 512 dec leaf s.mem 3 r ++ [r]).count p ≤ debt R F s r p := by
  classical
  have hocc := h.tree.occ_le hr hd p
  rw [h.depth] at hocc
  rw [List.count_append, count_visited, leafCount_eq_fibre hd hleaf, debt, List.count_singleton,
    beq_eq_decide]
  simp only [decide_eq_true_eq]
  unfold tables
  simp only [one] at hocc ⊢
  convert Nat.add_le_add_left hocc _ using 1
  omega

end

end JosVmm
