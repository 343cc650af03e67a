import JosVmm.Machine.Tables

/-!
# Page maps — well-formed states

`Wf F s L` is what the walkers need of a state `s`: the free list is the chain `L` of
unreferenced pages, the tables of the layout `F` form a forest of pages that are not free, and an
absent interior entry is zero.  `Grown F s s' new L'` says how a creating walk may change such a
state: the pages `new`, the head of the free list, have become cleared tables, and nothing else
that a walk can see has changed.

* `Wf.congr`, `Wf.setLeaf`, `Wf.setEntry`: stores that move no table;
* `Wf.grow`: one page linked into an absent entry is a growth;
* `Grown.refl`, `Grown.trans`: growths compose.
-/

namespace JosVmm
open Support Support.Radix Function List Pmap
open Function (update_self update_of_ne)

/-- The table of the state `s` at the end of the path `π` from `r`. -/
def tab (s : Pmap) (r : Nat) (π : List (Fin 512)) : Option Nat := tableAt dec s.mem r π

/-- `page_free_list` is `L`, every page of it is unreferenced, and no other page is linked. -/
structure FreeList (s : Pmap) (L : List Nat) : Prop where
  chain : Chain s.ppLink s.pageFreeList L
  unlinked : ∀ p, p ∉ L → s.ppLink p = none
  lt : ∀ p ∈ L, p < s.npages
  ref : ∀ p ∈ L, s.ppRef p = 0#16

/-- The tables of `F` are a forest of allocated pages whose absent interior entries are zero. -/
structure Wf (F : Layout 512) (s : Pmap) (L : List Nat) : Prop extends FreeList s L where
  depth : F.depth = 3
  tree : F.Tree dec s.mem
  table_lt : ∀ t, F.IsTable dec s.mem t → t < s.npages
  table_not_free : ∀ t, F.IsTable dec s.mem t → t ∉ L
  absent : ∀ r π i t, F.Node r (π ++ [i]) → tab s r π = some t →
    dec (s.mem (slot t i)) = none → s.mem (slot t i) = 0

variable {F : Layout 512} {s s' s'' : Pmap} {L L' new : List Nat} {r t p r' : Nat}
  {π σ : List (Fin 512)} {i : Fin 512} {w : Word} {D : Fin 512 → Prop}

namespace FreeList

theorem nodup (h : FreeList s L) : L.Nodup := h.chain.nodup

/-- The free list depends on the page structures only. -/
theorem setMem (h : FreeList s L) (m : Nat → Word) : FreeList (s.withMem m) L :=
  ⟨h.chain, h.unlinked, h.lt, h.ref⟩

theorem head (h : FreeList s (p :: L)) : s.pageFreeList = some p := h.chain.1

theorem nil (h : FreeList s []) : s.pageFreeList = none := h.chain

/-- The list with its head taken off. -/
theorem take (h : FreeList s (p :: L)) : FreeList (s.take p) L where
  chain := h.chain.pop
  unlinked q hq := by
    by_cases e : q = p
    · subst e; exact update_self ..
    · exact (update_of_ne e ..).trans (h.unlinked q (by simp [e, hq]))
  lt q hq := h.lt q (mem_cons_of_mem _ hq)
  ref q hq := h.ref q (mem_cons_of_mem _ hq)

/-- The list with a page put at its head. -/
theorem give (h : FreeList s L) (hp : p ∉ L) (hlt : p < s.npages) :
    FreeList (s.give p) (p :: L) where
  chain := h.chain.push hp
  unlinked q hq := by
    rw [mem_cons, not_or] at hq
    exact (update_of_ne hq.1 ..).trans (h.unlinked q hq.2)
  lt q hq := by
    rcases List.mem_cons.mp hq with rfl | hq
    · exact hlt
    · exact h.lt q hq
  ref q hq := by
    by_cases e : q = p
    · subst e; exact update_self ..
    · rcases List.mem_cons.mp hq with e' | hq
      · exact absurd e' e
      · exact (update_of_ne e ..).trans (h.ref q hq)

/-- A count of a page off the list may change. -/
theorem setRef (h : FreeList s L) (hp : p ∉ L) (c : BitVec 16) : FreeList (s.setRef p c) L where
  chain := h.chain
  unlinked := h.unlinked
  lt := h.lt
  ref q hq := by
    have e : q ≠ p := by rintro rfl; exact hp hq
    exact (update_of_ne e ..).trans (h.ref q hq)

end FreeList

namespace Wf

section

variable (h : Wf F s L)
include h

theorem tab_lt (hn : F.Node r π) (ht : tab s r π = some t) : t < s.npages :=
  h.table_lt t ⟨r, π, hn, ht⟩

theorem slot_lt (hn : F.Node r π) (ht : tab s r π = some t) (i : Fin 512) :
    slot t i < s.npages * 512 :=
  Radix.slot_lt (h.tab_lt hn ht) i

/-- A state with the same tables and the same absent entries, over the same free list. -/
theorem congr (hf : FreeList s' L) (hnp : s'.npages = s.npages)
    (htab : ∀ r π, F.Node r π → tab s' r π = tab s r π)
    (habs : ∀ r π i t, F.Node r (π ++ [i]) → tab s r π = some t →
      dec (s'.mem (slot t i)) = none → s'.mem (slot t i) = 0) : Wf F s' L where
  toFreeList := hf
  depth := h.depth
  tree := h.tree.congr htab
  table_lt t ht := hnp ▸ h.table_lt t ((Layout.isTable_congr htab).mp ht)
  table_not_free t ht := h.table_not_free t ((Layout.isTable_congr htab).mp ht)
  absent r π i t hn ht := habs r π i t hn ((htab r π hn.of_append).symm.trans ht)

/-- Page structures may change as long as no table is free. -/
theorem withFree (hf : FreeList s' L') (hmem : s'.mem = s.mem) (hnp : s'.npages = s.npages)
    (hnot : ∀ t, F.IsTable dec s.mem t → t ∉ L') : Wf F s' L' where
  toFreeList := hf
  depth := h.depth
  tree := hmem ▸ h.tree
  table_lt t ht := hnp ▸ h.table_lt t (hmem ▸ ht)
  table_not_free t ht := hnot t (hmem ▸ ht)
  absent r π i t hn ht := by
    rw [tab, hmem] at ht
    rw [hmem]
    exact h.absent r π i t hn ht

/-- Page structures may change as long as the free list does not. -/
theorem setFree (hf : FreeList s' L) (hmem : s'.mem = s.mem) (hnp : s'.npages = s.npages) :
    Wf F s' L :=
  h.withFree hf hmem hnp h.table_not_free

end

/-- The head of the free list is taken off it. -/
theorem take (h : Wf F s (p :: L)) : Wf F (s.take p) L where
  toFreeList := h.toFreeList.take
  depth := h.depth
  tree := h.tree
  table_lt := h.table_lt
  table_not_free t ht hL := h.table_not_free t ht (mem_cons_of_mem _ hL)
  absent := h.absent

/-- The words of pages that are not tables do not matter. -/
theorem setMem (h : Wf F s L) {m : Nat → Word}
    (hm : ∀ t, F.IsTable dec s.mem t → ∀ i : Fin 512, m (slot t i) = s.mem (slot t i)) :
    Wf F (s.withMem m) L := by
  refine h.congr (h.toFreeList.setMem m) rfl (fun r π hn => Layout.tableAt_agree hm hn)
    (fun r π i t hn ht hd => ?_)
  have e := hm t ⟨r, π, hn.of_append, ht⟩ i
  exact e.trans (h.absent r π i t hn ht ((congrArg dec e).symm.trans hd))

section

variable (h : Wf F s L) (hn : F.Node r π) (hlen : π.length = 3) (ht : tab s r π = some t)
include h hn hlen ht

/-- A store to a last-level entry moves no table. -/
theorem tab_setLeaf (i : Fin 512) (w : Word) {π' : List (Fin 512)} (hn' : F.Node r' π') :
    tab (s.setWord (slot t i) w) r' π' = tab s r' π' :=
  h.tree.tableAt_leaf ⟨hn, ht⟩ (hlen.trans h.depth.symm) i w hn'

theorem setLeaf (i : Fin 512) (w : Word) : Wf F (s.setWord (slot t i) w) L := by
  refine h.congr (h.toFreeList.setMem _) rfl (fun _ _ hn' => h.tab_setLeaf hn hlen ht i w hn')
    (fun r' π' i' t' hn' ht' hd => ?_)
  have hne : slot t' i' ≠ slot t i := by
    intro hs
    obtain ⟨rfl, rfl⟩ := slot_inj.mp hs
    obtain ⟨-, rfl⟩ := h.tree _ _ _ _ _ ⟨hn'.of_append, ht'⟩ ⟨hn, ht⟩
    have := hn'.2.1
    rw [h.depth, length_append, hlen, length_singleton] at this
    omega
  rw [setWord_mem, update_of_ne hne] at hd ⊢
  exact h.absent r' π' i' t' hn' ht' hd

end

/-- A store to an entry that is followed as before moves no table. -/
theorem tab_setEntry {a : Nat} (hw : dec w = dec (s.mem a)) (r : Nat) (π : List (Fin 512)) :
    tab (s.setWord a w) r π = tab s r π := by
  refine tableAt_dec_congr (fun b => ?_) r π
  by_cases e : b = a
  · subst e
    show dec (update s.mem b w b) = _
    rw [update_self, hw]
  · show dec (update s.mem a w b) = _
    rw [update_of_ne e]

/-- A present entry may change its flags. -/
theorem setEntry (h : Wf F s L) {a : Nat} (hw : dec w = dec (s.mem a)) (hp : dec (s.mem a) ≠ none) :
    Wf F (s.setWord a w) L := by
  refine h.congr (h.toFreeList.setMem _) rfl (fun r π _ => tab_setEntry hw r π)
    (fun r π i t hn ht hd => ?_)
  have hne : slot t i ≠ a := by
    rintro rfl
    rw [setWord_mem, update_self, hw] at hd
    exact hp hd
  rw [setWord_mem, update_of_ne hne] at hd ⊢
  exact h.absent r π i t hn ht hd

end Wf

/-! ### One root -/

/-- The tree of one root, of whose entries `D` belong to it. -/
def single (D : Fin 512 → Prop) (r : Nat) : Layout 512 := ⟨3, {r}, fun _ => D⟩

theorem single_node {v : Vpn} (hd : D v.1) : (single D r).Node r v.path :=
  ⟨Finset.mem_singleton_self r, Nat.le_refl 3, fun i hi => by
    rw [Vpn.path, head?_cons, Option.some.injEq] at hi
    exact hi ▸ hd⟩

/-- The tree of a zeroed root has no other table. -/
theorem table_zeroed (hz : ∀ i : Fin 512, s.mem (slot r i) = 0)
    (h : (single D r).Table dec s.mem r' π t) : r' = r ∧ π = [] ∧ t = r := by
  obtain rfl := Finset.mem_singleton.mp h.1.1
  exact ⟨rfl, tableAt_clear (fun i => by rw [hz i]; exact dec_zero) h.2⟩

/-- A zeroed root off the free list is well formed. -/
theorem Wf.zeroed (hL : FreeList s L) (hr : r < s.npages) (hnf : r ∉ L)
    (hz : ∀ i : Fin 512, s.mem (slot r i) = 0) : Wf (single D r) s L where
  toFreeList := hL
  depth := rfl
  tree _ _ _ _ _ h1 h2 :=
    ⟨(table_zeroed hz h1).1.trans (table_zeroed hz h2).1.symm,
      (table_zeroed hz h1).2.1.trans (table_zeroed hz h2).2.1.symm⟩
  table_lt _ := fun ⟨_, _, h⟩ => (table_zeroed hz h).2.2 ▸ hr
  table_not_free _ := fun ⟨_, _, h⟩ => (table_zeroed hz h).2.2 ▸ hnf
  absent _ _ i _ hn ht _ := by
    obtain ⟨-, -, rfl⟩ := table_zeroed hz ⟨hn.of_append, ht⟩
    exact hz i

/-- A layout without roots has no tables. -/
theorem FreeList.wf_empty (h : FreeList s L) (hd : F.depth = 3) (hF : F.roots = ∅) : Wf F s L := by
  have hnode : ∀ r π, ¬ F.Node r π := fun r π hn => Finset.notMem_empty r (hF ▸ hn.1)
  exact ⟨h, hd, fun _ _ _ _ _ ht _ => absurd ht.1 (hnode _ _), fun _ ⟨_, _, ht⟩ =>
    absurd ht.1 (hnode _ _), fun _ ⟨_, _, ht⟩ => absurd ht.1 (hnode _ _), fun _ _ _ _ hn =>
    absurd hn (hnode _ _)⟩

/-- A part of a well-formed forest is one. -/
theorem Wf.part {G : Layout 512} (h : Wf F s L) (hG : G.depth = 3)
    (hn : ∀ r π, G.Node r π → F.Node r π) : Wf G s L where
  toFreeList := h.toFreeList
  depth := hG
  tree _ _ _ _ _ h1 h2 := h.tree _ _ _ _ _ ⟨hn _ _ h1.1, h1.2⟩ ⟨hn _ _ h2.1, h2.2⟩
  table_lt t := fun ⟨r, π, ht⟩ => h.table_lt t ⟨r, π, hn r π ht.1, ht.2⟩
  table_not_free t := fun ⟨r, π, ht⟩ => h.table_not_free t ⟨r, π, hn r π ht.1, ht.2⟩
  absent r π i t hπ := h.absent r π i t (hn r _ hπ)

/-! ### Growth -/

/-- The pages `new` have become cleared tables; nothing else a walk can see has changed. -/
structure Grown (F : Layout 512) (s s' : Pmap) (new L' : List Nat) : Prop where
  wf : Wf F s' L'
  npages : s'.npages = s.npages
  ref : ∀ p, s'.ppRef p = if p ∈ new then 1#16 else s.ppRef p
  old : ∀ r π t, F.Node r π → tab s r π = some t → tab s' r π = some t
  fresh : ∀ r π t, F.Node r π → tab s' r π = some t →
    tab s r π = some t ∨ (tab s r π = none ∧ t ∈ new)
  isTable : ∀ p ∈ new, F.IsTable dec s'.mem p
  leaf_old : ∀ r π t (i : Fin 512), F.Node r π → π.length = 3 → tab s r π = some t →
    s'.mem (slot t i) = s.mem (slot t i)
  leaf_new : ∀ r π t (i : Fin 512), F.Node r π → π.length = 3 → tab s r π = none → tab s' r π = some t →
    s'.mem (slot t i) = 0
  frame : ∀ a, a / 512 ∉ new → ¬ F.IsTable dec s.mem (a / 512) → s'.mem a = s.mem a
  /-- The entries of a root that do not belong to the layout are kept. -/
  outer : ∀ r ∈ F.roots, ∀ i : Fin 512, ¬ F.dom r i → s'.mem (slot r i) = s.mem (slot r i)

namespace Grown

theorem refl (h : Wf F s L) : Grown F s s [] L where
  wf := h
  npages := rfl
  ref p := by simp
  old _ _ _ _ ht := ht
  fresh _ _ _ _ ht := .inl ht
  isTable _ hp := by cases hp
  leaf_old _ _ _ _ _ _ _ := rfl
  leaf_new r π t i _ _ h0 h1 := by rw [h0] at h1; cases h1
  frame _ _ _ := rfl
  outer _ _ _ _ := rfl

/-- The tables after a growth. -/
theorem isTable_iff (h : Grown F s s' new L') :
    F.IsTable dec s'.mem t ↔ F.IsTable dec s.mem t ∨ t ∈ new := by
  constructor
  · rintro ⟨r, π, hn, ht⟩
    rcases h.fresh r π t hn ht with ht | ⟨-, ht⟩
    · exact .inl ⟨r, π, hn, ht⟩
    · exact .inr ht
  · rintro (⟨r, π, hn, ht⟩ | ht)
    · exact ⟨r, π, hn, h.old r π t hn ht⟩
    · exact h.isTable t ht

theorem trans {new1 new2 L1 L2 : List Nat} (h1 : Grown F s s' new1 L1)
    (h2 : Grown F s' s'' new2 L2) : Grown F s s'' (new1 ++ new2) L2 where
  wf := h2.wf
  npages := h2.npages.trans h1.npages
  ref p := by
    rw [h2.ref, h1.ref]
    by_cases e2 : p ∈ new2 <;> by_cases e1 : p ∈ new1 <;> simp [e1, e2]
  old r π t hn ht := h2.old r π t hn (h1.old r π t hn ht)
  fresh r π t hn ht := by
    rcases h2.fresh r π t hn ht with ht | ⟨h0, ht⟩
    · rcases h1.fresh r π t hn ht with ht | ⟨h0, ht⟩
      · exact .inl ht
      · exact .inr ⟨h0, mem_append_left _ ht⟩
    · refine .inr ⟨?_, mem_append_right _ ht⟩
      cases hs : tab s r π with
      | none => rfl
      | some u => rw [h1.old r π u hn hs] at h0; cases h0
  isTable p hp := by
    rcases List.mem_append.mp hp with hp | hp
    · exact h2.isTable_iff.mpr (.inl (h1.isTable p hp))
    · exact h2.isTable p hp
  leaf_old r π t i hn hl ht :=
    (h2.leaf_old r π t i hn hl (h1.old r π t hn ht)).trans (h1.leaf_old r π t i hn hl ht)
  leaf_new r π t i hn hl h0 ht := by
    cases hs : tab s' r π with
    | none => exact h2.leaf_new r π t i hn hl hs ht
    | some u =>
      obtain rfl : u = t := Option.some.inj ((h2.old r π u hn hs).symm.trans ht)
      rw [h2.leaf_old r π u i hn hl hs]
      exact h1.leaf_new r π u i hn hl h0 hs
  frame a ha ht := by
    rw [mem_append, not_or] at ha
    rw [h2.frame a ha.2 fun h => (h1.isTable_iff.mp h).elim ht ha.1]
    exact h1.frame a ha.1 ht
  outer r hr i hi := (h2.outer r hr i hi).trans (h1.outer r hr i hi)

/-- A present interior entry may change its flags after the growth. -/
theorem setEntry (h : Grown F s s' new L') (hn : F.Node r (π ++ [i])) (ht : tab s' r π = some t)
    (hw : dec w = dec (s'.mem (slot t i))) (hp : dec (s'.mem (slot t i)) ≠ none) :
    Grown F s (s'.setWord (slot t i) w) new L' := by
  have htab : ∀ r π, tab (s'.setWord (slot t i) w) r π = tab s' r π := Wf.tab_setEntry hw
  have hT : F.IsTable dec s'.mem t := ⟨r, π, hn.of_append, ht⟩
  have hleaf : ∀ r' π' u (j : Fin 512), F.Node r' π' → π'.length = 3 → tab s' r' π' = some u →
      (s'.setWord (slot t i) w).mem (slot u j) = s'.mem (slot u j) := by
    intro r' π' u j hn' hl hu
    refine setWord_of_ne fun hs => ?_
    obtain ⟨rfl, -⟩ := slot_inj.mp hs
    obtain ⟨-, rfl⟩ := h.wf.tree _ _ _ _ _ ⟨hn', hu⟩ ⟨hn.of_append, ht⟩
    have := hn.2.1
    rw [h.wf.depth, length_append, hl, length_singleton] at this
    omega
  exact
    { wf := h.wf.setEntry hw hp
      npages := h.npages
      ref := h.ref
      old := fun r π t hn ht => (htab r π).trans (h.old r π t hn ht)
      fresh := fun r π t hn ht => h.fresh r π t hn ((htab r π).symm.trans ht)
      isTable := fun p hp => (Layout.isTable_congr fun r π _ => htab r π).mpr (h.isTable p hp)
      leaf_old := fun r π t i hn hl ht =>
        (hleaf r π t i hn hl (h.old r π t hn ht)).trans (h.leaf_old r π t i hn hl ht)
      leaf_new := fun r π t i hn hl h0 ht => by
        rw [htab] at ht
        rw [hleaf r π t i hn hl ht]
        exact h.leaf_new r π t i hn hl h0 ht
      frame := fun a ha hT' => by
        have hne : a ≠ slot t i := by
          rintro rfl
          rw [slot_div] at ha hT'
          exact (h.isTable_iff.mp hT).elim hT' ha
        exact (setWord_of_ne hne).trans (h.frame a ha hT')
      outer := fun r' hr' j hj =>
        (setWord_of_ne (h.wf.tree.outer_ne ⟨hn.of_append, ht⟩ hn hr' hj)).trans
          (h.outer r' hr' j hj) }

/-- If a growth adds as many tables as were missing on a path, it adds them on that path. -/
theorem on_path (h : Grown F s s' new L') (hn : F.Node r π) (ht : tab s' r π = some t)
    (hlen : new.length = missing dec s.mem r π) {u : Nat} (hn' : F.Node r' σ)
    (h0 : tab s r' σ = none) (hu : tab s' r' σ = some u) : r' = r ∧ σ <+: π := by
  obtain ⟨ks, hnd, hks, hmiss⟩ := @missing_prefixes _ _ dec s.mem r π
  have node : ∀ {ρ}, ρ <+: π → F.Node r ρ := fun ⟨τ, e⟩ => Layout.Node.of_append (σ := τ) (e ▸ hn)
  -- the tables added on the path are pairwise different, so they are all of `new`
  have hat : ∀ ρ ∈ ks, tab s' r ρ = some ((tab s' r ρ).getD 0) := fun ρ hρ => by
    obtain ⟨c, hc⟩ := tableAt_prefix ht (hmiss ρ hρ).1
    rw [tab, hc, Option.getD_some]
  have hsub : ks.map (fun ρ => (tab s' r ρ).getD 0) ⊆ new := fun c hc => by
    obtain ⟨ρ, hρ, rfl⟩ := List.mem_map.mp hc
    rcases h.fresh r ρ _ (node (hmiss ρ hρ).1) (hat ρ hρ) with hs | ⟨-, hnew⟩
    · rw [tab, (hmiss ρ hρ).2] at hs
      cases hs
    · exact hnew
  have hinj : (ks.map fun ρ => (tab s' r ρ).getD 0).Nodup :=
    List.Nodup.map_on (fun ρ hρ ρ' hρ' e => (h.wf.tree r ρ r ρ' _
      ⟨node (hmiss ρ hρ).1, hat ρ hρ⟩ ⟨node (hmiss ρ' hρ').1, e ▸ hat ρ' hρ'⟩).2) hnd
  have hperm := (hinj.subperm hsub).perm_of_length_le (by rw [length_map, hks, hlen])
  rcases h.fresh r' σ u hn' hu with hs | ⟨-, hnew⟩
  · rw [h0] at hs
    cases hs
  · obtain ⟨ρ, hρ, rfl⟩ := List.mem_map.mp (hperm.mem_iff.mpr hnew)
    obtain ⟨rfl, rfl⟩ := h.wf.tree _ _ _ _ _ ⟨hn', hu⟩ ⟨node (hmiss ρ hρ).1, hat ρ hρ⟩
    exact ⟨rfl, (hmiss σ hρ).1⟩

end Grown

/-- The entry the walkers write for a new table. -/
theorem dec_tableEntry (hp : p < 2 ^ 52) : dec (page2pa p ||| pteU ||| pteW ||| pteP) = some p := by
  rw [BitVec.or_assoc, BitVec.or_assoc, dec_eq_some]
  refine ⟨?_, ppn_page2pa_or hp (by decide)⟩
  rw [Ne, and_pteP_eq_zero, BitVec.getLsbD_or]
  simp [pteU, pteW, pteP]

/-- The state after the page `p` is taken, cleared, counted and linked at `slot t i`. -/
def Pmap.link (s : Pmap) (t : Nat) (i : Fin 512) (p : Nat) : Pmap :=
  (((s.take p).zero p).setRef p 1#16).setWord (slot t i) (page2pa p ||| pteU ||| pteW ||| pteP)

/-- **Linking one page is a growth.** -/
theorem Wf.grow (h : Wf F s (p :: L)) (hn : F.Node r (π ++ [i])) (ht : tab s r π = some t)
    (habs : dec (s.mem (slot t i)) = none) :
    Grown F s (s.link t i p) [p] L ∧ tab (s.link t i p) r (π ++ [i]) = some p ∧
      ∀ j : Fin 512, (s.link t i p).mem (slot p j) = 0 := by
  have hplt : p < s.npages := h.lt p (mem_cons_self ..)
  have hp52 : p < 2 ^ 52 := Nat.lt_trans (s.lt_two_pow hplt) (by decide)
  have hpL : p ∉ L := (List.nodup_cons.mp h.nodup).1
  have hpT : ¬ F.IsTable dec s.mem p := fun hT => h.table_not_free p hT (mem_cons_self ..)
  have htT : F.Table dec s.mem r π t := ⟨hn.of_append, ht⟩
  have hpt : t ≠ p := by rintro rfl; exact hpT htT.isTable
  have he := dec_tableEntry hp52
  have hmem : (s.link t i p).mem =
      update (clear 512 s.mem p) (slot t i) (page2pa p ||| pteU ||| pteW ||| pteP) := rfl
  have htab : ∀ r' π', F.Node r' π' → tab (s.link t i p) r' π' =
      if r' = r ∧ π' = π ++ [i] then some p else tab s r' π' := fun r' π' hn' =>
    h.tree.tableAt_grow dec_zero htT habs hpT he hn'
  have hat : tab (s.link t i p) r (π ++ [i]) = some p := by rw [htab r _ hn, if_pos ⟨rfl, rfl⟩]
  have hnone : tab s r (π ++ [i]) = none := (tableAt_snoc_of ht i).trans habs
  have hzero : ∀ j : Fin 512, (s.link t i p).mem (slot p j) = 0 := fun j => by
    rw [hmem, update_of_ne fun e => hpt (slot_inj.mp e).1.symm, clear_slot_self]
  have hfree : FreeList (s.link t i p) L :=
    ((h.toFreeList.take.setMem _).setRef hpL 1#16).setMem _
  have hfresh : ∀ r' π' u, F.Node r' π' → tab (s.link t i p) r' π' = some u →
      tab s r' π' = some u ∨ (tab s r' π' = none ∧ u ∈ [p]) := by
    intro r' π' u hn' hu
    rw [htab r' π' hn'] at hu
    split at hu
    · rename_i e
      obtain ⟨rfl, rfl⟩ := e
      exact .inr ⟨hnone, by simp [← Option.some.inj hu]⟩
    · exact .inl hu
  have hold : ∀ r' π' u, F.Node r' π' → tab s r' π' = some u →
      tab (s.link t i p) r' π' = some u := by
    intro r' π' u hn' hu
    rw [htab r' π' hn', if_neg, hu]
    rintro ⟨rfl, rfl⟩
    rw [hnone] at hu
    cases hu
  -- off the linked entry, the words of an old table are unchanged
  have hkeep : ∀ r' π' u (j : Fin 512), F.Node r' π' → tab s r' π' = some u → slot u j ≠ slot t i →
      (s.link t i p).mem (slot u j) = s.mem (slot u j) := by
    intro r' π' u j hn' hu hne
    rw [hmem, update_of_ne hne, clear_slot_of_ne]
    rintro rfl
    exact hpT ⟨r', π', hn', hu⟩
  have hisT : ∀ u, F.IsTable dec (s.link t i p).mem u → F.IsTable dec s.mem u ∨ u = p := by
    rintro u ⟨r', π', hn', hu⟩
    rcases hfresh r' π' u hn' hu with hu | ⟨-, hu⟩
    · exact .inl ⟨r', π', hn', hu⟩
    · exact .inr (by simpa using hu)
  refine ⟨?_, hat, hzero⟩
  exact
    { wf :=
        { toFreeList := hfree
          depth := h.depth
          tree := h.tree.grow dec_zero htT habs hpT he
          table_lt := fun u hu => (hisT u hu).elim (h.table_lt u) (fun e => e ▸ hplt)
          table_not_free := fun u hu => (hisT u hu).elim
            (fun hu hL => h.table_not_free u hu (mem_cons_of_mem _ hL)) (fun e => e ▸ hpL)
          absent := fun r' π' j u hn' hu hd => by
            rcases hfresh r' π' u hn'.of_append hu with hu | ⟨-, hu⟩
            · by_cases hs : slot u j = slot t i
              · rw [hs, hmem, update_self, he] at hd
                cases hd
              · rw [hkeep r' π' u j hn'.of_append hu hs] at hd ⊢
                exact h.absent r' π' j u hn' hu hd
            · obtain rfl : u = p := by simpa using hu
              exact hzero j }
      npages := rfl
      ref := fun q => by
        by_cases e : q = p
        · subst e; simp [link]
        · simp only [mem_singleton, if_neg e]
          exact update_of_ne e ..
      old := hold
      fresh := hfresh
      isTable := fun q hq => by
        obtain rfl : q = p := by simpa using hq
        exact ⟨r, π ++ [i], hn, hat⟩
      leaf_old := fun r' π' u j hn' hl hu => by
        refine hkeep r' π' u j hn' hu fun hs => ?_
        obtain ⟨rfl, -⟩ := slot_inj.mp hs
        obtain ⟨-, rfl⟩ := h.tree _ _ _ _ _ ⟨hn', hu⟩ htT
        have := hn.2.1
        rw [h.depth, length_append, hl, length_singleton] at this
        omega
      leaf_new := fun r' π' u j hn' _ h0 hu => by
        rcases hfresh r' π' u hn' hu with hu | ⟨-, hu⟩
        · rw [h0] at hu; cases hu
        · obtain rfl : u = p := by simpa using hu
          exact hzero j
      frame := fun a ha hT => by
        have hap : a / 512 ≠ p := by simpa using ha
        have hne : a ≠ slot t i := by
          rintro rfl
          rw [slot_div] at hT
          exact hT htT.isTable
        rw [hmem, update_of_ne hne, clear, if_neg hap]
      outer := fun r' hr' j hj =>
        hkeep r' [] r' j (Layout.node_nil hr') rfl (h.tree.outer_ne htT hn hr' hj) }

end JosVmm
