import JosVmm.Pmap.View

/-!
# Page maps — a creating walk is all or nothing

`pml4e_walk` with `create` set either returns the last-level entry of the address, and has then
added the tables missing on its way and nothing else (`Extended`), or returns the null pointer,
and has then restored every table entry, every count and the free list with its order
(`pml4eWalk_allOrNothing`).  Which of the two happens is decided by the number of tables missing
and the length of the free list.
-/

namespace JosVmm
open Support Support.Radix Support.Prog

variable {F : Layout 512} {s s' : Pmap} {L L' new : List Nat} {r u : Nat} {v : Vpn}

/-- The state `s'` is `s` with the tables `new` added on the way to `v` from the root `r`, the
last of them `u`; the free list is left with `L'`. -/
structure Extended (F : Layout 512) (s s' : Pmap) (r : Nat) (v : Vpn) (u : Nat)
    (new L' : List Nat) : Prop where
  last : tab s' r v.path = some u
  freeList : FreeList s' L'
  /-- Each new table is on the way, counted once, and empty but for the link to the next one. -/
  added : ∀ t ∈ new, s'.ppRef t = 1#16 ∧ ∃ σ, σ <+: v.path ∧ tab s r σ = none ∧
    tab s' r σ = some t ∧ ∀ i : Fin 512, ¬ σ ++ [i] <+: v.path → s'.mem (slot t i) = 0
  /-- There are no other tables than those there were and the new ones. -/
  tables : ∀ t, F.IsTable dec s'.mem t ↔ F.IsTable dec s.mem t ∨ t ∈ new
  /-- Every entry that was present is as it was. -/
  kept : ∀ t, F.IsTable dec s.mem t → ∀ i : Fin 512, dec (s.mem (slot t i)) ≠ none →
    s'.mem (slot t i) = s.mem (slot t i)
  /-- No translation has changed, however last-level entries are read. -/
  views : ∀ {β : Type} (R : Reading β), ∀ r' ∈ F.roots, view R F s' r' = view R F s r'
  refs : ∀ p, p ∉ new → s'.ppRef p = s.ppRef p
  /-- Other memory is as it was. -/
  frame : ∀ a, a / 512 ∉ new → ¬ F.IsTable dec s.mem (a / 512) → s'.mem a = s.mem a

/-- A new table holds nothing off the way. -/
theorem Grown.new_zero {σ : List (Fin 512)} {t : Nat} (g : Grown F s s' new L')
    (hn : F.Node r v.path) (hu : tab s' r v.path = some u)
    (hlen : new.length = missing dec s.mem r v.path) (hσ : F.Node r σ) (h0 : tab s r σ = none)
    (ht : tab s' r σ = some t) (i : Fin 512) (hi : ¬ σ ++ [i] <+: v.path) :
    s'.mem (slot t i) = 0 := by
  obtain ⟨-, hpre⟩ := g.on_path hn hu hlen hσ h0 ht
  by_cases h3 : σ.length = 3
  · exact g.leaf_new r σ t i hσ h3 h0 ht
  · have hlt : σ.length < 3 := Nat.lt_of_le_of_ne (hpre.length_le.trans (Nat.le_refl 3)) h3
    have hσ0 : σ ≠ [] := by
      rintro rfl
      cases h0
    have hσi : F.Node r (σ ++ [i]) := by
      refine ⟨hn.1, ?_, fun j hj => hσ.2.2 j ?_⟩
      · rw [g.wf.depth, List.length_append, List.length_singleton]
        omega
      · rwa [List.head?_append_of_ne_nil σ hσ0] at hj
    refine g.wf.absent r σ i t hσi ht ?_
    -- a present entry would lead to a table that was not there, which is then on the way
    cases hd : dec (s'.mem (slot t i)) with
    | none => rfl
    | some c =>
      have hc : tab s' r (σ ++ [i]) = some c := (tableAt_snoc_of ht i).trans hd
      have h0' : tab s r (σ ++ [i]) = none := by
        rw [tab, tableAt_snoc, show tableAt dec s.mem r σ = none from h0]
        rfl
      exact absurd (g.on_path hn hu hlen hσi h0' hc).2 hi

/-- **A creating walk is all or nothing.** -/
theorem pml4eWalk_allOrNothing (va : Word) (h : Wf F s L) (hn : F.Node r (vpn va).path) :
    (missing dec s.mem r (vpn va).path ≤ L.length ∧ ∃ s' new L' u, L = new ++ L' ∧
      (pml4eWalk (some (r * 512)) va true).run s = .ok (some (slot u (ptx va)), s') ∧
      Extended F s s' r (vpn va) u new L') ∨
    (L.length < missing dec s.mem r (vpn va).path ∧ ∃ s',
      (pml4eWalk (some (r * 512)) va true).run s = .ok (none, s') ∧
      s'.ppRef = s.ppRef ∧ s'.ppLink = s.ppLink ∧ s'.pageFreeList = s.pageFreeList ∧
      ∀ a, a / 512 ∉ L → s'.mem a = s.mem a) := by
  obtain ⟨hok, hfail⟩ := pml4eWalk_create h hn
  rcases Nat.lt_or_ge L.length (missing dec s.mem r (vpn va).path) with hlt | hle
  · obtain ⟨m, hrun, hm⟩ := hfail hlt
    exact .inr ⟨hlt, s.withMem m, hrun, rfl, rfl, rfl, hm⟩
  · obtain ⟨s', new, L', u, rfl, hlen, hrun, hg, hu⟩ := hok hle
    refine .inl ⟨hle, s', new, L', u, rfl, hrun, ?_⟩
    exact
      { last := hu
        freeList := hg.wf.toFreeList
        added := fun t ht => by
          refine ⟨by rw [hg.ref, if_pos ht], ?_⟩
          obtain ⟨r', σ, hσ, hσt⟩ := hg.isTable t ht
          -- a page of the free list was no table
          have h₀ : tab s r' σ = none := by
            rcases hg.fresh r' σ t hσ hσt with hs | ⟨hs, -⟩
            · exact absurd (List.mem_append_left L' ht) (h.table_not_free t ⟨r', σ, hσ, hs⟩)
            · exact hs
          obtain ⟨rfl, hpre⟩ := hg.on_path hn hu hlen hσ h₀ hσt
          exact ⟨σ, hpre, h₀, hσt, hg.new_zero hn hu hlen hσ h₀ hσt⟩
        tables := fun t => hg.isTable_iff
        kept := fun t ht i hd => pml4eWalk_keeps _ va s s' _ _ h.toFreeList hrun _ (by
          rw [slot_div]
          exact h.table_not_free t ht) hd
        views := fun R r' hr' => hg.view h hr'
        refs := fun p hp => by rw [hg.ref, if_neg hp]
        frame := hg.frame }

/-- A machine of four pages: page 3 is a zeroed root, pages 1 and 2 are free. -/
def fourPages : Pmap where
  npages := 4
  npages_le := by decide
  mem _ := 0
  ppRef p := if p = 1 ∨ p = 2 then 0#16 else 1#16
  ppLink p := if p = 1 then some 2 else none
  pageFreeList := some 1

theorem fourPages_wf : Wf (single (fun _ => True) 3) fourPages [1, 2] := by
  refine Wf.zeroed
    { chain := by simp [Chain, fourPages]
      unlinked := fun p hp => ?_
      lt := by decide
      ref := by decide } (by decide) (by decide) fun _ => rfl
  simp only [List.mem_cons, List.not_mem_nil, or_false, not_or] at hp
  exact if_neg hp.1

/-- The theorem where the last of three tables cannot be had. -/
theorem pml4eWalk_allOrNothing_short : ∃ s',
    (pml4eWalk (some (3 * 512)) 0x1000#64 true).run fourPages = .ok (none, s') ∧
      s'.ppRef = fourPages.ppRef ∧ s'.ppLink = fourPages.ppLink ∧ s'.pageFreeList = some 1 := by
  rcases pml4eWalk_allOrNothing 0x1000#64 fourPages_wf (single_node trivial) with
    ⟨hle, -⟩ | ⟨-, s', hrun, href, hlink, hfree, -⟩
  · exact absurd hle (by decide)
  · exact ⟨s', hrun, href, hlink, hfree⟩

end JosVmm
