import JosVmm.Pmap.Host

/-!
# Page maps — footprints

What `page_insert` and `page_remove` write, and what `page_lookup` reads.  The two write to the
tables of their own root, and to free pages that become tables (`pageInsert_confined`,
`pageRemove_confined`); a lookup reads the tables on its way (`lookupAt_agree`).
-/

namespace JosVmm
open Support Support.Radix Support.Prog Function Option Pmap

variable {F : Layout 512} {s s' : Pmap} {L : List Nat} {r u pp : Nat} {va : Word}
  {perm : BitVec 32}

/-! ### Lookups -/

/-- What `page_lookup` returns. -/
def lookupAt (s : Pmap) (pml4e : Option Ptr) (va : Word) : Except Panic (Option (Nat × Ptr)) :=
  ((pageLookup pml4e va).run s).map Prod.fst

/-- What it makes of the entry `e` at `pte`, with `n` pages of memory. -/
def leafAt (n : Nat) (pte : Ptr) (e : Word) : Except Panic (Option (Nat × Ptr)) :=
  if e &&& pteP = 0 then .ok none
  else if n ≤ ppn (pteAddr e) then .error (.pa2page (pteAddr e))
  else .ok (some (ppn (pteAddr e), pte))

theorem lookupAt_eq (hr : r < s.npages)
    (hc : ∀ ρ c, ρ <+: (vpn va).path → tab s r ρ = some c → c < s.npages) :
    lookupAt s (some (r * 512)) va = (tab s r (vpn va).path).elim (.ok none) fun u =>
      leafAt s.npages (slot u (ptx va)) (s.mem (slot u (ptx va))) := by
  rw [lookupAt, pageLookup, bind_ok (pml4eWalk_find va hr hc), entryAt, vpn_last]
  cases ht : tab s r (vpn va).path with
  | none => rfl
  | some u =>
    have hu : slot u (ptx va) < s.npages * 512 :=
      Radix.slot_lt (hc _ u (List.prefix_refl _) ht) _
    dsimp only [map_some, elim_some]
    rw [bind_ok (load_run hu), leafAt]
    by_cases hp : s.mem (slot u (ptx va)) &&& pteP = 0
    · rw [if_neg (not_not.mpr hp), if_pos hp]
      rfl
    · rw [if_pos hp, if_neg hp]
      by_cases hn : s.npages ≤ ppn (pteAddr (s.mem (slot u (ptx va))))
      · have hpa : (pa2page (pteAddr (s.mem (slot u (ptx va))))).run s =
            .error (.pa2page (pteAddr (s.mem (slot u (ptx va))))) := if_pos hn
        rw [bind_error hpa, if_pos hn]
        rfl
      · rw [bind_ok (pa2page_run (Nat.not_le.mp hn)), if_neg hn]
        rfl

/-- **A lookup reads the tables on its way.** -/
theorem lookupAt_agree (hnp : s'.npages = s.npages) (hr : r < s.npages)
    (hc : ∀ ρ c, ρ <+: (vpn va).path → tab s r ρ = some c → c < s.npages)
    (hm : ∀ ρ c, ρ <+: (vpn va).path → tab s r ρ = some c →
      ∀ i : Fin 512, s'.mem (slot c i) = s.mem (slot c i)) :
    lookupAt s' (some (r * 512)) va = lookupAt s (some (r * 512)) va := by
  have htab : ∀ ρ, ρ <+: (vpn va).path → tab s' r ρ = tab s r ρ := fun ρ ⟨τ, hτ⟩ => by
    refine tableAt_congr fun π i σ u e hu => ?_
    rw [hm π u ⟨i :: σ ++ τ, by rw [← hτ, e, List.append_assoc]⟩ hu i]
  rw [lookupAt_eq hr hc, lookupAt_eq (by rw [hnp]; exact hr) fun ρ c hρ ht => by
    rw [hnp]
    exact hc ρ c hρ ((htab ρ hρ).symm.trans ht), htab _ (List.prefix_refl _), hnp]
  cases ht : tab s r (vpn va).path with
  | none => rfl
  | some u =>
    dsimp only [elim_some]
    rw [hm _ u (List.prefix_refl _) ht]

/-- Roots whose entries for `va` lead to the same table look the same up. -/
theorem lookupAt_shared {r' : Nat} (hr : r < s.npages) (hr' : r' < s.npages)
    (hd : dec (s.mem (slot r (pml4 va))) = dec (s.mem (slot r' (pml4 va)))) :
    lookupAt s (some (r * 512)) va = lookupAt s (some (r' * 512)) va := by
  have hwalk : (pml4eWalk (some (r * 512)) va false).run s =
      (pml4eWalk (some (r' * 512)) va false).run s := by
    rw [pml4eWalk, pml4eWalk, walkLevel, walkLevel, bind_ok (load_entry hr _),
      bind_ok (load_entry hr' _), if_neg (c := _ ∧ false = true) (by simp),
      if_neg (c := _ ∧ false = true) (by simp)]
    cases hc : dec (s.mem (slot r (pml4 va))) with
    | none =>
      rw [hc] at hd
      rw [if_neg (not_not.mpr (dec_eq_none.mp hc)), if_neg (not_not.mpr (dec_eq_none.mp hd.symm))]
    | some c =>
      rw [hc] at hd
      rw [if_pos (dec_eq_some.mp hc).1, if_pos (dec_eq_some.mp hd.symm).1, pteAddr_of_dec hc,
        pteAddr_of_dec hd.symm]
  rw [lookupAt, lookupAt, pageLookup, pageLookup, StateT.run_bind, StateT.run_bind, hwalk]

/-! ### Writes -/

/-- What an operation on the tables of `F` may change: free pages, and entries of the tables.  No
table moves, and the entries of a root that do not belong to `F` are kept. -/
structure Confined (F : Layout 512) (L : List Nat) (s s' : Pmap) : Prop where
  npages : s'.npages = s.npages
  frame : ∀ a, a / 512 ∉ L → ¬ F.IsTable dec s.mem (a / 512) → s'.mem a = s.mem a
  old : ∀ r π t, F.Node r π → tab s r π = some t → tab s' r π = some t
  outer : ∀ r ∈ F.roots, ∀ i : Fin 512, ¬ F.dom r i → s'.mem (slot r i) = s.mem (slot r i)

theorem Confined.refl (s : Pmap) : Confined F L s s :=
  ⟨rfl, fun _ _ _ => rfl, fun _ _ _ _ h => h, fun _ _ _ _ => rfl⟩

/-- A last-level entry changes. -/
theorem Wf.confined {v : Vpn} {w : Word} (h : Wf F s L) (hn : F.Node r v.path)
    (ht : tab s r v.path = some u) (hm : s'.mem = (s.setWord (slot u v.last) w).mem)
    (hnp : s'.npages = s.npages) : Confined F L s s' where
  npages := hnp
  frame a _ ha := by
    rw [hm]
    refine setWord_of_ne fun e => ha ?_
    rw [e, slot_div]
    exact ⟨r, _, hn, ht⟩
  old r' π t hn' ht' := by
    rw [tab, hm]
    exact (h.tab_setLeaf hn rfl ht _ w hn').trans ht'
  outer r' hr' i _ := by
    rw [hm]
    refine setWord_of_ne fun e => ?_
    -- a root is no last-level table
    obtain ⟨rfl, -⟩ := slot_inj.mp e
    obtain ⟨-, hπ⟩ := h.tree _ _ _ _ _ ⟨Layout.node_nil hr', rfl⟩ ⟨hn, ht⟩
    cases hπ

/-- A growth, and then a change in the tables there are now. -/
theorem Grown.confined {s1 : Pmap} {new L' : List Nat} (g : Grown F s s1 new L')
    (h : Confined F L' s1 s') : Confined F (new ++ L') s s' where
  npages := h.npages.trans g.npages
  frame a ha hT := by
    rw [List.mem_append, not_or] at ha
    rw [h.frame a ha.2 fun hp => (g.isTable_iff.mp hp).elim hT ha.1]
    exact g.frame a ha.1 hT
  old r π t hn ht := h.old r π t hn (g.old r π t hn ht)
  outer r hr i hi := (h.outer r hr i hi).trans (g.outer r hr i hi)

section

variable (h : Wf F s L) (hn : F.Node r (vpn va).path)
include h hn

theorem Wf.prefix_lt (ρ : List (Fin 512)) (c : Nat) (hρ : ρ <+: (vpn va).path)
    (hc : tab s r ρ = some c) : c < s.npages := by
  obtain ⟨τ, hτ⟩ := hρ
  exact h.tab_lt (Layout.Node.of_append (σ := τ) (hτ ▸ hn)) hc

/-- A removal clears the entry it finds, and nothing else of memory. -/
theorem pageRemove_eq_ok (hrun : (pageRemove (some (r * 512)) va).run s = .ok ((), s')) : s' = s ∨
      ∃ u q, tab s r (vpn va).path = some u ∧ dec (s.mem (slot u (ptx va))) = some q ∧
        s' = (s.setWord (slot u (ptx va)) 0).decref q := by
  cases hf : found s r va with
  | none =>
    cases (pageRemove_none h hn hf).symm.trans hrun
    exact .inl rfl
  | some x =>
    obtain ⟨u, ht, hx⟩ := Option.bind_eq_some_iff.mp hf
    obtain ⟨q, hd, -⟩ := Option.map_eq_some_iff.mp hx
    refine .inr ⟨u, q, ht, hd, ?_⟩
    -- the entry names a page of the machine, or the lookup would have failed
    have hq : q < s.npages := by
      by_contra hq
      obtain ⟨o, s1, hlook, -⟩ := bind_inv hrun
      obtain ⟨hp, rfl⟩ := dec_eq_some.mp hd
      have hfail := lookupAt_eq (h.tab_lt hn.root rfl) (h.prefix_lt hn)
      rw [lookupAt, hlook, ht, elim_some, leafAt, if_neg hp, ppn_pteAddr,
        if_pos (Nat.not_lt.mp hq)] at hfail
      cases hfail
    cases (pageRemove_some h hn ht hd hq).symm.trans hrun
    rfl

/-- **What a removal writes.** -/
theorem pageRemove_confined (hrun : (pageRemove (some (r * 512)) va).run s = .ok ((), s')) :
    Confined F L s s' := by
  obtain rfl | ⟨u, q, ht, -, rfl⟩ := pageRemove_eq_ok h hn hrun
  · exact .refl s'
  · exact h.confined hn ht decref_mem decref_npages

/-- The last part of an insertion changes the entry. -/
theorem pageMap_mem {x : Unit} (ht : tab s r (vpn va).path = some u)
    (hrun : (pageMap (r * 512) (slot u (ptx va)) pp va perm).run s = .ok (x, s')) :
    s'.npages = s.npages ∧ ∃ w, s'.mem = (s.setWord (slot u (ptx va)) w).mem := by
  rw [pageMap, bind_ok (load_run (h.slot_lt hn ht _))] at hrun
  split at hrun
  · rw [store_eq_ok hrun]
    exact ⟨rfl, _, rfl⟩
  · -- the page is counted and stored in the entry, which has been emptied or was empty
    have hstore : ∀ {s1}, (do incRef pp; store (slot u (ptx va)) (pteLeaf pp perm) : Pm Unit).run
        s1 = .ok (x, s') → s1.npages = s.npages →
        (∃ w, s1.mem = (s.setWord (slot u (ptx va)) w).mem) →
        s'.npages = s.npages ∧ ∃ w, s'.mem = (s.setWord (slot u (ptx va)) w).mem := by
      rintro s1 hrun hnp ⟨w, hw⟩
      rw [bind_ok (incRef_run s1 pp)] at hrun
      refine ⟨(congrArg Pmap.npages (store_eq_ok hrun)).trans hnp, pteLeaf pp perm, ?_⟩
      rw [store_eq_ok hrun, setWord_mem, setRef_mem, hw, setWord_mem, update_idem, setWord_mem]
    split at hrun
    · obtain ⟨_, s1, hrem, hrest⟩ := bind_inv hrun
      obtain rfl | ⟨u', q, ht', -, rfl⟩ := pageRemove_eq_ok h hn hrem
      · exact hstore hrest rfl ⟨_, (update_eq_self ..).symm⟩
      · cases ht.symm.trans ht'
        exact hstore hrest decref_npages ⟨0, decref_mem⟩
    · exact hstore hrun rfl ⟨_, (update_eq_self ..).symm⟩

/-- **What an insertion writes.** -/
theorem pageInsert_confined {res : Except Err Unit} (hperm : perm.toNat < 4096)
    (hrun : (pageInsert (some (r * 512)) (some pp) va perm).run s = .ok (res, s')) :
    Confined F L s s' := by
  rcases Nat.lt_or_ge L.length (missing dec s.mem r (vpn va).path) with hlt | hle
  · obtain ⟨m, hrun', hm⟩ := pageInsert_noMem pp perm h hn hlt
    cases hrun'.symm.trans hrun
    have hoff : ∀ t, F.IsTable dec s.mem t → ∀ i : Fin 512, m (slot t i) = s.mem (slot t i) :=
      fun t ht i => hm _ (by rw [slot_div]; exact h.table_not_free t ht)
    exact ⟨rfl, fun a ha _ => hm a ha, fun r π t hn ht => (Layout.tableAt_agree hoff hn).trans ht,
      fun r hr i _ => hoff r (Layout.isTable_root hr) i⟩
  · obtain ⟨s₀, s1, new, L', u, rfl, -, hwalk, hgrant, hg, ht, -⟩ := walk_grant h hn hperm hle
    rw [pageInsert, bind_ok hwalk] at hrun
    rw [bind_ok hgrant] at hrun
    obtain ⟨_, s2, hmap, hrun⟩ := bind_inv hrun
    cases hrun
    obtain ⟨hnp, w, hmem⟩ := pageMap_mem hg.wf hn ht hmap
    exact hg.confined (hg.wf.confined hn ht hmem hnp)

/-- A table that an insertion adds is on the way to its address. -/
theorem pageInsert_grows {r' t : Nat} {π : List (Fin 512)} (hperm : perm.toNat < 4096)
    (hrun : (pageInsert (some (r * 512)) (some pp) va perm).run s = .ok (.ok (), s'))
    (hπ : F.Node r' π) (ht : tab s' r' π = some t) :
    tab s r' π = some t ∨ r' = r ∧ π <+: (vpn va).path := by
  rcases Nat.lt_or_ge L.length (missing dec s.mem r (vpn va).path) with hlt | hle
  · obtain ⟨m, hrun', -⟩ := pageInsert_noMem pp perm h hn hlt
    cases hrun'.symm.trans hrun
  · obtain ⟨s₀, s1, new, L', u, rfl, hlen, hwalk, hgrant, hg, hu, -⟩ := walk_grant h hn hperm hle
    rw [pageInsert, bind_ok hwalk] at hrun
    rw [bind_ok hgrant] at hrun
    obtain ⟨_, s2, hmap, hrun⟩ := bind_inv hrun
    cases hrun
    obtain ⟨-, w, hmem⟩ := pageMap_mem hg.wf hn hu hmap
    rw [tab, hmem] at ht
    have ht1 : tab s1 r' π = some t := (hg.wf.tab_setLeaf hn rfl hu _ w hπ).symm.trans ht
    rcases hg.fresh r' π t hπ ht1 with h0 | ⟨h0, -⟩
    · exact .inl h0
    · exact .inr (hg.on_path hn hu hlen hπ h0 ht1)

end

/-! ### Lookups and views -/

/-- A page that is found at `va` is mapped there. -/
theorem Wf.view_of_lookupAt {R : Reading Nat} {pte : Ptr} (h : Wf F s L)
    (hn : F.Node r (vpn va).path) (hR : R.read r = dec)
    (hlook : lookupAt s (some (r * 512)) va = .ok (some (pp, pte))) :
    view R F s r (vpn va) = some pp := by
  rw [lookupAt_eq (h.tab_lt hn.root rfl) (h.prefix_lt hn)] at hlook
  cases ht : tab s r (vpn va).path with
  | none =>
    rw [ht] at hlook
    cases hlook
  | some u =>
    rw [ht, elim_some, leafAt] at hlook
    rw [view_of_tab hn ht, hR, vpn_last]
    split at hlook
    · cases hlook
    · rename_i hp
      split at hlook
      · cases hlook
      · rw [dec_of_present hp, ← ppn_pteAddr]
        cases hlook
        rfl

theorem Wf.lookupAt_of_view {R : Reading Nat} (h : Wf F s L) (hn : F.Node r (vpn va).path)
    (hR : R.read r = dec) (hv : view R F s r (vpn va) = some pp) (hlt : pp < s.npages) :
    ∃ pte, lookupAt s (some (r * 512)) va = .ok (some (pp, pte)) := by
  obtain ⟨-, u, ht, hd⟩ := exists_tab_of_view hv
  rw [hR, vpn_last] at hd
  obtain ⟨hp, hpp⟩ := dec_eq_some.mp hd
  refine ⟨slot u (ptx va), ?_⟩
  rw [lookupAt_eq (h.tab_lt hn.root rfl) (h.prefix_lt hn), ht, elim_some, leafAt, if_neg hp,
    ppn_pteAddr, hpp, if_neg (Nat.not_le.mpr hlt)]

end JosVmm
