import JosVmm.Pmap.Host
import JosVmm.Pmap.Forest

/-!
# Page maps — sweeping a tree

A tree of tables is taken down by removals of last-level entries and by cuts of interior entries,
each of which gives one reference up.  A sweep goes through the pages of addresses in `S` and the
tables in `T`; `due` counts the references that they stand for.

* `Trimmed ρ s s'`: from `s` to `s'`, entries are gone below `ρ`, and nothing else has changed.
* `Sweep S T s₀ s`: from `s₀` to `s`, what the counts have lost is what was due and is no more.
* `Sweep.remove`, `Sweep.cut`: a removal in `S`, and a cut of a table in `T` below which nothing is
  due any more.
-/

namespace JosVmm
open Support Support.Radix Support.Prog Support.Counting Function List Pmap

variable {S : Vpn → Prop} {T : List (Fin 512) → Prop} {R : Reading Nat} {F : Layout 512}
  {A : Finset Nat} {s₀ s s' s'' : Pmap} {r t c p q : Nat} {π ρ σ : List (Fin 512)} {i : Fin 512}
  {v : Vpn} {va : Word}

noncomputable section

/-! ### Entries that are gone -/

/-- Entries below `ρ` are gone, and nothing else of the tree of `r` has changed. -/
structure Trimmed (R : Reading Nat) (F : Layout 512) (r : Nat) (ρ : List (Fin 512))
    (s s' : Pmap) : Prop where
  tab : ∀ π, F.Node r π → tab s' r π = tab s r π ∨ (ρ <+: π ∧ π ≠ ρ) ∧ tab s' r π = none
  view : ∀ v, view R F s' r v = view R F s r v ∨ ρ <+: v.path ∧ view R F s' r v = none

theorem Trimmed.refl (s : Pmap) : Trimmed R F r ρ s s := ⟨fun _ _ => .inl rfl, fun _ => .inl rfl⟩

section

variable (h : Trimmed R F r ρ s s')
include h

theorem Trimmed.gone (hn : F.Node r π) (ht : JosVmm.tab s r π = none) :
    JosVmm.tab s' r π = none := by
  rcases h.tab π hn with e | ⟨-, e⟩
  · rw [e, ht]
  · exact e

theorem Trimmed.unmapped (hv : JosVmm.view R F s r v = none) : JosVmm.view R F s' r v = none := by
  rcases h.view v with e | ⟨-, e⟩
  · rw [e, hv]
  · exact e

/-- The tables that are not below `ρ` are kept. -/
theorem Trimmed.kept (hn : F.Node r π) (hp : ρ <+: π → π = ρ) :
    JosVmm.tab s' r π = JosVmm.tab s r π :=
  (h.tab π hn).resolve_right fun ⟨⟨h1, h2⟩, _⟩ => h2 (hp h1)

end

theorem Trimmed.trans (h1 : Trimmed R F r ρ s s') (h2 : Trimmed R F r ρ s' s'') :
    Trimmed R F r ρ s s'' where
  tab π hn := by
    rcases h2.tab π hn with e | h
    · rw [e]
      exact h1.tab π hn
    · exact .inr h
  view v := by
    rcases h2.view v with e | h
    · rw [e]
      exact h1.view v
    · exact .inr h

/-- What is below `ρ` is below what `ρ` is below of. -/
theorem Trimmed.mono (h : Trimmed R F r ρ s s') (hσ : σ <+: ρ) : Trimmed R F r σ s s' where
  tab π hn := by
    refine (h.tab π hn).imp_right fun ⟨⟨h1, h2⟩, h3⟩ => ⟨⟨hσ.trans h1, ?_⟩, h3⟩
    rintro rfl
    exact h2 (hσ.eq_of_length_le h1.length_le)
  view v := (h.view v).imp_right fun ⟨h1, h2⟩ => ⟨hσ.trans h1, h2⟩

/-! ### What is due -/

open Classical in
/-- The references that the entries in `S` and the tables in `T`, the root apart, stand for. -/
def due (S : Vpn → Prop) (T : List (Fin 512) → Prop) (R : Reading Nat) (F : Layout 512) (s : Pmap)
    (r p : Nat) : Nat :=
  fibre (fun v => if S v then view R F s r v else none) p +
    one (∃ π, π ≠ [] ∧ T π ∧ F.Table dec s.mem r π p)

theorem due_of_mem (h : s'.mem = s.mem) : due S T R F s' r p = due S T R F s r p := by
  rw [due, due, view_of_mem h, h]

theorem due_eq_zero_iff : due S T R F s r p = 0 ↔
    (∀ v, S v → view R F s r v ≠ some p) ∧ ∀ π, π ≠ [] → T π → ¬ F.Table dec s.mem r π p := by
  classical
  rw [due, Nat.add_eq_zero_iff, one_eq_zero]
  refine and_congr ⟨fun h0 v hS hv => ?_, fun h => Nat.eq_zero_of_not_pos fun hpos => ?_⟩ ?_
  · have hpos : 0 < fibre (fun v => if S v then view R F s r v else none) p :=
      fibre_pos_iff.mpr ⟨v, (if_pos hS).trans hv⟩
    omega
  · obtain ⟨v, hv⟩ := fibre_pos_iff.mp hpos
    split at hv
    · exact h v ‹_› hv
    · cases hv
  · simp only [not_exists, not_and]

/-- What a tree refers to is due, or it is in none of `S` and `T`, or it is the root. -/
theorem Wf.due_compl {D : Fin 512 → Prop} {L : List Nat} (h : Wf (single D r) s L) (p : Nat) :
    leaves R (single D r) s p + tables (single D r) s p = due S T R (single D r) s r p +
      due (fun v => ¬ S v) (fun π => ¬ T π) R (single D r) s r p + one (r = p) := by
  classical
  have hleaves : leaves R (single D r) s p = fibre (view R (single D r) s r) p :=
    Finset.sum_singleton (fun r' => fibre (view R (single D r) s r') p) r
  have hroot : (single D r).Table dec s.mem r [] r :=
    ⟨Layout.node_nil (Finset.mem_singleton_self r), rfl⟩
  have htables : tables (single D r) s p =
      one (∃ π, π ≠ [] ∧ T π ∧ (single D r).Table dec s.mem r π p) +
        one (∃ π, π ≠ [] ∧ ¬ T π ∧ (single D r).Table dec s.mem r π p) + one (r = p) := by
    by_cases hp : (single D r).IsTable dec s.mem p
    · obtain ⟨r', π, ht⟩ := hp
      obtain rfl : r' = r := Finset.mem_singleton.mp ht.1.1
      -- the page is found at `π` and nowhere else
      have huniq : ∀ {ρ}, (single D r').Table dec s.mem r' ρ p → ρ = π := fun hρ =>
        (h.tree _ _ _ _ _ hρ ht).2
      rw [tables_eq_one ht.isTable]
      by_cases hne : π = []
      · subst hne
        rw [one_not fun ⟨ρ, hρ, _, ht'⟩ => hρ (huniq ht'), one_not fun ⟨ρ, hρ, _, ht'⟩ =>
          hρ (huniq ht'), one_of (Option.some.inj ht.2)]
      · have hrp : r' ≠ p := by
          rintro rfl
          exact hne (huniq hroot).symm
        rw [one_not hrp]
        by_cases hT : T π
        · rw [one_of ⟨π, hne, hT, ht⟩, one_not fun ⟨ρ, _, hρ, ht'⟩ => hρ (huniq ht' ▸ hT)]
        · rw [one_not fun ⟨ρ, _, hρ, ht'⟩ => hT (huniq ht' ▸ hρ), one_of ⟨π, hne, hT, ht⟩]
    · have hrp : r ≠ p := by
        rintro rfl
        exact hp hroot.isTable
      rw [tables_eq_zero.mpr hp, one_not fun ⟨ρ, _, _, ht⟩ => hp ht.isTable,
        one_not fun ⟨ρ, _, _, ht⟩ => hp ht.isTable, one_not hrp]
  have hsplit := @fibre_split _ _ _ _ S (fun _ => Classical.propDecidable _)
    (fun _ => Classical.propDecidable _) (view R (single D r) s r) p
  simp only [due]
  omega

/-- A removed entry in `S` is due no more. -/
theorem Wf.due_remove {L : List Nat} {u : Nat} (h : Wf F s L) (hn : F.Node r v.path)
    (ht : tab s r v.path = some u) (hS : S v) (hv : view R F s r v = some q) :
    due S T R F (s.setWord (slot u v.last) 0) r p + one (q = p) = due S T R F s r p := by
  classical
  have hfun : (fun x => if S x then view R F (s.setWord (slot u v.last) 0) r x else none) =
      update (fun x => if S x then view R F s r x else none) v none := by
    funext x
    rw [h.view_setLeaf hn ht, R.zero]
    by_cases hx : x = v
    · subst hx
      rw [update_self, update_self, ite_self]
    · rw [update_of_ne hx, update_of_ne hx]
  have hcount := fibre_update (fun x => if S x then view R F s r x else none) v none p
  rw [if_pos hS, hv, one_not (c := none = some p) (by simp)] at hcount
  have htab : ∀ π, F.Table dec (s.setWord (slot u v.last) 0).mem r π p ↔ F.Table dec s.mem r π p :=
    fun π => and_congr_right fun hn' => by
      rw [show tableAt dec (s.setWord (slot u v.last) 0).mem r π = tableAt dec s.mem r π from
        h.tab_setLeaf hn rfl ht _ 0 hn']
  simp only [due, hfun, htab]
  simp only [Option.some.injEq] at hcount
  omega

/-- A table in `T` that is cut off is due no more. -/
theorem Wf.due_cut {L : List Nat} (h : Wf F s L) (hn : F.Node r (π ++ [i]))
    (ht : tab s r π = some t) (hc : dec (s.mem (slot t i)) = some c) (hT : T (π ++ [i]))
    (hleaf : ∀ v, π ++ [i] <+: v.path → S v → view R F s r v = none)
    (htab : ∀ σ, σ ≠ [] → T (π ++ [i] ++ σ) → tab s r (π ++ [i] ++ σ) = none) :
    due S T R F (s.setWord (slot t i) 0) r p + one (c = p) = due S T R F s r p := by
  classical
  have hcT : F.Table dec s.mem r (π ++ [i]) c := ⟨hn, (tableAt_snoc_of ht i).trans hc⟩
  have hfun : (fun x => if S x then view R F (s.setWord (slot t i) 0) r x else none) =
      fun x => if S x then view R F s r x else none := by
    funext x
    by_cases hx : S x
    · rw [if_pos hx, if_pos hx, h.view_cut hn ht hn.1]
      split
      · rename_i hp
        exact (hleaf x hp.2 hx).symm
      · rfl
    · rw [if_neg hx, if_neg hx]
  have hone : one (∃ ρ, ρ ≠ [] ∧ T ρ ∧ F.Table dec (s.setWord (slot t i) 0).mem r ρ p) +
      one (c = p) = one (∃ ρ, ρ ≠ [] ∧ T ρ ∧ F.Table dec s.mem r ρ p) := by
    by_cases hcp : c = p
    · subst hcp
      have hgone : ¬ ∃ ρ, ρ ≠ [] ∧ T ρ ∧ F.Table dec (s.setWord (slot t i) 0).mem r ρ c := by
        rintro ⟨ρ, -, -, hρ⟩
        obtain ⟨hρ, hoff⟩ := (h.table_of_cut hn ht).mp hρ
        obtain ⟨-, rfl⟩ := h.tree _ _ _ _ _ hρ hcT
        exact hoff ⟨rfl, prefix_refl _⟩
      have hthere : ∃ ρ, ρ ≠ [] ∧ T ρ ∧ F.Table dec s.mem r ρ c := ⟨π ++ [i], by simp, hT, hcT⟩
      rw [one_not hgone, one_of hthere, one_of rfl]
    · rw [one_not hcp, Nat.add_zero]
      congr 1
      refine propext (exists_congr fun ρ => and_congr_right fun _ => and_congr_right fun hTρ => ?_)
      refine (h.table_of_cut hn ht).trans (and_iff_left_of_imp fun hρ hoff => ?_)
      obtain ⟨-, σ, rfl⟩ := hoff
      by_cases hσ : σ = []
      · subst hσ
        rw [append_nil] at hρ
        exact hcp (Option.some.inj (hcT.2.symm.trans hρ.2))
      · have hnone := htab σ hσ hTρ
        rw [tab, hρ.2] at hnone
        cases hnone
  simp only [due, hfun]
  omega

/-! ### The sweep -/

/-- From `s₀` to `s`, what the counts have lost is what was due and is no more. -/
structure Sweep (S : Vpn → Prop) (T : List (Fin 512) → Prop) (R : Reading Nat) (F : Layout 512)
    (A : Finset Nat) (r : Nat) (s₀ s : Pmap) : Prop where
  acct : ∃ extra L, Acct R F A extra s L
  held : Held R F A s
  npages : s.npages = s₀.npages
  ledger : ∀ p, (s.ppRef p).toNat + due S T R F s₀ r p =
    (s₀.ppRef p).toNat + due S T R F s r p

/-- A count that is not zero goes down by one. -/
theorem Pmap.decref_toNat (h : s.ppRef q ≠ 0#16) (p : Nat) :
    ((s.decref q).ppRef p).toNat + one (q = p) = (s.ppRef p).toNat := by
  by_cases e : q = p
  · subst e
    rw [decref_ppRef, update_self, one_of rfl]
    bv_omega
  · rw [decref_ppRef_of_ne (Ne.symm e), one_not e, Nat.add_zero]

theorem Acct.ref_ne_zero {extra : Nat → Nat} {L : List Nat} (h : Acct R F A extra s L) (hp : p ∉ A)
    (hpos : 0 < leaves R F s p + tables F s p) : s.ppRef p ≠ 0#16 := fun h0 => by
  have hex := h.exact p hp
  rw [h0, BitVec.toNat_ofNat, Nat.zero_mod] at hex
  omega

/-- **A removal of an entry in `S`.** -/
theorem Sweep.remove (h : Sweep S T R F A r s₀ s) (hn : F.Node r (vpn va).path)
    (hR : R.read r = dec) (hS : S (vpn va)) :
    ∃ s', (pageRemove (some (r * 512)) va).run s = .ok ((), s') ∧ Sweep S T R F A r s₀ s' ∧
      Trimmed R F r (vpn va).path s s' ∧ view R F s' r (vpn va) = none := by
  obtain ⟨extra, L, hA⟩ := h.acct
  obtain ⟨s', L', hrun, hA', hH', ⟨rfl, -, hv⟩ | ⟨u, q, ht, hv, rfl, -⟩⟩ :=
    hA.pageRemove hn hR h.held
  · exact ⟨s', hrun, h, .refl s', hv⟩
  · have hview : view R F ((s.setWord (slot u (ptx va)) 0).decref q) r =
        update (view R F s r) (vpn va) none := by
      rw [view_of_mem decref_mem, ← vpn_last, hA.view_setLeaf hn ht, R.zero]
    refine ⟨_, hrun, ⟨⟨extra, L', hA'⟩, hH', decref_npages.trans h.npages, fun p => ?_⟩,
      ⟨fun π hπ => .inl ?_, fun x => ?_⟩, by rw [hview, update_self]⟩
    · have hpos : 0 < leaves R F s q := leaves_pos_iff.mpr ⟨r, hn.1, _, hv⟩
      have hqA : q ∉ A := fun hq => by rw [h.held q hq] at hpos; omega
      have hne : (s.setWord (slot u (ptx va)) 0).ppRef q ≠ 0#16 :=
        hA.ref_ne_zero hqA (Nat.add_pos_left hpos _)
      have h1 := decref_toNat hne p
      have h2 := hA.toWf.due_remove (T := T) (p := p) hn ht hS hv
      have h3 := h.ledger p
      rw [vpn_last] at h2
      rw [due_of_mem decref_mem]
      rw [setWord_ppRef] at h1
      omega
    · rw [tab, decref_mem]
      exact hA.tab_setLeaf hn rfl ht _ 0 hπ
    · rw [hview]
      by_cases hx : x = vpn va
      · subst hx
        exact .inr ⟨prefix_refl _, update_self ..⟩
      · exact .inl (update_of_ne hx ..)

/-- **A cut of a table in `T`**, below which nothing is due. -/
theorem Sweep.cut (h : Sweep S T R F A r s₀ s) (hn : F.Node r (π ++ [i]))
    (ht : tab s r π = some t) (hc : dec (s.mem (slot t i)) = some c) (hT : T (π ++ [i]))
    (hleaf : ∀ v, π ++ [i] <+: v.path → S v → view R F s r v = none)
    (htab : ∀ σ, σ ≠ [] → T (π ++ [i] ++ σ) → tab s r (π ++ [i] ++ σ) = none) :
    Sweep S T R F A r s₀ ((s.setWord (slot t i) 0).decref c) ∧
      Trimmed R F r π s ((s.setWord (slot t i) 0).decref c) ∧
      tab ((s.setWord (slot t i) 0).decref c) r (π ++ [i]) = none := by
  obtain ⟨extra, L, hA⟩ := h.acct
  have hcT : F.IsTable dec s.mem c := ⟨r, π ++ [i], hn, (tableAt_snoc_of ht i).trans hc⟩
  have hcA : c ∉ A := fun hc => tables_eq_zero.mp (hA.anon c hc).2.2.2.1 hcT
  obtain ⟨extra', L', hA'⟩ := hA.cut hn ht hc
  have hview : ∀ {r'}, r' ∈ F.roots → ∀ x, view R F ((s.setWord (slot t i) 0).decref c) r' x =
      if r' = r ∧ π ++ [i] <+: x.path then none else view R F s r' x := fun hr' x => by
    rw [view_of_mem decref_mem, hA.view_cut hn ht hr']
  have htab' : ∀ {ρ}, F.Node r ρ → tab ((s.setWord (slot t i) 0).decref c) r ρ =
      if r = r ∧ π ++ [i] <+: ρ then none else tab s r ρ := fun hρ => by
    rw [tab, decref_mem]
    exact hA.tab_cut hn ht hρ
  refine ⟨⟨⟨extra', L', hA'⟩, fun p hp => ?_, decref_npages.trans h.npages, fun p => ?_⟩,
    ⟨fun ρ hρ => ?_, fun x => ?_⟩, (htab' hn).trans (if_pos ⟨rfl, prefix_refl _⟩)⟩
  · -- nothing is mapped that was not
    have hle : leaves R F ((s.setWord (slot t i) 0).decref c) p ≤ leaves R F s p :=
      total_mono fun r' hr' x hx => by
        rw [hview hr'] at hx
        split at hx
        · cases hx
        · exact hx
    have := h.held p hp
    omega
  · have hne : (s.setWord (slot t i) 0).ppRef c ≠ 0#16 := by
      refine hA.ref_ne_zero hcA ?_
      rw [tables_eq_one hcT]
      omega
    have h1 := decref_toNat hne p
    have h2 := hA.toWf.due_cut (p := p) hn ht hc hT hleaf htab
    have h3 := h.ledger p
    rw [due_of_mem decref_mem]
    rw [setWord_ppRef] at h1
    omega
  · rw [htab' hρ]
    split
    · rename_i hp
      refine .inr ⟨⟨(prefix_append π [i]).trans hp.2, ?_⟩, rfl⟩
      rintro rfl
      have := hp.2.length_le
      rw [length_append, length_singleton] at this
      omega
    · exact .inl rfl
  · rw [hview hn.1]
    split
    · rename_i hp
      exact .inr ⟨(prefix_append π [i]).trans hp.2, rfl⟩
    · exact .inl rfl

end

end JosVmm
