import JosVmm.Support.Counting
import JosVmm.Pmap.View

/-!
# Page maps — reference accounts

Which references a page's `pp_ref` stands for.  In an accounted state (`Acct`) the count of every
page is the number of entries that map it, plus one if it is a table, plus a given number `extra`
of references held elsewhere.  The set `A` holds the allocated pages that are not counted: their
count is zero, and at most one entry maps them.

The steps of the kernel move references between these places:

* `Acct.grown`: new tables are counted once;
* `Acct.drop`, `Acct.put`: an entry gives its reference up to `extra`, or takes one from it;
* `Acct.incRef`, `Acct.decref`: a reference joins or leaves `extra`, and a page that loses its
  last reference joins the free list;
* `Acct.alloc`: the head of the free list becomes an uncounted page.
-/

namespace JosVmm
open Support Support.Radix Support.Counting Function List Finset Pmap
open Function (update_self update_of_ne)

variable {R : Reading Nat} {F : Layout 512} {A : Finset Nat} {extra : Nat → Nat} {s s' : Pmap}
  {L L' new : List Nat} {r u p q : Nat} {v : Vpn} {w : Word}

noncomputable section

/-- How many present last-level entries name the page `p`. -/
def leaves (R : Reading Nat) (F : Layout 512) (s : Pmap) (p : Nat) : Nat :=
  total F.roots (view R F s) p

open Classical in
/-- One if `p` is in use as a table. -/
def tables (F : Layout 512) (s : Pmap) (p : Nat) : Nat := one (F.IsTable dec s.mem p)

/-- Every reference is accounted for. -/
structure Acct (R : Reading Nat) (F : Layout 512) (A : Finset Nat) (extra : Nat → Nat) (s : Pmap)
    (L : List Nat) : Prop extends Wf F s L where
  exact : ∀ p, p ∉ A → (s.ppRef p).toNat = leaves R F s p + tables F s p + extra p
  anon : ∀ p ∈ A, p ∉ L ∧ s.ppRef p = 0#16 ∧ leaves R F s p ≤ 1 ∧ tables F s p = 0 ∧ extra p = 0
  anon_lt : ∀ p ∈ A, p < s.npages
  zero : ∀ p < s.npages, s.ppRef p = 0#16 → p ∈ L ∨ p ∈ A
  mapped_lt : ∀ p, 0 < leaves R F s p → p < s.npages

theorem tables_eq_one (h : F.IsTable dec s.mem p) : tables F s p = 1 := if_pos h

theorem tables_eq_zero : tables F s p = 0 ↔ ¬ F.IsTable dec s.mem p := by
  unfold tables one
  split <;> simp_all

theorem tables_le_one : tables F s p ≤ 1 := by
  unfold tables one
  split <;> omega

theorem tables_congr (h : F.IsTable dec s'.mem p ↔ F.IsTable dec s.mem p) :
    tables F s' p = tables F s p := by
  unfold tables
  congr 1
  exact propext h

theorem leaves_pos_iff : 0 < leaves R F s p ↔ ∃ r ∈ F.roots, ∃ v, view R F s r v = some p :=
  total_pos_iff

section

variable (h : Wf F s L) (hn : F.Node r v.path) (ht : tab s r v.path = some u)
include h hn ht

/-- The counts after a last-level store. -/
theorem Wf.leaves_setLeaf (w : Word) (p : Nat) :
    leaves R F (s.setWord (slot u v.last) w) p + one (view R F s r v = some p) =
      leaves R F s p + one (R.read r w = some p) :=
  total_update hn.1 (h.view_setLeaf hn ht w)
    (fun _ hr' hne => h.view_setLeaf_of_ne hn ht w hr' hne) p

theorem Wf.tables_setLeaf (w : Word) (p : Nat) :
    tables F (s.setWord (slot u v.last) w) p = tables F s p :=
  tables_congr (Layout.isTable_congr fun _ _ hn' => h.tab_setLeaf hn rfl ht _ w hn')

end

theorem leaves_of_mem (h : s'.mem = s.mem) (p : Nat) : leaves R F s' p = leaves R F s p := by
  rw [leaves, leaves, view_of_mem h]

theorem tables_of_mem (h : s'.mem = s.mem) (p : Nat) : tables F s' p = tables F s p :=
  tables_congr (by rw [h])

@[simp] theorem leaves_setRef (c : BitVec 16) :
    leaves R F (s.setRef p c) q = leaves R F s q := leaves_of_mem rfl q
@[simp] theorem leaves_give : leaves R F (s.give p) q = leaves R F s q := leaves_of_mem rfl q
@[simp] theorem leaves_take : leaves R F (s.take p) q = leaves R F s q := leaves_of_mem rfl q
@[simp] theorem leaves_decref : leaves R F (s.decref p) q = leaves R F s q :=
  leaves_of_mem decref_mem q
@[simp] theorem tables_setRef (c : BitVec 16) : tables F (s.setRef p c) q = tables F s q :=
  tables_of_mem rfl q
@[simp] theorem tables_give : tables F (s.give p) q = tables F s q := tables_of_mem rfl q
@[simp] theorem tables_take : tables F (s.take p) q = tables F s q := tables_of_mem rfl q

/-! ### Accounts under each change -/

namespace Acct

theorem ref_of_free (h : Acct R F A extra s L) (hp : p ∈ L) :
    leaves R F s p = 0 ∧ tables F s p = 0 ∧ extra p = 0 := by
  have hA : p ∉ A := fun hA => (h.anon p hA).1 hp
  have := h.exact p hA
  rw [h.ref p hp] at this
  simp only [BitVec.toNat_ofNat, Nat.zero_mod] at this
  omega

/-- Readings that agree on the roots give the same account. -/
theorem reading {R' : Reading Nat} (h : Acct R F A extra s L)
    (hR : ∀ r ∈ F.roots, R'.read r = R.read r) : Acct R' F A extra s L := by
  have hleaves : ∀ p, leaves R' F s p = leaves R F s p :=
    total_congr fun r hr => by
      funext v
      rw [view, view, hR r hr]
  refine ⟨h.toWf, fun p hp => ?_, fun p hp => ?_, h.anon_lt, h.zero, fun p hp => ?_⟩
  · rw [hleaves]
    exact h.exact p hp
  · rw [hleaves]
    exact h.anon p hp
  · rw [hleaves] at hp
    exact h.mapped_lt p hp

/-- A page on the free list is mapped nowhere. -/
theorem not_mapped (h : Acct R F A extra s L) (hp : p ∈ L) (hr : r ∈ F.roots) :
    view R F s r v ≠ some p := fun hv => by
  have := leaves_pos_iff.mpr ⟨r, hr, v, hv⟩
  have := (h.ref_of_free hp).1
  omega

/-- **A growth** turns free pages into tables, each counted once. -/
theorem grown (h : Acct R F A extra s (new ++ L')) (g : Grown F s s' new L') :
    Acct R F A extra s' L' := by
  have hleaves : ∀ p, leaves R F s' p = leaves R F s p := fun p =>
    total_congr (fun r hr => g.view h.toWf hr) p
  have htables : ∀ p, p ∉ new → tables F s' p = tables F s p := fun p hp =>
    tables_congr (g.isTable_iff.trans (or_iff_left hp))
  exact
    { toWf := g.wf
      exact := fun p hp => by
        rw [g.ref, hleaves]
        by_cases hn : p ∈ new
        · obtain ⟨h1, -, h3⟩ := h.ref_of_free (mem_append_left L' hn)
          rw [if_pos hn, h1, h3, tables_eq_one (g.isTable p hn)]
          rfl
        · rw [if_neg hn, htables p hn]
          exact h.exact p hp
      anon := fun p hp => by
        obtain ⟨hL, h1, h2, h3, h4⟩ := h.anon p hp
        have hn : p ∉ new := fun hn => hL (mem_append_left L' hn)
        rw [g.ref, if_neg hn, hleaves, htables p hn]
        exact ⟨fun hp => hL (mem_append_right new hp), h1, h2, h3, h4⟩
      anon_lt := fun p hp => g.npages ▸ h.anon_lt p hp
      zero := fun p hp h0 => by
        rw [g.ref] at h0
        split at h0
        · cases h0
        · exact (h.zero p (g.npages ▸ hp) h0).imp_left fun hL =>
            (List.mem_append.mp hL).resolve_left ‹_›
      mapped_lt := fun p hp => by
        rw [g.npages]
        exact h.mapped_lt p (hleaves p ▸ hp) }

/-- A store off the tables. -/
theorem withMem (h : Acct R F A extra s L) {m : Nat → Word}
    (hm : ∀ t, F.IsTable dec s.mem t → ∀ i : Fin 512, m (slot t i) = s.mem (slot t i)) :
    Acct R F A extra (s.withMem m) L := by
  have hleaves : ∀ p, leaves R F (s.withMem m) p = leaves R F s p := fun p =>
    total_congr (fun r hr => h.view_withMem hm hr) p
  have htables : ∀ p, tables F (s.withMem m) p = tables F s p := fun p =>
    tables_congr (Layout.isTable_congr fun r π hn => Layout.tableAt_agree hm hn)
  exact
    { toWf := h.toWf.setMem hm
      exact := fun p hp => by rw [hleaves, htables]; exact h.exact p hp
      anon := fun p hp => by rw [hleaves, htables]; exact h.anon p hp
      anon_lt := h.anon_lt
      zero := h.zero
      mapped_lt := fun p hp => h.mapped_lt p (hleaves p ▸ hp) }

section

variable (h : Acct R F A extra s L) (hn : F.Node r v.path) (ht : tab s r v.path = some u)
include h hn ht

/-- **An entry is emptied**: its reference, if it was counted, is held elsewhere now. -/
theorem drop (hw : R.read r w = none) :
    Acct R F A (fun p => extra p + one (p ∉ A ∧ view R F s r v = some p))
      (s.setWord (slot u v.last) w) L := by
  have hl : ∀ p, leaves R F (s.setWord (slot u v.last) w) p + one (view R F s r v = some p) =
      leaves R F s p := fun p => by
    have := h.leaves_setLeaf (R := R) hn ht w p
    simpa only [hw, reduceCtorEq, one_not, not_false_eq_true, Nat.add_zero] using this
  exact
    { toWf := h.setLeaf hn rfl ht _ w
      exact := fun p hp => by
        have h1 := hl p
        have h2 := h.exact p hp
        rw [h.tables_setLeaf hn ht, setWord_ppRef]
        simp only [hp, not_false_eq_true, true_and]
        omega
      anon := fun p hp => by
        obtain ⟨hL, hr, h2, h3, h4⟩ := h.anon p hp
        have h1 := hl p
        rw [h.tables_setLeaf hn ht]
        refine ⟨hL, hr, by omega, h3, ?_⟩
        rw [one_not fun hc => hc.1 hp, h4]
      anon_lt := h.anon_lt
      zero := h.zero
      mapped_lt := fun p hp => by
        have h1 := hl p
        exact h.mapped_lt p (by omega) }

/-- **An empty entry is filled** with a counted page; its reference was held elsewhere. -/
theorem put (hv : view R F s r v = none) (hw : R.read r w = some p) (hp : p ∉ A)
    (hlt : p < s.npages) (hex : 0 < extra p) :
    Acct R F A (update extra p (extra p - 1)) (s.setWord (slot u v.last) w) L := by
  have hl : ∀ q, leaves R F (s.setWord (slot u v.last) w) q = leaves R F s q + one (p = q) := by
    intro q
    have := h.leaves_setLeaf (R := R) hn ht w q
    simpa only [hv, hw, Option.some.injEq, reduceCtorEq, one_not, not_false_eq_true,
      Nat.add_zero] using this
  exact
    { toWf := h.setLeaf hn rfl ht _ w
      exact := fun q hq => by
        have h2 := h.exact q hq
        rw [hl, h.tables_setLeaf hn ht, setWord_ppRef]
        by_cases e : q = p
        · subst e
          rw [update_self, one_of rfl]
          omega
        · rw [update_of_ne e, one_not (Ne.symm e)]
          omega
      anon := fun q hq => by
        have e : q ≠ p := by rintro rfl; exact hp hq
        rw [hl, h.tables_setLeaf hn ht, one_not (Ne.symm e), update_of_ne e]
        exact h.anon q hq
      anon_lt := h.anon_lt
      zero := h.zero
      mapped_lt := fun q hq => by
        rw [hl] at hq
        by_cases e : p = q
        · exact e ▸ hlt
        · rw [one_not e] at hq
          exact h.mapped_lt q hq }

/-- An empty entry is filled with an uncounted page that is mapped nowhere. -/
theorem putAnon (hv : view R F s r v = none) (hw : R.read r w = some p) (hp : p ∈ A)
    (hlt : p < s.npages) (h0 : leaves R F s p = 0) :
    Acct R F A extra (s.setWord (slot u v.last) w) L := by
  have hl : ∀ q, leaves R F (s.setWord (slot u v.last) w) q = leaves R F s q + one (p = q) := by
    intro q
    have := h.leaves_setLeaf (R := R) hn ht w q
    simpa only [hv, hw, Option.some.injEq, reduceCtorEq, one_not, not_false_eq_true,
      Nat.add_zero] using this
  exact
    { toWf := h.setLeaf hn rfl ht _ w
      exact := fun q hq => by
        have e : p ≠ q := by rintro rfl; exact hq hp
        rw [hl, h.tables_setLeaf hn ht, one_not e]
        exact h.exact q hq
      anon := fun q hq => by
        obtain ⟨hL, h1, h2, h3, h4⟩ := h.anon q hq
        rw [hl, h.tables_setLeaf hn ht]
        refine ⟨hL, h1, ?_, h3, h4⟩
        by_cases e : p = q
        · subst e; rw [h0, one_of rfl]
        · rw [one_not e]; omega
      anon_lt := h.anon_lt
      zero := h.zero
      mapped_lt := fun q hq => by
        rw [hl] at hq
        by_cases e : p = q
        · exact e ▸ hlt
        · rw [one_not e] at hq
          exact h.mapped_lt q hq }

/-- **An entry is overwritten.**  Of the references held elsewhere, `m` remain, as long as the
new entry's own one is to spare, or its page was mapped here before, or is not counted. -/
theorem overwrite {m : Nat → Nat} 
    (w : Word) (hm : ∀ q, m q ≤ extra q)
    (hfit : ∀ p, R.read r w = some p → p < s.npages ∧
      (view R F s r v = some p ∨ p ∉ A ∧ m p < extra p ∨ p ∈ A ∧ leaves R F s p = 0)) :
    ∃ extra', Acct R F A extra' (s.setWord (slot u v.last) w) L ∧ ∀ q, m q ≤ extra' q := by
  cases hw : R.read r w with
  | none => exact ⟨_, h.drop hn ht hw, fun q => Nat.le_trans (hm q) (Nat.le_add_right ..)⟩
  | some p =>
    obtain ⟨hlt, hp⟩ := hfit p hw
    -- empty the entry first
    have h0 := h.drop hn ht (R.zero r)
    have ht0 : tab (s.setWord (slot u v.last) 0) r v.path = some u :=
      (h.tab_setLeaf hn rfl ht _ 0 hn).trans ht
    have hv0 : view R F (s.setWord (slot u v.last) 0) r v = none := by
      rw [h.view_setLeaf hn ht, update_self, R.zero]
    by_cases hA : p ∈ A
    · refine ⟨_, s.setWord_setWord _ 0 w ▸ h0.putAnon hn ht0 hv0 hw hA hlt ?_,
        fun q => Nat.le_trans (hm q) (Nat.le_add_right ..)⟩
      have hl := h.leaves_setLeaf (R := R) hn ht 0 p
      rw [R.zero, one_not (c := none = some p) (by simp)] at hl
      rcases hp with hv | ⟨hp, -⟩ | ⟨-, hp⟩
      · have := (h.anon p hA).2.2.1
        rw [one_of hv] at hl
        omega
      · exact absurd hA hp
      · omega
    · have hone : one (p ∉ A ∧ view R F s r v = some p) = one (view R F s r v = some p) := by
        simp only [hA, not_false_eq_true, true_and]
      have hspare : m p < extra p + one (p ∉ A ∧ view R F s r v = some p) := by
        have := hm p
        rcases hp with hv | ⟨-, hp⟩ | ⟨hp, -⟩
        · rw [hone, one_of hv]
          omega
        · omega
        · exact absurd hp hA
      refine ⟨_, s.setWord_setWord _ 0 w ▸ h0.put hn ht0 hv0 hw hA hlt (by omega), fun q => ?_⟩
      by_cases e : q = p
      · subst e
        rw [update_self]
        omega
      · rw [update_of_ne e]
        exact Nat.le_trans (hm q) (Nat.le_add_right ..)

end

section

variable (h : Acct R F A extra s L)
include h

/-- The count of a page off the free list is set to cover its entries, its use as a table, and
`e` other references. -/
theorem setRef (hp : p ∉ L) {c : BitVec 16} {e : Nat} (h0 : c ≠ 0#16)
    (hc : c.toNat = leaves R F s p + tables F s p + e) :
    Acct R F (A.erase p) (update extra p e) (s.setRef p c) L where
  toWf := h.toWf.setFree (h.toFreeList.setRef hp c) rfl rfl
  exact q hq := by
    rw [leaves_setRef, tables_setRef, setRef_ppRef]
    by_cases hqp : q = p
    · subst hqp
      rw [update_self, update_self, hc]
    · rw [update_of_ne hqp, update_of_ne hqp]
      exact h.exact q fun hA => hq (Finset.mem_erase.mpr ⟨hqp, hA⟩)
  anon q hq := by
    obtain ⟨hqp, hA⟩ := Finset.mem_erase.mp hq
    rw [leaves_setRef, tables_setRef, setRef_ppRef, update_of_ne hqp, update_of_ne hqp]
    exact h.anon q hA
  anon_lt q hq := h.anon_lt q (mem_of_mem_erase hq)
  zero q hq hz := by
    rw [setRef_ppRef] at hz
    by_cases hqp : q = p
    · subst hqp
      rw [update_self] at hz
      exact absurd hz h0
    · rw [update_of_ne hqp] at hz
      exact (h.zero q hq hz).imp_right fun hA => Finset.mem_erase.mpr ⟨hqp, hA⟩
  mapped_lt q hq := h.mapped_lt q (by rwa [leaves_setRef] at hq)

/-- A page that nothing refers to any more joins the free list. -/
theorem give (hp : p ∉ L) (hlt : p < s.npages) (hl : leaves R F s p = 0) (ht : tables F s p = 0) :
    Acct R F (A.erase p) (update extra p 0) (s.give p) (p :: L) where
  toFreeList := h.toFreeList.give hp hlt
  depth := h.depth
  tree := h.tree
  table_lt := h.table_lt
  table_not_free t hT hmem := by
    rcases List.mem_cons.mp hmem with rfl | hmem
    · exact tables_eq_zero.mp ht hT
    · exact h.table_not_free t hT hmem
  absent := h.absent
  exact q hq := by
    rw [leaves_give, tables_give, give_ppRef]
    by_cases hqp : q = p
    · subst hqp
      rw [update_self, update_self, hl, ht]
      rfl
    · rw [update_of_ne hqp, update_of_ne hqp]
      exact h.exact q fun hA => hq (Finset.mem_erase.mpr ⟨hqp, hA⟩)
  anon q hq := by
    obtain ⟨hqp, hA⟩ := Finset.mem_erase.mp hq
    obtain ⟨hL, h1, h2⟩ := h.anon q hA
    rw [leaves_give, tables_give, give_ppRef, update_of_ne hqp, update_of_ne hqp]
    exact ⟨by simp [hqp, hL], h1, h2⟩
  anon_lt q hq := h.anon_lt q (mem_of_mem_erase hq)
  zero q hq hz := by
    by_cases hqp : q = p
    · exact .inl (hqp ▸ mem_cons_self ..)
    · rw [give_ppRef, update_of_ne hqp] at hz
      exact (h.zero q hq hz).imp (mem_cons_of_mem p)
        fun hA => Finset.mem_erase.mpr ⟨hqp, hA⟩
  mapped_lt q hq := h.mapped_lt q (by rwa [leaves_give] at hq)

/-- **A reference is counted**; the first one of a page that was not counted makes it so. -/
theorem incRef (hpL : p ∉ L) (hmax : (s.ppRef p).toNat < 65535) (hpA : p ∈ A → leaves R F s p = 0) :
    Acct R F (A.erase p) (update extra p (extra p + 1))
      (s.setRef p (s.ppRef p + 1#16)) L := by
  have hsum : (s.ppRef p + 1#16).toNat = (s.ppRef p).toNat + 1 := by
    simp
    omega
  refine h.setRef hpL (fun hz => by rw [hz] at hsum; simp at hsum) ?_
  rw [hsum]
  by_cases hp : p ∈ A
  · obtain ⟨-, h1, -, h3, h4⟩ := h.anon p hp
    rw [h1, hpA hp, h3, h4]
    rfl
  · rw [h.exact p hp]
    omega

/-- **A counted reference is given up**, and the page is freed with the last one. -/
theorem decref (hpA : p ∉ A) (hlt : p < s.npages) (hex : 0 < extra p) :
    ∃ L', Acct R F A (update extra p (extra p - 1)) (s.decref p) L' ∧
      (L' = L ∨ L' = p :: L) := by
  have hexact := h.exact p hpA
  have hpL : p ∉ L := fun hp => by
    have := (h.ref_of_free hp).2.2
    omega
  rw [Pmap.decref]
  by_cases hone : s.ppRef p = 1#16
  · -- the last reference
    rw [hone, BitVec.toNat_ofNat] at hexact
    rw [if_pos ⟨hone, h.unlinked p hpL⟩]
    refine ⟨p :: L, ?_, .inr rfl⟩
    have h1 := h.give hpL hlt (by omega) (by omega)
    rwa [erase_eq_of_notMem hpA, show 0 = extra p - 1 by omega] at h1
  · rw [if_neg fun hc => hone hc.1]
    refine ⟨L, ?_, .inl rfl⟩
    have h1 := h.setRef hpL (c := s.ppRef p - 1#16) (e := extra p - 1) (by bv_omega) (by
      have : (s.ppRef p - 1#16).toNat = (s.ppRef p).toNat - 1 := by bv_omega
      omega)
    rwa [erase_eq_of_notMem hpA] at h1

/-- Giving up a reference to an uncounted page wraps its count around, and the page is lost. -/
theorem decrefAnon (hpA : p ∈ A) (h0 : leaves R F s p = 0) :
    Acct R F (A.erase p) (update extra p 65535) (s.decref p) L := by
  obtain ⟨hL, h1, -, h3, -⟩ := h.anon p hpA
  rw [Pmap.decref, if_neg (by rw [h1]; simp)]
  refine h.setRef hL (by rw [h1]; decide) ?_
  rw [h1, h0, h3]
  rfl

end

/-- **The head of the free list is handed out**, uncounted. -/
theorem alloc (h : Acct R F A extra s (p :: L)) : Acct R F (insert p A) extra (s.take p) L where
  toWf := h.toWf.take
  exact q hq := by
    exact h.exact q fun hA => hq (mem_insert_of_mem hA)
  anon q hq := by
    rw [leaves_take, tables_take]
    rcases Finset.mem_insert.mp hq with rfl | hq
    · obtain ⟨h1, h2, h3⟩ := h.ref_of_free (mem_cons_self ..)
      exact ⟨(List.nodup_cons.mp h.nodup).1, h.ref q (mem_cons_self ..), by omega, h2, h3⟩
    · obtain ⟨hL, h1⟩ := h.anon q hq
      exact ⟨fun hm => hL (mem_cons_of_mem _ hm), h1⟩
  anon_lt q hq := by
    rcases Finset.mem_insert.mp hq with rfl | hq
    · exact h.lt q (mem_cons_self ..)
    · exact h.anon_lt q hq
  zero q hq hz := by
    rcases h.zero q hq hz with hL | hA
    · rcases List.mem_cons.mp hL with rfl | hL
      · exact .inr (mem_insert_self ..)
      · exact .inl hL
    · exact .inr (mem_insert_of_mem hA)
  mapped_lt q hq := h.mapped_lt q (by rwa [leaves_take] at hq)

end Acct

/-! ### Allocation -/

/-- The state in which `page_alloc` returns the page `p`. -/
def Pmap.handOut (s : Pmap) (zeroed : Bool) (p : Nat) : Pmap :=
  if zeroed then (s.take p).zero p else s.take p

theorem FreeList.pageAlloc (h : FreeList s (p :: L)) (z : Bool) :
    (pageAlloc z).run s = .ok (some p, s.handOut z p) := by
  cases z with
  | false => exact pageAlloc_some_raw h.head
  | true => exact pageAlloc_some h.head (h.lt p (mem_cons_self ..))

@[simp] theorem Pmap.handOut_npages (z : Bool) : (s.handOut z p).npages = s.npages := by
  cases z <;> rfl

@[simp] theorem Pmap.handOut_ppRef (z : Bool) : (s.handOut z p).ppRef = s.ppRef := by
  cases z <;> rfl

/-- Only the page that is handed out may change. -/
theorem Pmap.handOut_mem (z : Bool) {a : Nat} (ha : a / 512 ≠ p) :
    (s.handOut z p).mem a = s.mem a := by
  cases z with
  | false => rfl
  | true => exact if_neg ha

section

variable (h : Acct R F A extra s (p :: L)) (z : Bool)
include h z

/-- **`page_alloc`** hands out a page that is not counted; no view changes. -/
theorem Acct.handOut :
    Acct R F (insert p A) extra (s.handOut z p) L ∧
      ∀ (β : Type) (W : Reading β), ∀ r ∈ F.roots,
        view W F (s.handOut z p) r = view W F s r := by
  cases z with
  | false => exact ⟨h.alloc, fun _ _ _ _ => congrFun (view_of_mem rfl) _⟩
  | true =>
    have hoff : ∀ t, F.IsTable dec (s.take p).mem t → ∀ i : Fin 512,
        clear 512 (s.take p).mem p (slot t i) = (s.take p).mem (slot t i) := fun t ht i =>
      clear_slot_of_ne (by rintro rfl; exact h.table_not_free t ht (mem_cons_self ..)) i
    exact ⟨h.alloc.withMem hoff, fun _ _ _ hr => (h.alloc.view_withMem hoff hr).trans
      (congrFun (view_of_mem rfl) _)⟩

/-- A page that is handed out and counted is referred to once, from elsewhere. -/
theorem Acct.counted :
    p ∉ A ∧ p ∉ L ∧ tables F (s.handOut z p) p = 0 ∧
      Acct R F A (fun q => extra q + one (p = q))
        ((s.handOut z p).setRef p ((s.handOut z p).ppRef p + 1#16)) L := by
  have hp : p ∈ p :: L := mem_cons_self ..
  have hA : p ∉ A := fun hA => (h.anon p hA).1 hp
  have hL : p ∉ L := (List.nodup_cons.mp h.nodup).1
  obtain ⟨h1, -⟩ := h.handOut z
  obtain ⟨-, hr, -, ht, -⟩ := h1.anon p (mem_insert_self ..)
  have h2 := h1.incRef hL (by rw [hr]; decide) fun _ => by
    rw [show leaves R F (s.handOut z p) p = leaves R F s p from
      total_congr (fun r hr => (h.handOut z).2 Nat R r hr) p]
    exact (h.ref_of_free hp).1
  rw [erase_insert hA, update_add_one] at h2
  exact ⟨hA, hL, ht, h2⟩

theorem Acct.leaves_handOut (q : Nat) : leaves R F (s.handOut z p) q = leaves R F s q :=
  total_congr (fun r hr => (h.handOut z).2 Nat R r hr) q

end

end

/-- Where no mapping is counted, all counts are held elsewhere. -/
theorem Wf.acct {R : Reading Nat} (h : Wf F s L) (hl : ∀ p, leaves R F s p = 0)
    (hT : ∀ t, F.IsTable dec s.mem t → s.ppRef t ≠ 0#16) :
    Acct R F ((Finset.range s.npages).filter fun p => s.ppRef p = 0#16 ∧ p ∉ L)
      (fun p => (s.ppRef p).toNat - tables F s p) s L where
  toWf := h
  exact p _ := by
    have hle : tables F s p ≤ (s.ppRef p).toNat := by
      by_cases hp : F.IsTable dec s.mem p
      · have hne : (s.ppRef p).toNat ≠ 0 := fun h0 => hT p hp (BitVec.eq_of_toNat_eq h0)
        have := tables_le_one (F := F) (s := s) (p := p)
        omega
      · rw [tables_eq_zero.mpr hp]
        exact Nat.zero_le _
    rw [hl]
    omega
  anon p hp := by
    obtain ⟨-, h0, hpL⟩ := Finset.mem_filter.mp hp
    rw [hl, tables_eq_zero.mpr fun hp => hT p hp h0, h0]
    exact ⟨hpL, rfl, Nat.zero_le _, rfl, rfl⟩
  anon_lt p hp := Finset.mem_range.mp (Finset.mem_filter.mp hp).1
  zero p hlt h0 := by
    by_cases hpL : p ∈ L
    · exact .inl hpL
    · exact .inr (Finset.mem_filter.mpr ⟨Finset.mem_range.mpr hlt, h0, hpL⟩)
  mapped_lt p hp := by
    rw [hl] at hp
    exact absurd hp (Nat.lt_irrefl 0)

/-- Without roots, all counts are held elsewhere. -/
theorem FreeList.acct_empty {R : Reading Nat} (h : FreeList s L) (hd : F.depth = 3)
    (hF : F.roots = ∅) : (∀ p, leaves R F s p = 0) ∧
      Acct R F ((Finset.range s.npages).filter fun p => s.ppRef p = 0#16 ∧ p ∉ L)
        (fun p => (s.ppRef p).toNat) s L := by
  have htab : ∀ p, ¬ F.IsTable dec s.mem p := fun p ⟨r, _, ht⟩ =>
    notMem_empty r (hF ▸ ht.1.1)
  have hleaves : ∀ p, leaves R F s p = 0 := fun p => by
    rw [leaves, hF]
    rfl
  have hA := (h.wf_empty hd hF).acct hleaves fun t ht => absurd ht (htab t)
  simp only [tables_eq_zero.mpr (htab _), Nat.sub_zero] at hA
  exact ⟨hleaves, hA⟩

/-- The free pages are those with the count zero, but for those of `A`. -/
theorem Acct.mem_free_iff {R : Reading Nat} (h : Acct R F A extra s L) :
    p ∈ L ↔ p < s.npages ∧ s.ppRef p = 0#16 ∧ p ∉ A := by
  constructor
  · intro hp
    exact ⟨h.lt p hp, h.ref p hp, fun hA => (h.anon p hA).1 hp⟩
  · rintro ⟨hlt, h0, hA⟩
    exact (h.zero p hlt h0).resolve_right hA

end JosVmm
