import JosVmm.Pmap.Host

/-!
# Page maps — the host page table as a finite map

A host page table under any sequence of `page_insert` and `page_remove` calls.  `PageMap` is what
it is for: a page and permissions for each page of addresses.  `HostReach D r s M` says that `s`
is reached from an accounted tree, and that `M` is the tree's contents with the calls applied to
it as map updates; `D` selects the entries of the root that belong to the tree.

In every such state `page_lookup` returns what `M` says, and the next call does what its update
says (`pageTable_is_map`), provided that an insertion does not push a count past 16 bits.
-/

namespace JosVmm
open Support Support.Radix Support.Prog Support.Counting Function

/-- The contents of a page table: page and flags, by page of addresses. -/
abbrev PageMap := Vpn → Option (Nat × Word)

/-- A present entry as a page and flags. -/
def entryReading : Reading (Nat × Word) where
  read _ e := (dec e).map fun p => (p, epteFlags e)
  zero _ := by rw [dec_zero]; rfl

/-- `page_lookup`, with the entry's flags in place of its address. -/
def lookupOf (s : Pmap) (r : Nat) (va : Word) : Except Panic (Option (Nat × Word)) :=
  ((pageLookup (some (r * 512)) va).run s).map fun (res, s') =>
    res.map fun (p, pte) => (p, epteFlags (s'.mem pte))

/-- The page `pp` can be counted once more, and is not free. -/
def Countable (s : Pmap) (pp : Nat) : Prop :=
  (s.ppRef pp).toNat < 65535 ∧ ∀ L, FreeList s L → pp ∉ L

/-- A call `page_insert(pml4e, pp, va, perm)` in the state `s`: a page of the machine, 12 bits of
permissions, and a count with room unless the page is mapped there already. -/
structure Insertable (D : Fin 512 → Prop) (r : Nat) (s : Pmap) (pp : Nat) (va : Word)
    (perm : BitVec 32) : Prop where
  dom : D (pml4 va)
  page : pp < s.npages
  perm : perm.toNat < 4096
  count : Countable s pp ∨ ∃ f, lookupOf s r va = .ok (some (pp, f))

noncomputable section

/-- The states and contents reached by insertions and removals. -/
inductive HostReach (D : Fin 512 → Prop) (r : Nat) : Pmap → PageMap → Prop
  | start {s : Pmap} {A : Finset Nat} {extra : Nat → Nat} {L : List Nat} :
      Acct hostReading (single D r) A extra s L → Held hostReading (single D r) A s →
      HostReach D r s (view entryReading (single D r) s r)
  | insert {s s' : Pmap} {M : PageMap} {pp : Nat} {va : Word} {perm : BitVec 32} :
      HostReach D r s M → Insertable D r s pp va perm →
      (pageInsert (some (r * 512)) (some pp) va perm).run s = .ok (.ok (), s') →
      HostReach D r s' (update M (vpn va) (some (pp, perm.setWidth 64 ||| pteP)))
  | full {s s' : Pmap} {M : PageMap} {pp : Nat} {va : Word} {perm : BitVec 32} {e : Err} :
      HostReach D r s M → Insertable D r s pp va perm →
      (pageInsert (some (r * 512)) (some pp) va perm).run s = .ok (.error e, s') →
      HostReach D r s' M
  | remove {s s' : Pmap} {M : PageMap} {va : Word} : HostReach D r s M → D (pml4 va) →
      (pageRemove (some (r * 512)) va).run s = .ok ((), s') →
      HostReach D r s' (update M (vpn va) none)

variable {D : Fin 512 → Prop} {r pp : Nat} {s s' : Pmap} {M : PageMap} {va : Word}
  {perm : BitVec 32} {L : List Nat} {A : Finset Nat} {extra : Nat → Nat}

theorem leaves_single (R : Reading Nat) (s : Pmap) (p : Nat) :
    leaves R (single D r) s p = fibre (view R (single D r) s r) p := by
  rw [leaves, total, show (single D r).roots = {r} from rfl, Finset.sum_singleton]

theorem lookupOf_eq (h : Acct hostReading (single D r) A extra s L) (hd : D (pml4 va)) :
    lookupOf s r va = .ok (view entryReading (single D r) s r (vpn va)) := by
  have hn := single_node (r := r) (v := vpn va) hd
  have hlt : ∀ x, found s r va = some x → x.1 < s.npages := fun x hx => by
    refine h.mapped_lt x.1 (leaves_pos_iff.mpr ⟨r, hn.1, vpn va, ?_⟩)
    rw [← found_eq rfl hn, hx]
    rfl
  rw [lookupOf, pageLookup_run h.toWf hn hlt, found]
  cases ht : tab s r (vpn va).path with
  | none => rw [view_of_none ht]; rfl
  | some u =>
    rw [view_of_tab hn ht, Option.bind_some, vpn_last]
    show Except.ok (Option.map _ (Option.map _ (dec (s.mem (slot u (ptx va)))))) = _
    rw [Option.map_map]
    rfl

theorem entryReading_pteLeaf (hpp : pp < 2 ^ 52) (hperm : perm.toNat < 4096) :
    entryReading.read r (pteLeaf pp perm) = some (pp, perm.setWidth 64 ||| pteP) := by
  have hm : perm.msb = false := by
    rw [BitVec.msb_eq_decide]
    simp only [decide_eq_false_iff_not]
    omega
  have hlt : (perm.setWidth 64 ||| pteP).toNat < 2 ^ 12 := by
    rw [BitVec.toNat_or, BitVec.toNat_setWidth]
    exact Nat.or_lt_two_pow (by omega) (by decide)
  show (dec (pteLeaf pp perm)).map _ = _
  rw [dec_pteLeaf hpp hperm, Option.map_some, pteLeaf,
    BitVec.signExtend_eq_setWidth_of_msb_false hm, BitVec.or_assoc, epteFlags_page2pa_or hpp hlt]

/-- A page is mapped at `va` exactly when the contents say so. -/
theorem view_host_eq (s : Pmap) (v : Vpn) : view hostReading (single D r) s r v =
    (view entryReading (single D r) s r v).map Prod.fst := by
  rw [view, view]
  split
  · cases tab s r v.path with
    | none => rfl
    | some u =>
      show dec _ = ((dec _).map _).map _
      cases dec (s.mem (slot u v.last)) <;> rfl
  · rfl

/-- What an insertion does to an accounted tree and its contents. -/
theorem Insertable.spec (hi : Insertable D r s pp va perm)
    (h : Acct hostReading (single D r) A extra s L) (hA : Held hostReading (single D r) A s) :
    (∃ s' L', (pageInsert (some (r * 512)) (some pp) va perm).run s = .ok (.ok (), s') ∧
      Acct hostReading (single D r) (A.erase pp) extra s' L' ∧
      Held hostReading (single D r) (A.erase pp) s' ∧
      view entryReading (single D r) s' r = update
        (view entryReading (single D r) s r) (vpn va) (some (pp, perm.setWidth 64 ||| pteP)) ∧
      Grants s' r (vpn va) (granted perm) ∧
      (view hostReading (single D r) s r (vpn va) = some pp → s'.ppRef = s.ppRef)) ∨
    (∃ s', (pageInsert (some (r * 512)) (some pp) va perm).run s = .ok (.error .noMem, s') ∧
      Acct hostReading (single D r) A extra s' L ∧
      Held hostReading (single D r) A s' ∧
      view entryReading (single D r) s' r = view entryReading (single D r) s r) := by
  have hn := single_node (r := r) (v := vpn va) hi.dom
  have hcase : view hostReading (single D r) s r (vpn va) = some pp ∨ Countable s pp := by
    rcases hi.count with hc | ⟨f, hf⟩
    · exact .inr hc
    · rw [lookupOf_eq h hi.dom] at hf
      rw [view_host_eq, Except.ok.inj hf]
      exact .inl rfl
  rcases Nat.lt_or_ge L.length (missing dec s.mem r (vpn va).path) with hlt | hle
  · right
    obtain ⟨m, hrun, hm⟩ := pageInsert_noMem pp perm h.toWf hn hlt
    have hoff : ∀ t, (single D r).IsTable dec s.mem t → ∀ i : Fin 512,
        m (slot t i) = s.mem (slot t i) := fun t ht i =>
      hm _ (by rw [slot_div]; exact h.table_not_free t ht)
    have hview : ∀ {β} {W : Reading β}, view W (single D r) (s.withMem m) r =
        view W (single D r) s r := h.view_withMem hoff hn.1
    refine ⟨_, hrun, h.withMem hoff, fun p hp => ?_, hview⟩
    rw [leaves_single, hview, ← leaves_single]
    exact hA p hp
  · left
    have hpL : pp ∉ L := hcase.elim (fun hv hp => h.not_mapped hp hn.1 hv)
      fun hc => hc.2 L h.toFreeList
    obtain ⟨s', L', hrun, h', hu, hg, -, hsame⟩ := h.pageInsert hn rfl hA hi.page hpL hi.perm
      (hcase.imp_right And.left) hle
    refine ⟨s', L', hrun, h', hu.held hn.1 ?_ hA, ?_, hg, hsame⟩
    · exact dec_pteLeaf (Pmap.lt_two_pow_52 hi.page) hi.perm
    · rw [(hu _ entryReading).1, entryReading_pteLeaf (Pmap.lt_two_pow_52 hi.page) hi.perm]

/-- What a removal does to an accounted tree and its contents. -/
theorem Acct.hostRemove (h : Acct hostReading (single D r) A extra s L)
    (hA : Held hostReading (single D r) A s) (hd : D (pml4 va)) :
    ∃ s' L', (JosVmm.pageRemove (some (r * 512)) va).run s = .ok ((), s') ∧
      Acct hostReading (single D r) A extra s' L' ∧
      Held hostReading (single D r) A s' ∧
      view entryReading (single D r) s' r =
        update (view entryReading (single D r) s r) (vpn va) none := by
  have hn := single_node (r := r) (v := vpn va) hd
  obtain ⟨s', L', hrun, h', hA', ⟨rfl, -, hv⟩ | ⟨u, q, ht, -, rfl, -⟩⟩ :=
    h.pageRemove hn rfl hA
  · refine ⟨s', L', hrun, h', hA', (Function.update_eq_self_iff.mpr ?_).symm⟩
    rw [view_host_eq, Option.map_eq_none_iff] at hv
    exact hv.symm
  · refine ⟨_, L', hrun, h', hA', ?_⟩
    rw [view_of_mem Pmap.decref_mem]
    exact h.view_setLeaf (R := entryReading) hn ht 0

/-- Along every run the tree is accounted, and its contents are the calls' updates. -/
theorem HostReach.inv (h : HostReach D r s M) :
    M = view entryReading (single D r) s r ∧
      ∃ A extra L, Acct hostReading (single D r) A extra s L ∧
        Held hostReading (single D r) A s := by
  induction h with
  | start h hA => exact ⟨rfl, _, _, _, h, hA⟩
  | insert _ hi hrun ih =>
    obtain ⟨rfl, A, extra, L, h, hA⟩ := ih
    rcases hi.spec h hA with ⟨s', L', hrun', h', hA', hv, -⟩ | ⟨s', hrun', -⟩
    · cases hrun'.symm.trans hrun
      exact ⟨hv.symm, _, extra, L', h', hA'⟩
    · cases hrun'.symm.trans hrun
  | full _ hi hrun ih =>
    obtain ⟨rfl, A, extra, L, h, hA⟩ := ih
    rcases hi.spec h hA with ⟨s', L', hrun', -⟩ | ⟨s', hrun', h', hA', hv⟩
    · cases hrun'.symm.trans hrun
    · cases hrun'.symm.trans hrun
      exact ⟨hv.symm, A, extra, L, h', hA'⟩
  | remove _ hd hrun ih =>
    obtain ⟨rfl, A, extra, L, h, hA⟩ := ih
    obtain ⟨s', L', hrun', h', hA', hv⟩ := h.hostRemove hA hd
    cases hrun'.symm.trans hrun
    exact ⟨hv.symm, A, extra, L', h', hA'⟩

/-- **The host page table is a finite map.**  In every state reached by insertions that leave
room in the counts, and removals:

* `page_lookup` returns the page and flags of the last insertion at the page of `va` that was not
  followed by a removal, and nothing otherwise;
* an insertion returns; if it succeeds it updates that page and no other, grants `perm` without
  the available bits on all three upper levels, and keeps all counts if it maps the page that was
  mapped there; if it fails no lookup changes;
* a removal returns, and clears that page and no other. -/
theorem pageTable_is_map (h : HostReach D r s M) :
    (∀ va, D (pml4 va) → lookupOf s r va = .ok (M (vpn va))) ∧
    (∀ pp va perm, Insertable D r s pp va perm → ∃ out s',
      (pageInsert (some (r * 512)) (some pp) va perm).run s = .ok (out, s') ∧
      (out = .ok () → lookupOf s' r va = .ok (some (pp, perm.setWidth 64 ||| pteP)) ∧
        (∀ va', D (pml4 va') → vpn va' ≠ vpn va → lookupOf s' r va' = lookupOf s r va') ∧
        Grants s' r (vpn va) (granted perm) ∧
        ((∃ f, lookupOf s r va = .ok (some (pp, f))) → s'.ppRef = s.ppRef)) ∧
      (out ≠ .ok () → ∀ va', D (pml4 va') → lookupOf s' r va' = lookupOf s r va')) ∧
    (∀ va, D (pml4 va) → ∃ s', (pageRemove (some (r * 512)) va).run s = .ok ((), s') ∧
      lookupOf s' r va = .ok none ∧
      ∀ va', D (pml4 va') → vpn va' ≠ vpn va → lookupOf s' r va' = lookupOf s r va') := by
  obtain ⟨rfl, A, extra, L, h, hA⟩ := h.inv
  refine ⟨fun va hd => lookupOf_eq h hd, fun pp va perm hi => ?_, fun va hd => ?_⟩
  · rcases hi.spec h hA with ⟨s', L', hrun, h', -, hv, hg, hsame⟩ | ⟨s', hrun, h', -, hv⟩
    · refine ⟨.ok (), s', hrun, fun _ => ⟨?_, fun va' hd' hne => ?_, hg, ?_⟩,
        fun hc => absurd rfl hc⟩
      · rw [lookupOf_eq h' hi.dom, hv, update_self]
      · rw [lookupOf_eq h' hd', lookupOf_eq h hd', hv, update_of_ne hne]
      · rintro ⟨f, hf⟩
        rw [lookupOf_eq h hi.dom] at hf
        exact hsame (by rw [view_host_eq, Except.ok.inj hf]; rfl)
    · refine ⟨.error .noMem, s', hrun, nofun, fun _ va' hd' => ?_⟩
      rw [lookupOf_eq h' hd', lookupOf_eq h hd', hv]
  · obtain ⟨s', L', hrun, h', -, hv⟩ := h.hostRemove hA hd
    refine ⟨s', hrun, ?_, fun va' hd' hne => ?_⟩
    · rw [lookupOf_eq h' hd, hv, update_self]
    · rw [lookupOf_eq h' hd', lookupOf_eq h hd', hv, update_of_ne hne]

end

end JosVmm
