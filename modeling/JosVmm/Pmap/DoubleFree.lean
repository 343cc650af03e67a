import JosVmm.Machine.Pages

/-!
# Page maps — pages freed twice

`page_free` refuses a page that is referenced or linked, and takes any other to be off the list.
The last page of the list is on it and is not linked.  So a free page is told from one that is
not exactly when it is not the last of the list (`pageFree_free_iff`); freeing the last one
closes the list to a cycle (`pageFree_last_cyclic`).  A sequence of `page_alloc` and `page_free`
calls, in whatever order, that never frees the last page keeps the list acyclic
(`PageOp.acyclic_step`, `pageFree_detects`).
-/

namespace JosVmm
open Support Support.Prog

variable {s s' : Pmap} {L : List Nat} {pp : Nat}

/-- Following the links from `page_free_list` stops, so no page is on it twice. -/
def Acyclic (s : Pmap) : Prop := ∃ L, Chain s.ppLink s.pageFreeList L ∧ L.Nodup

theorem acyclic_of_chain (h : Chain s.ppLink s.pageFreeList L) : Acyclic s := ⟨L, h, h.nodup⟩

/-! ### One call -/

theorem pageFree_refused (h : s.ppRef pp ≠ 0#16 ∨ s.ppLink pp ≠ none) :
    (pageFree pp).run s = .ok ((), s) := by
  simp only [pageFree]
  rw [bind_get, if_pos h]
  rfl

theorem pageFree_give (href : s.ppRef pp = 0#16) (hlink : s.ppLink pp = none) :
    (pageFree pp).run s = .ok ((), s.give pp) := by
  simp only [pageFree]
  rw [bind_get, if_neg (not_or.mpr ⟨not_not.mpr href, not_not.mpr hlink⟩)]
  rfl

/-- What a call of `page_free` may do. -/
theorem pageFree_cases (hrun : (pageFree pp).run s = .ok ((), s')) :
    s' = s ∨ s.ppRef pp = 0#16 ∧ s.ppLink pp = none ∧ s' = s.give pp := by
  by_cases h : s.ppRef pp ≠ 0#16 ∨ s.ppLink pp ≠ none
  · rw [pageFree_refused h] at hrun
    cases hrun
    exact .inl rfl
  · rw [not_or, not_not, not_not] at h
    rw [pageFree_give h.1 h.2] at hrun
    cases hrun
    exact .inr ⟨h.1, h.2, rfl⟩

/-- What a call of `page_alloc` does to the list. -/
theorem pageAlloc_links {z : Bool} {o : Option Nat} (hrun : (pageAlloc z).run s = .ok (o, s')) :
    s' = s ∨ ∃ p, s.pageFreeList = some p ∧ s'.pageFreeList = s.ppLink p ∧
      s'.ppLink = Function.update s.ppLink p none := by
  cases hp : s.pageFreeList with
  | none =>
    rw [pageAlloc_none hp] at hrun
    cases hrun
    exact .inl rfl
  | some p =>
    refine .inr ⟨p, rfl, ?_⟩
    simp only [pageAlloc] at hrun
    rw [bind_get, hp, bind_ok (a := ()) (u := s.take p) rfl] at hrun
    cases z with
    | false =>
      cases hrun
      exact ⟨rfl, rfl⟩
    | true =>
      obtain ⟨a, s1, hk, hrun⟩ := bind_inv hrun
      rw [readOnly_kaddr _ _ _ _ hk] at hrun
      cases hrun
      exact ⟨rfl, rfl⟩

section

variable (h : Chain s.ppLink s.pageFreeList L) (hp : pp ∈ L)
include h hp

/-- A page of the list is the last one exactly when it is not linked. -/
theorem last_iff_unlinked : L.getLast? = some pp ↔ s.ppLink pp = none := by
  obtain ⟨L1, L2, rfl, h2⟩ := h.tail_of_mem hp
  cases L2 with
  | nil => exact iff_of_true List.getLast?_concat h2
  | cons q L2 =>
    refine iff_of_false (fun hlast => ?_) (fun hnone => ?_)
    · rw [List.getLast?_append, List.getLast?_cons_cons] at hlast
      have hmem : pp ∈ q :: L2 := List.mem_of_getLast? (by simpa using hlast)
      have hnd := (List.nodup_append.mp h.nodup).2.1
      exact (List.nodup_cons.mp hnd).1 hmem
    · rw [hnone] at h2
      cases h2.1

/-- The last page of the list, freed again, is its own successor. -/
theorem give_cyclic : ¬ Acyclic (s.give pp) :=
  fun ⟨_, hL', _⟩ => h.not_relink hp hL'

/-- **Which free pages `page_free` refuses.**  A call for a page on the list leaves the list and
the page structures alone exactly when the page is not the last of the list, or is referenced;
and only then is the list acyclic after it. -/
theorem pageFree_free_iff :
    ∃ s', (pageFree pp).run s = .ok ((), s') ∧
      (s' = s ↔ L.getLast? ≠ some pp ∨ s.ppRef pp ≠ 0#16) ∧
      (Acyclic s' ↔ L.getLast? ≠ some pp ∨ s.ppRef pp ≠ 0#16) := by
  by_cases hc : L.getLast? ≠ some pp ∨ s.ppRef pp ≠ 0#16
  · refine ⟨s, pageFree_refused ?_, iff_of_true rfl hc, iff_of_true (acyclic_of_chain h) hc⟩
    rcases hc with hc | hc
    · exact .inr fun hnone => hc ((last_iff_unlinked h hp).mpr hnone)
    · exact .inl hc
  · rw [not_or, not_not, not_not] at hc
    have hlink := (last_iff_unlinked h hp).mp hc.1
    have hcyc := give_cyclic h hp
    refine ⟨s.give pp, pageFree_give hc.2 hlink, iff_of_false (fun e => ?_) ?_,
      iff_of_false hcyc ?_⟩
    · exact hcyc (e.symm ▸ acyclic_of_chain h)
    · exact not_or.mpr ⟨not_not.mpr hc.1, not_not.mpr hc.2⟩
    · exact not_or.mpr ⟨not_not.mpr hc.1, not_not.mpr hc.2⟩

end

/-! ### Sequences of calls -/

/-- The calls, in whatever order and with whatever arguments. -/
inductive PageOp where
  | alloc (allocZero : Bool)
  | free (pp : Nat)

namespace PageOp

def exec : PageOp → Pm Unit
  | alloc allocZero => do
    let _ ← pageAlloc allocZero
    return ()
  | free pp => pageFree pp

/-- The page that is freed is referenced, or is not the last of the list. -/
def NotLast (s : Pmap) : PageOp → Prop
  | alloc _ => True
  | free pp => s.ppRef pp ≠ 0#16 ∨ ∀ L, Chain s.ppLink s.pageFreeList L → L.getLast? ≠ some pp

/-- One call keeps the list acyclic. -/
theorem acyclic_step {op : PageOp} (h : Acyclic s) (hC : NotLast s op)
    (hrun : op.exec.run s = .ok ((), s')) : Acyclic s' := by
  obtain ⟨L, hL, -⟩ := h
  cases op with
  | alloc z =>
    obtain ⟨o, s1, halloc, hrun⟩ := bind_inv hrun
    cases hrun
    rcases pageAlloc_links halloc with rfl | ⟨p, hp, hfree, hlink⟩
    · exact acyclic_of_chain hL
    · cases L with
      | nil =>
        rw [hp] at hL
        cases hL
      | cons q L =>
        obtain rfl : p = q := Option.some.inj (hp.symm.trans hL.1)
        refine acyclic_of_chain (L := L) ?_
        rw [hfree, hlink]
        exact hL.pop
  | free pp =>
    rcases pageFree_cases hrun with rfl | ⟨href, hlink, rfl⟩
    · exact acyclic_of_chain hL
    · refine acyclic_of_chain (L := pp :: L) (hL.push fun hp => ?_)
      -- on the list and not linked, it would be the last
      rcases hC with hC | hC
      · exact hC href
      · exact hC L hL ((last_iff_unlinked hL hp).mpr hlink)

end PageOp

/-- **A page is freed twice undetected exactly at the end of the list.**  For a page on an acyclic
list, `page_free` changes nothing, and the list stays acyclic, exactly when the page is not the
last one or is referenced; and a sequence of calls none of which frees the last page unreferenced
leaves the list acyclic. -/
theorem pageFree_detects (h : Chain s.ppLink s.pageFreeList L) :
    (∀ pp ∈ L, ∃ s', (pageFree pp).run s = .ok ((), s') ∧
      (s' = s ↔ L.getLast? ≠ some pp ∨ s.ppRef pp ≠ 0#16) ∧
      (Acyclic s' ↔ L.getLast? ≠ some pp ∨ s.ppRef pp ≠ 0#16)) ∧
    ∀ s', Reach PageOp.exec PageOp.NotLast s s' → Acyclic s' := by
  refine ⟨fun pp hp => pageFree_free_iff h hp, fun s' hreach => ?_⟩
  refine invariant (P := Acyclic) (fun u u' hu ⟨op, hC, hrun⟩ => ?_) (acyclic_of_chain h) hreach
  exact PageOp.acyclic_step hu hC hrun

/-- A machine of three pages, the last two of them free. -/
def threePages : Pmap where
  npages := 3
  npages_le := by decide
  mem _ := 0
  ppRef p := if p = 0 then 1#16 else 0#16
  ppLink p := if p = 1 then some 2 else none
  pageFreeList := some 1

theorem threePages_chain : Chain threePages.ppLink threePages.pageFreeList [1, 2] := by
  simp [Chain, threePages]

/-- The theorem at the first page of the list. -/
theorem pageFree_detects_first : (pageFree 1).run threePages = .ok ((), threePages) := by
  obtain ⟨s', hrun, hiff, -⟩ := (pageFree_detects threePages_chain).1 1 (by decide)
  rw [hrun, hiff.mpr (.inl (by decide))]

/-- **The last free page is freed again** and becomes the predecessor of the first: the list is
a cycle of two pages. -/
theorem pageFree_last_cyclic : Chain threePages.ppLink threePages.pageFreeList [1, 2] ∧
    Returns ((pageFree 2).run threePages) fun _ s' =>
      s'.pageFreeList = some 2 ∧ s'.ppLink 2 = some 1 ∧ s'.ppLink 1 = some 2 :=
  ⟨threePages_chain, by decide⟩

end JosVmm
