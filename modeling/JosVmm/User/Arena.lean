import JosVmm.User.Malloc

/-!
# User library — the arena of malloc

`malloc` for any `size_t`, in the runs of `malloc` and `free` in which every `malloc` meets a
condition.

The size is rounded up modulo `2^64`, so that one of `2^64 - 3` or more is taken for 0.  The scan
for free pages turns back when its cursor *is* `mend`; for a block that does not fit into the rest
of the last page of the arena it starts there, and goes on to the end of the address space.  Apart
from that, and from a count that has reached its maximum, `malloc` answers after two passes over
the arena, with 0 or with a block inside it (`malloc_answers`).

After a block that ends where a page starts, the cursor is at the start of a page, and the count of
that page has a reference for it that is never dropped.  If there is no such block, nothing is lost:
when all blocks are freed, only the page that the cursor is inside of is mapped (`malloc_noLeak`).
-/

namespace JosVmm

open Heap

namespace Heap

/-- `ROUNDUP(n, 4)`, for a `size_t`. -/
def roundupWord (n : Word) : Nat := (n + 3#64).toNat / 4 * 4

/-- `malloc`, for a `size_t`. -/
def mallocWord (h : Heap) (n : Word) (avail : Nat) : Except HeapFault (Nat × Heap) :=
  h.start.mallocRounded (roundupWord n) avail

/-- The loop of `findSpace`, for at most so many rounds. -/
def scanIn (h : Heap) (n : Nat) : Nat → Bool → BitVec 52 → Option (Option (BitVec 52))
  | 0, _, _ => none
  | k + 1, wrapped, page =>
    if h.isfree (page.toNat * pgsize) (n + 4) then
      some (some page)
    else if page + 1#52 = BitVec.ofNat 52 (mend / pgsize) then
      if wrapped then some none else h.scanIn n k true (BitVec.ofNat 52 (mbegin / pgsize))
    else
      h.scanIn n k wrapped (page + 1#52)

/-- The heap from which `malloc` looks for pages, if it comes to that. -/
def scanFrom (h : Heap) (n : Nat) : Option Heap :=
  if maxmalloc ≤ n then none
  else if h.mptr % pgsize = 0 then some h
  else if pgnum h.mptr = pgnum (h.mptr + n - 1 + 4) then none
  else
    match h.free h.mptr with
    | .error _ => none
    | .ok h' => some { h' with mptr := pgnum (h.mptr + pgsize) * pgsize }

end Heap

/-- The pages of the arena. -/
def arenaPages : Nat := mend / pgsize - mbegin / pgsize

/-- Runs of a process that has mapped the pages of `own`, in which each `malloc` meets `C`. -/
inductive HeapReach (own : Nat → Option Bool) (C : Heap → Word → Prop) :
    Heap → List Block → Prop where
  | start {mem : Nat → BitVec 32} : HeapReach own C ⟨0, own, mem⟩ []
  | malloc {h h' : Heap} {live : List Block} {n : Word} {avail v : Nat} :
      HeapReach own C h live → C h n → h.mallocWord n avail = .ok (v, h') →
      HeapReach own C h' (if v = 0 then live else ⟨v, n.toNat⟩ :: live)
  | free {h h' : Heap} {live : List Block} {b : Block} : HeapReach own C h live → b ∈ live →
      h.free b.start = .ok h' → HeapReach own C h' (live.erase b)
  | store {h : Heap} {live : List Block} {b : Block} {a : Nat} {w : BitVec 32} :
      HeapReach own C h live → b ∈ live → b.start ≤ 4 * a → 4 * a < b.fin →
      HeapReach own C { h with mem := Function.update h.mem a w } live

/-- The size can be rounded up, the count of the page of the cursor can take the block if it goes
there, and otherwise the page is not the last one of the arena. -/
structure Answerable (h : Heap) (n : Word) : Prop where
  small : n.toNat ≤ 2 ^ 64 - 4
  room : h.start.Room (roundup4 n.toNat)
  next : h.start.Next (roundup4 n.toNat)

/-- The condition for a `malloc` after which no page is lost. -/
structure LeakFree (h : Heap) (n : Word) : Prop extends Answerable h n where
  ends : h.start.Ends (roundup4 n.toNat)

/-- **`malloc(n)` answers**: with 0 or a block in the arena, and its scan, if there is one, ends
after at most two passes over the arena. -/
structure Answers (h : Heap) (n : Word) (avail : Nat) : Prop where
  returns : ∃ v h', h.mallocWord n avail = .ok (v, h') ∧
    (v = 0 ∨ mbegin ≤ v ∧ v + n.toNat ≤ mend)
  passes : ∀ g, h.start.scanFrom (Heap.roundupWord n) = some g →
    ∃ r, g.scanIn (Heap.roundupWord n) (2 * arenaPages) false (BitVec.ofNat 52 (pgnum g.mptr)) =
      some r

variable {own : Nat → Option Bool} {h h' g : Heap} {live lost : List Block}
  {k n p v avail : Nat} {size : Word} {C : Heap → Word → Prop}

theorem roundupWord_eq (hn : size.toNat ≤ 2 ^ 64 - 4) :
    Heap.roundupWord size = roundup4 size.toNat := by
  have hsum : (size + 3#64).toNat = size.toNat + 3 := by
    rw [BitVec.toNat_add, Nat.mod_eq_of_lt]
    · rfl
    · simp only [BitVec.toNat_ofNat, Nat.reducePow, Nat.reduceMod] at hn ⊢
      omega
  rw [Heap.roundupWord, roundup4, hsum]

theorem mallocWord_eq (hn : size.toNat ≤ 2 ^ 64 - 4) :
    h.mallocWord size avail = h.malloc size.toNat avail := by
  rw [Heap.mallocWord, Heap.malloc, roundupWord_eq hn]

/-! ### The scan -/

/-- **Two passes over the arena are enough**: each round takes one page, from the one the scan is
started at to the end of the arena, and then once more all of them. -/
theorem scanIn_arena {w : Bool} {page : BitVec 52} (hp : InArena page.toNat)
    (hk : (if w then 0 else arenaPages) + (mend / pgsize - page.toNat) ≤ k) :
    ∃ r, h.scanIn n k w page = some r ∧ h.findSpace n w page = r := by
  induction k generalizing w page with
  | zero =>
    have := hp.2
    omega
  | succ k ih =>
    rw [Heap.scanIn, findSpace]
    split
    · exact ⟨_, rfl, rfl⟩
    · split
      · split
        · exact ⟨_, rfl, rfl⟩
        · rename_i hw
          refine ih ⟨by decide, by decide⟩ ?_
          have hlt := hp.2
          have hall : mend / pgsize - (BitVec.ofNat 52 (mbegin / pgsize)).toNat = arenaPages := by
            decide
          rw [if_neg hw] at hk
          rw [if_pos rfl, hall]
          omega
      · rename_i hend
        have hnext : InArena (page + 1#52).toNat ∧ (page + 1#52).toNat = page.toNat + 1 := by
          simp only [InArena, mbegin, mend, pgsize] at hp hend ⊢
          bv_omega
        refine ih hnext.1 ?_
        have hlt := hp.2
        omega

/-- Behind the arena nothing is free, and the scan does not turn back. -/
theorem scanIn_behind {w : Bool} {page : BitVec 52} (hn : n < maxmalloc)
    (hp : mend / pgsize ≤ page.toNat) (hk : page.toNat + k < 2 ^ 50) :
    h.scanIn n k w page = none := by
  induction k generalizing page with
  | zero => rfl
  | succ k ih =>
    have hbusy : ¬ h.isfree (page.toNat * pgsize) (n + 4) = true := fun hf => by
      have hw : page.toNat * pgsize + (n + 4) < 2 ^ 64 := by
        simp only [maxmalloc, pgsize, Nat.reducePow] at *
        omega
      rw [isfree, Nat.mod_eq_of_lt hw, Nat.add_sub_cancel_left, List.all_eq_true] at hf
      have hfirst := hf 0 (List.mem_range.mpr (by
        simp only [pgsize]
        omega))
      have hlt := of_decide_eq_true (Bool.and_eq_true_iff.mp hfirst).1
      simp only [mend, pgsize] at hp hlt
      omega
    have hnext : (page + 1#52).toNat = page.toNat + 1 := by
      bv_omega
    rw [Heap.scanIn, if_neg hbusy, if_neg]
    · exact ih (by omega) (by omega)
    · intro hend
      have := congrArg BitVec.toNat hend
      simp only [mend, pgsize, BitVec.toNat_ofNat] at hp this
      omega

theorem InArena.address (hp : InArena (pgnum v)) : mbegin ≤ v ∧ v < mend := by
  simp only [InArena, pgnum, mbegin, mend, pgsize] at hp ⊢
  omega

theorem inArena_mbegin : InArena (pgnum mbegin) := ⟨by decide, by decide⟩

/-- A range of the arena that is free ends in the arena. -/
theorem isfree_arena (hf : h.isfree (p * pgsize) (n + 4) = true) (hn : n < maxmalloc)
    (h4 : n % 4 = 0) (hp : InArena p) : InArena (pgnum (p * pgsize + n)) := by
  have hw : p * pgsize + (n + 4) < 2 ^ 64 := by
    have := hp.2
    simp only [mend, maxmalloc, pgsize, Nat.reducePow] at *
    omega
  rw [isfree, Nat.mod_eq_of_lt hw, Nat.add_sub_cancel_left, List.all_eq_true] at hf
  -- the last page of the range
  have hlast := hf (n / pgsize) (List.mem_range.mpr (by
    simp only [pgsize]
    omega))
  have hlt := of_decide_eq_true (Bool.and_eq_true_iff.mp hlast).1
  have hlo := hp.1
  simp only [InArena, pgnum, mbegin, mend, pgsize] at hlo hlt ⊢
  omega

/-- What the cursor and the result are when the scan is started in the arena. -/
theorem mallocPages_arena (hin : InArena (pgnum h.mptr)) (hn : n < maxmalloc) (h4 : n % 4 = 0)
    (hrun : h.mallocPages n avail = (v, h')) :
    InArena (pgnum h'.mptr) ∧ (v = 0 ∨ InArena (pgnum v) ∧ InArena (pgnum (v + n))) := by
  unfold mallocPages at hrun
  generalize hfind : h.findSpace n false (BitVec.ofNat 52 (pgnum h.mptr)) = r at hrun
  cases r with
  | none =>
    cases hrun
    exact ⟨inArena_mbegin, .inl rfl⟩
  | some page =>
    have hfree := findSpace_isfree hfind
    have hpage := findSpace_arena (hin.toNat_ofNat.symm ▸ hin) hfind
    have hv := pgnum_page page.toNat
    have hnone := (isfree_pages hfree hn page.isLt).resolve_left fun htop => by
      have := hpage.2
      simp only [userTop, mend, pgsize] at htop this
      omega
    dsimp only at hrun
    generalize ha : allocPages _ _ n avail 0 _ = r at hrun
    obtain ⟨ok, g⟩ := r
    obtain ⟨hm, -⟩ := allocPages_spec page.toNat n avail _ 0
      { h with mptr := page.toNat * pgsize } g ok hnone (fun q hlo hhi => by omega) ha
    cases ok with
    | false =>
      cases hrun
      rw [hm]
      exact ⟨hv.symm ▸ hpage, .inl rfl⟩
    | true =>
      cases hrun
      have hend := isfree_arena hfree hn h4 hpage
      exact ⟨hend, .inr ⟨hv.symm ▸ hpage, hend⟩⟩

/-! ### One call -/

/-- The cursor is at its start or in the arena, and the counts are right. -/
structure ArenaInv (own : Nat → Option Bool) (h : Heap) (live lost : List Block) : Prop where
  cursor : h.mptr = 0 ∨ InArena (pgnum h.mptr)
  ok : HeapOk own h live lost

theorem ArenaInv.start (hi : ArenaInv own h live lost) : InArena (pgnum h.start.mptr) := by
  rw [Heap.start]
  split
  · exact inArena_mbegin
  · rename_i hm
    exact hi.cursor.resolve_left hm

section

variable (ho : HeapOk own g live lost) (hin : InArena (pgnum g.mptr))
include ho hin

/-- The cursor can be freed. -/
theorem HeapOk.free_cursor (hm : g.mptr % pgsize ≠ 0) :
    g.free g.mptr = .ok (g.release (pgnum g.mptr)) := by
  have h0 : g.mptr ≠ 0 := fun h0 => hm (by rw [h0, Nat.zero_mod])
  rw [Heap.free, if_neg h0, if_pos hin.address, freeFrom, (ho.counted hm).2]

/-- A block that does not fit into the page of the cursor is looked for from the next page on. -/
theorem HeapOk.scanFrom_next (hn : n < maxmalloc) (hm : g.mptr % pgsize ≠ 0) (hfit : ¬ g.Fits n) :
    ∃ g', g.scanFrom n = some g' ∧ pgnum g'.mptr = pgnum g.mptr + 1 := by
  rw [Heap.Fits] at hfit
  rw [Heap.scanFrom, if_neg (Nat.not_le.mpr hn), if_neg hm, if_neg hfit, ho.free_cursor hin hm]
  exact ⟨_, rfl, (pgnum_page _).trans (Nat.add_div_right _ (by decide))⟩

end

/-- What `malloc` does when it looks for pages. -/
theorem mallocRounded_scan (hs : g.scanFrom n = some h) :
    n < maxmalloc ∧ g.mallocRounded n avail = .ok (h.mallocPages n avail) := by
  rw [Heap.scanFrom] at hs
  rw [mallocRounded]
  split at hs
  · cases hs
  · rename_i hmax
    refine ⟨Nat.lt_of_not_le hmax, ?_⟩
    rw [if_neg hmax]
    split at hs
    · rename_i hm
      cases hs
      rw [if_pos hm]
    · rename_i hm
      rw [if_neg hm]
      split at hs
      · cases hs
      · rename_i hfit
        rw [if_neg hfit]
        split at hs
        · cases hs
        · rename_i g' hfree
          cases hs
          rw [hfree]
          rfl

/-- **The result of `malloc` is in the arena**, and so are its cursor and the start of its scan. -/
theorem HeapOk.mallocRounded_arena (ho : HeapOk own g live lost) (hin : InArena (pgnum g.mptr))
    (h4 : n % 4 = 0) (hnext : g.Next n) :
    (∃ v h', g.mallocRounded n avail = .ok (v, h') ∧ InArena (pgnum h'.mptr) ∧
      (v = 0 ∨ InArena (pgnum v) ∧ InArena (pgnum (v + n)))) ∧
    ∀ g', g.scanFrom n = some g' → InArena (pgnum g'.mptr) := by
  -- with a scan from the arena
  have hpages : ∀ g', g.scanFrom n = some g' → InArena (pgnum g'.mptr) →
      (∃ v h', g.mallocRounded n avail = .ok (v, h') ∧ InArena (pgnum h'.mptr) ∧
        (v = 0 ∨ InArena (pgnum v) ∧ InArena (pgnum (v + n)))) ∧
      ∀ g', g.scanFrom n = some g' → InArena (pgnum g'.mptr) := fun g' hs hin' => by
    obtain ⟨hn, hrun⟩ := mallocRounded_scan hs
    refine ⟨⟨_, _, hrun, mallocPages_arena hin' hn h4 rfl⟩, fun g'' hs' => ?_⟩
    cases hs.symm.trans hs'
    exact hin'
  by_cases hmax : maxmalloc ≤ n
  · rw [mallocRounded, Heap.scanFrom, if_pos hmax, if_pos hmax]
    exact ⟨⟨0, g, rfl, hin, .inl rfl⟩, fun g' hs => by cases hs⟩
  · by_cases hm : g.mptr % pgsize = 0
    · refine hpages g ?_ hin
      rw [Heap.scanFrom, if_neg hmax, if_pos hm]
    · by_cases hfit : g.Fits n
      · -- the end of the block is in the same page
        have hsame : pgnum (g.mptr + n) = pgnum g.mptr := by
          simp only [Heap.Fits, pgnum, pgsize] at hfit ⊢
          omega
        have hpte : ¬ g.pte (pgnum g.mptr) = none := by
          rw [(ho.counted hm).2]
          exact Option.some_ne_none _
        rw [Heap.Fits] at hfit
        rw [mallocRounded, Heap.scanFrom, if_neg hmax, if_neg hmax, if_neg hm, if_neg hm,
          if_pos hfit, if_pos hfit, if_neg hpte]
        exact ⟨⟨_, _, rfl, hsame.symm ▸ hin, .inr ⟨hin, hsame.symm ▸ hin⟩⟩, fun g' hs => by cases hs⟩
      · have hn := Nat.lt_of_not_le hmax
        obtain ⟨g', hs, hp⟩ := ho.scanFrom_next hin hn hm hfit
        refine hpages g' hs ?_
        rw [hp]
        exact ⟨hin.1.trans (Nat.le_succ _), hnext hn hm hfit⟩

section

variable (hi : ArenaInv own h live lost) (hn : size.toNat ≤ 2 ^ 64 - 4)
include hi hn

theorem ArenaInv.arena (hnext : h.start.Next (roundup4 size.toNat)) :
    (∃ v h', h.mallocWord size avail = .ok (v, h') ∧ InArena (pgnum h'.mptr) ∧
      (v = 0 ∨ InArena (pgnum v) ∧ InArena (pgnum (v + roundup4 size.toNat)))) ∧
    ∀ g, h.start.scanFrom (Heap.roundupWord size) = some g → InArena (pgnum g.mptr) := by
  rw [Heap.mallocWord, roundupWord_eq hn]
  exact hi.ok.start.mallocRounded_arena hi.start (roundup4_mod _) hnext

theorem ArenaInv.answers (hnext : h.start.Next (roundup4 size.toNat)) :
    Answers h size avail := by
  obtain ⟨⟨v, h', hrun, -, hv⟩, hscan⟩ := hi.arena hn hnext
  constructor
  · refine ⟨v, h', hrun, hv.imp_right fun ⟨hlo, hhi⟩ => ⟨hlo.address.1, ?_⟩⟩
    have hsize := le_roundup4 size.toNat
    have hlt := hhi.address.2
    omega
  · intro g hg
    have hin := hscan g hg
    have hk : (if false = true then 0 else arenaPages) +
        (mend / pgsize - (BitVec.ofNat 52 (pgnum g.mptr)).toNat) ≤ 2 * arenaPages := by
      have hlo := hin.1
      rw [hin.toNat_ofNat, if_neg Bool.false_ne_true, arenaPages]
      omega
    obtain ⟨r, hr, -⟩ := scanIn_arena (hin.toNat_ofNat.symm ▸ hin) hk
    exact ⟨r, hr⟩

/-- From the last page of the arena, the scan is started behind the arena. -/
theorem ArenaInv.next (ha : Answers h size avail) : h.start.Next (roundup4 size.toNat) := by
  intro hmax hm hfit
  have hin := hi.start
  obtain ⟨g, hscan, hpage⟩ := hi.ok.start.scanFrom_next hin hmax hm hfit
  obtain ⟨r, hr⟩ := ha.passes g (roundupWord_eq hn ▸ hscan)
  by_contra hlast
  have hend : pgnum g.mptr = mend / pgsize := by
    have := hin.2
    omega
  rw [roundupWord_eq hn, hend, scanIn_behind hmax (by decide) (by decide)] at hr
  cases hr

end

/-! ### Runs -/

/-- A call of `malloc` keeps the invariant, and with the right end of the block nothing is lost. -/
theorem ArenaInv.malloc (hi : ArenaInv own h live lost) (hC : Answerable h size)
    (hrun : h.mallocWord size avail = .ok (v, h')) :
    ∃ lost', ArenaInv own h' (if v = 0 then live else ⟨v, size.toNat⟩ :: live) lost' ∧
      (h.start.Ends (roundup4 size.toNat) → lost' = lost) := by
  obtain ⟨⟨v', g, hrun', hg, -⟩, -⟩ := hi.arena hC.small hC.next
  cases hrun.symm.trans hrun'
  rw [mallocWord_eq hC.small] at hrun
  obtain ⟨lost', ho, hkeep⟩ := hi.ok.malloc hC.room hrun
  exact ⟨lost', ⟨.inr hg, ho⟩, fun hends => hkeep ⟨hi.start, hC.next, hends⟩⟩

/-- **Every run keeps the invariant**, and nothing is lost if all blocks have the right end. -/
theorem HeapReach.inv (hC : ∀ h n, C h n → Answerable h n) (hr : HeapReach own C h live) :
    ∃ lost, ArenaInv own h live lost ∧
      ((∀ h n, C h n → h.start.Ends (roundup4 n.toNat)) → lost = []) := by
  induction hr with
  | @start mem => exact ⟨[], ⟨.inl rfl, .empty own mem⟩, fun _ => rfl⟩
  | malloc _ hstep hrun ih =>
    obtain ⟨lost, hi, hnil⟩ := ih
    obtain ⟨lost', hi', hkeep⟩ := hi.malloc (hC _ _ hstep) hrun
    exact ⟨lost', hi', fun hends => (hkeep (hends _ _ hstep)).trans (hnil hends)⟩
  | free _ hb hrun ih =>
    obtain ⟨lost, hi, hnil⟩ := ih
    obtain ⟨ho, hm⟩ := hi.ok.free hb hrun
    exact ⟨lost, ⟨hm ▸ hi.cursor, ho⟩, hnil⟩
  | store _ hb hlo hhi ih =>
    obtain ⟨lost, hi, hnil⟩ := ih
    exact ⟨lost, ⟨hi.cursor, hi.ok.store hb hlo hhi⟩, hnil⟩

/-- **`malloc` answers**, in every state of every run whose calls could be answered, if and only if
it does not go on from the last page of the arena. -/
theorem malloc_answers (hr : HeapReach own Answerable h live) (hn : size.toNat ≤ 2 ^ 64 - 4) :
    Answers h size avail ↔ h.start.Next (Heap.roundup4 size.toNat) := by
  obtain ⟨lost, hi, -⟩ := hr.inv fun _ _ hC => hC
  exact ⟨hi.next hn, hi.answers hn⟩

theorem mallocWord_first : newHeap.mallocWord 100#64 1 = .ok (mbegin, firstHeap) :=
  (mallocWord_eq (by decide)).trans malloc_first

/-- The first call can be answered, and no page is lost by it. -/
theorem leakFree_first : LeakFree newHeap 100#64 :=
  ⟨⟨by decide, fun hm => absurd rfl hm, fun _ hm => absurd rfl hm⟩, .inr (by decide)⟩

/-- The second call, after one for 100 bytes. -/
theorem malloc_answers_second : Answers firstHeap 200#64 0 :=
  (malloc_answers (.malloc .start leakFree_first.toAnswerable mallocWord_first) (by decide)).mpr
    fun _ _ hfit => absurd (by decide : pgnum firstHeap.mptr = _) hfit

/-- **A size that is rounded to 0**: `malloc(-1)` returns the start of the arena. -/
theorem malloc_wraps : HeapReach (fun _ => none) Answerable newHeap [] ∧
    (∃ h', newHeap.mallocWord (BitVec.allOnes 64) 1 = .ok (mbegin, h')) ∧
    ¬ Answers newHeap (BitVec.allOnes 64) 1 := by
  have hrun : ∃ h', newHeap.mallocWord (BitVec.allOnes 64) 1 = .ok (mbegin, h') := by
    rw [Heap.mallocWord, show Heap.roundupWord (BitVec.allOnes 64) = 0 by decide,
      mallocRounded_new (by decide) (by decide)]
    exact ⟨_, rfl⟩
  refine ⟨.start, hrun, fun ha => ?_⟩
  obtain ⟨h', hrun⟩ := hrun
  obtain ⟨v, g, hrun', hv⟩ := ha.returns
  cases hrun.symm.trans hrun'
  exact absurd hv (by decide)

/-- **No page is lost**: the only one is that which the cursor is inside of. -/
def NoLeak (own : Nat → Option Bool) (h : Heap) : Prop :=
  ∀ p, own p = none → h.pte p ≠ none → h.mptr % pgsize ≠ 0 ∧ p = pgnum h.mptr

/-- **All blocks are freed**: no page is lost, if every `malloc` met the condition. -/
theorem malloc_noLeak (hr : HeapReach own LeakFree h []) : NoLeak own h := by
  obtain ⟨lost, hi, hnil⟩ := hr.inv fun _ _ hC => hC.toAnswerable
  rw [hnil fun _ _ hC => hC.ends] at hi
  intro p hown hp
  -- the page is that of a block, and there is only the one for the cursor
  obtain ⟨b, hb, hlo, hhi⟩ := hi.ok.inv.used p hown hp
  by_cases hm : h.mptr % pgsize = 0
  · rw [cursorOf_eq_nil hm] at hb
    cases hb
  · rw [cursorOf_eq_single hm] at hb
    obtain rfl := List.mem_singleton.mp hb
    rw [Block.last_empty] at hhi
    exact ⟨hm, Nat.le_antisymm hhi hlo⟩

/-- The first block is freed: only the page of the cursor is left. -/
theorem malloc_noLeak_first : NoLeak (fun _ => none) (firstHeap.release 0x8000) := by
  have hfree : firstHeap.free mbegin = .ok (firstHeap.release 0x8000) := by
    rw [Heap.free, if_neg (by decide), if_pos (by decide), freeFrom,
      show firstHeap.pte (pgnum mbegin) = some false from rfl]
    rfl
  have hr : HeapReach (fun _ => none) LeakFree firstHeap [⟨mbegin, 100⟩] :=
    .malloc .start leakFree_first mallocWord_first
  exact malloc_noLeak (hr.free (List.mem_cons_self ..) hfree)

/-- **A block of a whole page** is freed, and the page of its count is still there. -/
theorem malloc_leaks : ∃ h, HeapReach (fun _ => none) (fun _ n => n.toNat < maxmalloc) h [] ∧
    h.pte 0x8001 ≠ none ∧ ¬ NoLeak (fun _ => none) h := by
  obtain ⟨g, hrun, hm, hcont, hlast, href⟩ : ∃ g, newHeap.mallocWord 4096#64 2 = .ok (mbegin, g) ∧
      g.mptr = mbegin + 4096 ∧ g.pte 0x8000 = some true ∧ g.pte 0x8001 = some false ∧
      g.ref 0x8001 = 2#32 := by
    rw [Heap.mallocWord, show Heap.roundupWord 4096#64 = 4096 by decide,
      mallocRounded_new (by decide) (by decide)]
    exact ⟨_, rfl, rfl, rfl, rfl, rfl⟩
  have hpte : (g.sysPageUnmap (0x8000 * pgsize)).pte 0x8001 = some false := by
    rw [sysPageUnmap_pte, if_neg (by decide), hlast]
  obtain ⟨hmem, hm'⟩ := sysPageUnmap_rest g (0x8000 * pgsize)
  have href' := (ref_congr hmem 0x8001).trans href
  have hfree : g.free mbegin = .ok ((g.sysPageUnmap (0x8000 * pgsize)).release 0x8001) := by
    rw [Heap.free, if_neg (by decide), if_pos (by decide), show pgnum mbegin = 0x8000 from rfl,
      freeFrom, hcont]
    rw [if_pos (by decide), show 0x8000 + 1 = 0x8001 from rfl, freeFrom, hpte]
  have hr : HeapReach (fun _ => none) (fun _ n => n.toNat < maxmalloc) g [⟨mbegin, 4096⟩] :=
    .malloc .start (by decide) hrun
  have hr' := hr.free (List.mem_cons_self ..) hfree
  -- the count goes from 2 to 1
  rw [release, href', if_neg (by decide)] at hr'
  have hmapped := hpte.symm ▸ Option.some_ne_none false
  refine ⟨_, hr', hmapped, fun hleak => (hleak 0x8001 rfl hmapped).1 ?_⟩
  exact (congrArg (· % pgsize) (hm'.trans hm)).trans (by decide)

end JosVmm
