import JosVmm.Machine.Words

/-!
# User library — malloc

`lib/malloc.c`: blocks are cut from pages one after the other, with `mptr` the cursor.  A page has
the number of blocks that use it in its last word, with one more for the cursor while it is inside
the page, and is unmapped when that number reaches 0.  The pages of a block that is larger than a
page, except for its last one, have no such word and are marked `PTE_CONTINUED` instead.

A run is a sequence of calls of `malloc` and `free` and of stores by the program into its blocks,
with whatever pages the program maps elsewhere.  In each state the blocks are disjoint, in mapped
pages, and off the count words, and no count is below the number of blocks of its page
(`malloc_safe`).
-/

namespace JosVmm

open Function List Nat

/-- `mbegin`, `mend` and `MAXMALLOC`. -/
def mbegin : Nat := 0x08000000
def mend : Nat := 0x10000000
def maxmalloc : Nat := 1024 * 1024

/-- `UTOP`, as an address. -/
def userTop : Nat := 0x8000800000

/-- The cursor, the page table of the process, and its memory by words of four bytes.  An entry of
the page table that is present has `PTE_CONTINUED` or not. -/
structure Heap where
  mptr : Nat
  pte : Nat → Option Bool
  mem : Nat → BitVec 32

/-- What stops the process: an assertion that fails, or an access to a page that is not there. -/
inductive HeapFault where
  | assertion
  | pageFault
  deriving DecidableEq

/-- The last word of a page. -/
def refWord (p : Nat) : Nat := 1024 * p + 1023

namespace Heap

/-- The count of a page, if it has one. -/
def ref (h : Heap) (p : Nat) : BitVec 32 := h.mem (refWord p)

def setRef (h : Heap) (p : Nat) (r : BitVec 32) : Heap :=
  { h with mem := update h.mem (refWord p) r }

/-- `sys_page_alloc(0, va, PTE_P|PTE_U|PTE_W|cont)`, when it succeeds. -/
def sysPageAlloc (h : Heap) (va : Nat) (cont : Bool) : Heap :=
  { h with
    pte := update h.pte (pgnum va) (some cont)
    mem := fun a => if a / 1024 = pgnum va then 0#32 else h.mem a }

/-- `sys_page_unmap(0, va)`. -/
def sysPageUnmap (h : Heap) (va : Nat) : Heap :=
  if va < userTop then { h with pte := update h.pte (pgnum va) none } else h

/-- `isfree`; the end of the range is an address of 64 bits. -/
def isfree (h : Heap) (v n : Nat) : Bool :=
  (List.range (((v + n) % 2 ^ 64 - v + (pgsize - 1)) / pgsize)).all fun i =>
    decide (v + i * pgsize < mend) && (h.pte (pgnum (v + i * pgsize))).isNone

/-- The count of the page `p` is decremented, and the page is unmapped at 0. -/
def release (h : Heap) (p : Nat) : Heap :=
  let h' := h.setRef p (h.ref p - 1#32)
  if h.ref p - 1#32 = 0#32 then h'.sysPageUnmap (p * pgsize) else h'

/-- The loop of `free` over the pages with `PTE_CONTINUED`, from the page `c` on, and the page
after them. -/
def freeFrom (h : Heap) (c : Nat) : Except HeapFault Heap :=
  match h.pte c with
  | none => .error .pageFault
  | some false => .ok (h.release c)
  | some true =>
    if mbegin ≤ (c + 1) * pgsize ∧ (c + 1) * pgsize < mend then
      freeFrom (h.sysPageUnmap (c * pgsize)) (c + 1)
    else
      .error .assertion
termination_by mend / pgsize - c
decreasing_by simp only [mend, pgsize] at *; omega

/-- `free`. -/
def free (h : Heap) (v : Nat) : Except HeapFault Heap :=
  if v = 0 then .ok h
  else if mbegin ≤ v ∧ v < mend then h.freeFrom (pgnum v)
  else .error .assertion

/-- The loop of `malloc` that moves the cursor to a range of free pages; `wrapped` is whether it has
come to `mend` before.  Addresses have 64 bits, so that there are `2^52` pages. -/
def findSpace (h : Heap) (n : Nat) (wrapped : Bool) (page : BitVec 52) : Option (BitVec 52) :=
  if h.isfree (page.toNat * pgsize) (n + 4) then
    some page
  else if page + 1#52 = BitVec.ofNat 52 (mend / pgsize) then
    if wrapped then none else h.findSpace n true (BitVec.ofNat 52 (mbegin / pgsize))
  else
    h.findSpace n wrapped (page + 1#52)
termination_by (if wrapped then 0 else 1, (BitVec.ofNat 52 (mend / pgsize) - 1#52 - page).toNat)
decreasing_by
  · rename_i hw
    rw [if_neg hw]
    exact Prod.Lex.left _ _ (by decide)
  · rename_i hne
    refine Prod.Lex.right _ ?_
    simp only [mend, pgsize] at hne ⊢
    bv_omega

/-- The pages `0` to `i` from `v` on are unmapped. -/
def unmapDown (h : Heap) (v : Nat) : Nat → Heap
  | 0 => h.sysPageUnmap v
  | i + 1 => (h.sysPageUnmap (v + (i + 1) * pgsize)).unmapDown v i

/-- The loop of `malloc` that maps the pages for `n` bytes and a count, from round `i` on for `k`
rounds.  It fails when there are no more pages. -/
def allocPages (h : Heap) (v n avail : Nat) : Nat → Nat → Bool × Heap
  | _, 0 => (true, h)
  | i, k + 1 =>
    if avail ≤ i ∨ userTop ≤ v + i * pgsize then
      (false, h.unmapDown v i)
    else
      (h.sysPageAlloc (v + i * pgsize) (decide (i * pgsize + pgsize < n + 4))).allocPages v n avail
        (i + 1) k

/-- The number of rounds of that loop. -/
def pagesFor (n : Nat) : Nat := (n + 4 + (pgsize - 1)) / pgsize

/-- The end of `malloc`: with pages for the block, it has a count for the cursor and the block. -/
def handOut (v n : Nat) : Bool × Heap → Nat × Heap
  | (false, h) => (0, h)
  | (true, h) => (v, { h.setRef (pgnum v + pagesFor n - 1) 2#32 with mptr := v + n })

/-- The part of `malloc` that starts at a new page. -/
def mallocPages (h : Heap) (n avail : Nat) : Nat × Heap :=
  match h.findSpace n false (BitVec.ofNat 52 (pgnum h.mptr)) with
  | none => (0, { h with mptr := mbegin })
  | some page =>
    let v := page.toNat * pgsize
    handOut v n ({ h with mptr := v }.allocPages v n avail 0 (pagesFor n))

/-- The cursor of a `malloc`, which starts at `mbegin`. -/
def start (h : Heap) : Heap := if h.mptr = 0 then { h with mptr := mbegin } else h

/-- `ROUNDUP(n, 4)`. -/
def roundup4 (n : Nat) : Nat := (n + 3) / 4 * 4

/-- The rest of `malloc`, for `n` bytes. -/
def mallocRounded (h : Heap) (n avail : Nat) : Except HeapFault (Nat × Heap) :=
  if maxmalloc ≤ n then
    .ok (0, h)
  else if h.mptr % pgsize = 0 then
    .ok (h.mallocPages n avail)
  else if pgnum h.mptr = pgnum (h.mptr + n - 1 + 4) then
    -- the block fits into the page, with the count after it
    if h.pte (pgnum h.mptr) = none then .error .pageFault
    else .ok (h.mptr, { h.setRef (pgnum h.mptr) (h.ref (pgnum h.mptr) + 1#32) with
      mptr := h.mptr + n })
  else do
    let h' ← h.free h.mptr
    return { h' with mptr := pgnum (h.mptr + pgsize) * pgsize }.mallocPages n avail

/-- `malloc`, when `sys_page_alloc` finds `avail` pages: the address of the block, or 0. -/
def malloc (h : Heap) (n avail : Nat) : Except HeapFault (Nat × Heap) :=
  h.start.mallocRounded (roundup4 n) avail

end Heap

/-! ### Runs -/

/-- A block that `malloc` returned, and the size that it was asked for. -/
structure Block where
  start : Nat
  size : Nat
  deriving DecidableEq

namespace Block

def fin (b : Block) : Nat := b.start + b.size

/-- The end of what is reserved for the block. -/
def stop (b : Block) : Nat := b.start + Heap.roundup4 b.size

/-- The page with the count that the block is part of. -/
def last (b : Block) : Nat := pgnum b.stop

/-- The block, or its end, is in the page. -/
def Uses (b : Block) (p : Nat) : Prop := pgnum b.start ≤ p ∧ p ≤ pgnum b.fin

instance (b : Block) (p : Nat) : Decidable (b.Uses p) := inferInstanceAs (Decidable (_ ∧ _))

end Block

/-- Runs of a process that has mapped the pages of `own`, with the blocks that are live. -/
inductive HeapRun (own : Nat → Option Bool) : Heap → List Block → Prop where
  | start {mem : Nat → BitVec 32} : HeapRun own ⟨0, own, mem⟩ []
  | malloc {h h' : Heap} {live : List Block} {n avail v : Nat} : HeapRun own h live → 1 ≤ n →
      n ≤ maxmalloc → h.malloc n avail = .ok (v, h') →
      HeapRun own h' (if v = 0 then live else ⟨v, n⟩ :: live)
  | free {h h' : Heap} {live : List Block} {b : Block} : HeapRun own h live → b ∈ live →
      h.free b.start = .ok h' → HeapRun own h' (live.erase b)
  /-- A store into a block. -/
  | store {h : Heap} {live : List Block} {b : Block} {a : Nat} {w : BitVec 32} :
      HeapRun own h live → b ∈ live → b.start ≤ 4 * a → 4 * a < b.fin →
      HeapRun own { h with mem := update h.mem a w } live

/-- The page has a count: it is one of the pages that `malloc` mapped, and not continued. -/
def Counted (own : Nat → Option Bool) (h : Heap) (p : Nat) : Prop :=
  own p = none ∧ h.pte p = some false

/-- **No overlap.**  The blocks are disjoint, in mapped pages, and off the count words; and the
count of a page is not less than the number of blocks that lie or end in it. -/
structure HeapSafe (own : Nat → Option Bool) (h : Heap) (live : List Block) : Prop where
  disjoint : live.Pairwise fun b c => b.fin ≤ c.start ∨ c.fin ≤ b.start
  mapped : ∀ b ∈ live, ∀ a, b.start ≤ a → a < b.fin → h.pte (pgnum a) ≠ none
  offCounts : ∀ b ∈ live, ∀ a, b.start ≤ a → a < b.fin → ∀ p, Counted own h p → a / 4 ≠ refWord p
  counts : ∀ p, Counted own h p → live.countP (fun b => b.Uses p) ≤ (h.ref p).toNat

variable {own : Nat → Option Bool} {h h' : Heap} {live lost H : List Block} {b b' : Block}
  {c k m n p q v avail : Nat}

/-! ### The invariant -/

/-- The pages of a block: the last one has a count, the others are continued. -/
structure InPages (own : Nat → Option Bool) (h : Heap) (b : Block) : Prop where
  aligned : b.start % 4 = 0
  counted : Counted own h b.last
  continued : ∀ p, pgnum b.start ≤ p → p < b.last → own p = none ∧ h.pte p = some true
  whole : pgnum b.start < b.last → b.start % pgsize = 0

def BlocksApart (b c : Block) : Prop := b.stop ≤ c.start ∨ c.stop ≤ b.start

theorem BlocksApart.symm {b c : Block} (h : BlocksApart b c) : BlocksApart c b := Or.symm h

/-- **The pages of `malloc` are those of the blocks `H`**, and each count is the number of blocks
that end in its page.  The cursor is a block of no bytes here, and a reference that is never dropped
is a block that is never freed. -/
structure HeapInv (own : Nat → Option Bool) (h : Heap) (H : List Block) : Prop where
  kept : ∀ p, own p ≠ none → h.pte p = own p
  placed : ∀ b ∈ H, InPages own h b
  apart : H.Pairwise BlocksApart
  counts : ∀ p, Counted own h p → H.countP (fun b => b.last = p) = (h.ref p).toNat
  used : ∀ p, own p = none → h.pte p ≠ none → ∃ b ∈ H, pgnum b.start ≤ p ∧ p ≤ b.last

theorem roundup4_mod (n : Nat) : Heap.roundup4 n % 4 = 0 := mul_mod_left ..

theorem le_roundup4 (n : Nat) : n ≤ Heap.roundup4 n := by
  rw [Heap.roundup4]
  omega

theorem Block.fin_le_stop (b : Block) : b.fin ≤ b.stop := Nat.add_le_add_left (le_roundup4 _) _

theorem pgnum_mono {a b : Nat} (h : a ≤ b) : pgnum a ≤ pgnum b := Nat.div_le_div_right h

theorem Block.start_le_last (b : Block) : pgnum b.start ≤ b.last := pgnum_mono (Nat.le_add_right ..)

section

variable (hb : InPages own h b)
include hb

theorem InPages.stop_mod : b.stop % 4 = 0 := by
  have h1 := hb.aligned
  have h2 := roundup4_mod b.size
  rw [Block.stop]
  omega

/-- A page with a count that the block uses is its last. -/
theorem InPages.eq_last (hp : Counted own h p) (hlo : pgnum b.start ≤ p) (hhi : p ≤ b.last) :
    p = b.last := by
  by_contra hne
  have hc := (hb.continued p hlo (by omega)).2
  rw [hp.2] at hc
  cases hc

theorem InPages.present (hlo : pgnum b.start ≤ q) (hhi : q ≤ b.last) : h.pte q ≠ none := by
  obtain heq | hlt := Nat.eq_or_lt_of_le hhi
  · rw [heq, hb.counted.2]
    exact Option.some_ne_none _
  · rw [(hb.continued q hlo hlt).2]
    exact Option.some_ne_none _

/-- What the block needs of the heap is its pages. -/
theorem InPages.congr (hpte : ∀ q, pgnum b.start ≤ q → q ≤ b.last → h'.pte q = h.pte q) :
    InPages own h' b where
  aligned := hb.aligned
  counted := ⟨hb.counted.1, (hpte _ b.start_le_last (Nat.le_refl _)).trans hb.counted.2⟩
  continued q hlo hhi := by
    rw [hpte q hlo hhi.le]
    exact hb.continued q hlo hhi
  whole := hb.whole

end

theorem HeapInv.perm {H' : List Block} (hi : HeapInv own h H) (hp : H.Perm H') :
    HeapInv own h H' where
  kept := hi.kept
  placed b hb := hi.placed b (hp.mem_iff.mpr hb)
  apart := (hp.pairwise_iff BlocksApart.symm).mp hi.apart
  counts p hc := by rw [← hp.countP_eq, hi.counts p hc]
  used p hown hpte := by
    obtain ⟨b, hb, hin⟩ := hi.used p hown hpte
    exact ⟨b, hp.mem_iff.mp hb, hin⟩

/-! ### Pages -/

theorem pgnum_page (p : Nat) : pgnum (p * pgsize) = p := Nat.mul_div_cancel p (by decide)

theorem ref_congr (hmem : h'.mem = h.mem) (p : Nat) : h'.ref p = h.ref p := by
  rw [Heap.ref, Heap.ref, hmem]

theorem setRef_ref_self (h : Heap) (p : Nat) (r : BitVec 32) : (h.setRef p r).ref p = r := by
  simp only [Heap.ref, Heap.setRef, update_self]

theorem setRef_ref_of_ne (r : BitVec 32) (hne : q ≠ p) : (h.setRef p r).ref q = h.ref q := by
  have hword : refWord q ≠ refWord p := fun he => hne (by
    simp only [refWord] at he
    omega)
  simp only [Heap.ref, Heap.setRef, update_of_ne hword]

/-- What the invariant reads of the heap. -/
theorem HeapInv.congr (hi : HeapInv own h H) (hpte : h'.pte = h.pte)
    (href : ∀ p, Counted own h p → h'.ref p = h.ref p) : HeapInv own h' H := by
  refine ⟨hpte ▸ hi.kept, fun b hb => ?_, hi.apart, fun p hc => ?_, hpte ▸ hi.used⟩
  · exact (hi.placed b hb).congr fun q _ _ => congrFun hpte q
  · have hc : Counted own h p := ⟨hc.1, hpte ▸ hc.2⟩
    rw [href p hc]
    exact hi.counts p hc

theorem sysPageUnmap_pte (h : Heap) (p q : Nat) : (h.sysPageUnmap (p * pgsize)).pte q =
    if q = p ∧ p * pgsize < userTop then none else h.pte q := by
  rw [Heap.sysPageUnmap, pgnum_page]
  by_cases hlt : p * pgsize < userTop
  · rw [if_pos hlt]
    by_cases hq : q = p
    · simp [hq, hlt]
    · simp [hq]
  · simp [hlt]

theorem sysPageUnmap_rest (h : Heap) (va : Nat) :
    (h.sysPageUnmap va).mem = h.mem ∧ (h.sysPageUnmap va).mptr = h.mptr := by
  rw [Heap.sysPageUnmap]
  split <;> exact ⟨rfl, rfl⟩

/-! ### Freeing -/

/-- **What `free` does** from the page `c` on: the pages before `p` are unmapped, and `p` has a
reference less, and is unmapped without any. -/
structure HeapFreed (h h' : Heap) (c p : Nat) : Prop where
  mptr : h'.mptr = h.mptr
  unmapped : ∀ q, c ≤ q → q < p → h'.pte q = none
  last : h'.pte p = if h.ref p = 1#32 then none else h.pte p
  other : ∀ q, ¬ (c ≤ q ∧ q ≤ p) → h'.pte q = h.pte q
  ref : h'.ref p = h.ref p - 1#32
  refs : ∀ q, q ≠ p → h'.ref q = h.ref q

theorem heapFreed_release (hlt : p * pgsize < userTop) : HeapFreed h (h.release p) p p := by
  have hone : h.ref p - 1#32 = 0#32 ↔ h.ref p = 1#32 := by
    constructor <;> intro _ <;> bv_omega
  have href : (h.setRef p (h.ref p - 1#32)).ref p = h.ref p - 1#32 := setRef_ref_self ..
  have hrefs : ∀ q, q ≠ p → (h.setRef p (h.ref p - 1#32)).ref q = h.ref q := fun q hq =>
    setRef_ref_of_ne _ hq
  have hpte : (h.setRef p (h.ref p - 1#32)).pte = h.pte := rfl
  have hm : (h.setRef p (h.ref p - 1#32)).mptr = h.mptr := rfl
  rw [Heap.release]
  generalize h.setRef p (h.ref p - 1#32) = g at href hrefs hpte hm ⊢
  split
  · rename_i hzero
    obtain ⟨hmem, hm'⟩ := sysPageUnmap_rest g (p * pgsize)
    refine ⟨hm'.trans hm, fun q hlo hhi => by omega, ?_, fun q hq => ?_,
      (ref_congr hmem p).trans href, fun q hq => (ref_congr hmem q).trans (hrefs q hq)⟩
    · rw [sysPageUnmap_pte, if_pos ⟨rfl, hlt⟩, if_pos (hone.mp hzero)]
    · rw [sysPageUnmap_pte, if_neg (by omega), hpte]
  · rename_i hzero
    refine ⟨hm, fun q hlo hhi => by omega, ?_, fun q _ => congrFun hpte q, href, hrefs⟩
    rw [if_neg fun h1 => hzero (hone.mpr h1), hpte]

/-- The loop of `free`, by induction on the number of continued pages. -/
theorem heapFreed_freeFrom (hp : h.pte p = some false) (hcp : c ≤ p) (hc : c * pgsize < mend)
    (hcont : ∀ q, c ≤ q → q < p → h.pte q = some true) (hrun : h.freeFrom c = .ok h') :
    HeapFreed h h' c p := by
  obtain ⟨k, hk⟩ : ∃ k, p = c + k := Nat.exists_eq_add_of_le hcp
  induction k generalizing c h with
  | zero =>
    obtain rfl : p = c := hk
    rw [Heap.freeFrom, hp] at hrun
    cases hrun
    exact heapFreed_release (hc.trans (by decide))
  | succ k ih =>
    rw [Heap.freeFrom, hcont c (Nat.le_refl c) (by omega)] at hrun
    dsimp only at hrun
    split at hrun
    · rename_i hnext
      have hpte := sysPageUnmap_pte h c
      obtain ⟨hmem, hm⟩ := sysPageUnmap_rest h (c * pgsize)
      generalize h.sysPageUnmap (c * pgsize) = g at hpte hmem hm hrun
      have hne : ∀ q, q ≠ c → g.pte q = h.pte q := fun q hq => by
        rw [hpte, if_neg fun hc => hq hc.1]
      have hf : HeapFreed g h' (c + 1) p := ih ((hne p (by omega)).trans hp) (by omega) hnext.2
        (fun q hlo hhi => (hne q (by omega)).trans (hcont q (by omega) hhi)) hrun (by omega)
      refine ⟨hf.mptr.trans hm, fun q hlo hhi => ?_, ?_, fun q hq => ?_, ?_, fun q hq => ?_⟩
      · by_cases hq : q = c
        · rw [hf.other q (by omega), hpte, if_pos ⟨hq, hc.trans (by decide)⟩]
        · exact hf.unmapped q (by omega) hhi
      · rw [hf.last, ref_congr hmem, hne p (by omega)]
      · rw [hf.other q (by omega), hne q (by omega)]
      · rw [hf.ref, ref_congr hmem]
      · rw [hf.refs q hq, ref_congr hmem]
    · cases hrun

/-- Blocks that are apart have no continued page in common. -/
theorem InPages.page_apart (hb : InPages own h b) (hb' : InPages own h b') (hap : BlocksApart b b')
    (hlo : pgnum b.start ≤ q) (hhi : q < b.last) : ¬ (pgnum b'.start ≤ q ∧ q ≤ b'.last) := by
  rintro ⟨hlo', hhi'⟩
  have hlt' : q < b'.last := by
    refine Nat.lt_of_le_of_ne hhi' fun heq => ?_
    have hc := (hb.continued q hlo hhi).2
    rw [heq, hb'.counted.2] at hc
    cases hc
  have hw := hb.whole (hlo.trans_lt hhi)
  have hw' := hb'.whole (hlo'.trans_lt hlt')
  -- both contain the first byte of the page
  rw [Block.last] at hhi hlt'
  rw [BlocksApart] at hap
  simp only [pgnum, pgsize] at *
  omega

theorem InPages.own_none (hb : InPages own h b) (hlo : pgnum b.start ≤ q) (hhi : q ≤ b.last) :
    own q = none := by
  obtain rfl | hlt := Nat.eq_or_lt_of_le hhi
  · exact hb.counted.1
  · exact (hb.continued q hlo hlt).1

/-- **A block is freed.** -/
theorem HeapInv.freed (hi : HeapInv own h (b :: H)) (hf : HeapFreed h h' (pgnum b.start) b.last) :
    HeapInv own h' H := by
  obtain ⟨hb, hplaced⟩ := List.forall_mem_cons.mp hi.placed
  obtain ⟨hapart, htail⟩ := List.pairwise_cons.mp hi.apart
  have hle := b.start_le_last
  have hcount : H.countP (fun c => c.last = b.last) + 1 = (h.ref b.last).toNat := by
    rw [← hi.counts _ hb.counted, countP_cons_of_pos (by simp)]
  have hlast : ∀ c ∈ H, c.last = b.last → h'.pte b.last = h.pte b.last := fun c hc hcl => by
    have hpos : 0 < H.countP fun c => c.last = b.last :=
      List.countP_pos_iff.mpr ⟨c, hc, by simpa using hcl⟩
    rw [hf.last, if_neg]
    intro h1
    rw [h1] at hcount
    exact hpos.ne' (Nat.succ.inj hcount)
  have hkeep : ∀ c ∈ H, ∀ q, pgnum c.start ≤ q → q ≤ c.last → h'.pte q = h.pte q := by
    intro c hc q hlo hhi
    by_cases hq : pgnum b.start ≤ q ∧ q ≤ b.last
    · obtain rfl | hlt := Nat.eq_or_lt_of_le hq.2
      · exact hlast c hc ((hplaced c hc).eq_last hb.counted hlo hhi).symm
      · exact absurd ⟨hlo, hhi⟩ (hb.page_apart (hplaced c hc) (hapart c hc) hq.1 hlt)
    · exact hf.other q hq
  -- a page that is still there
  have hthere : ∀ q, h'.pte q ≠ none → q ≠ b.last → h'.pte q = h.pte q := fun q hq hne => by
    refine hf.other q fun hin => hq (hf.unmapped q hin.1 ?_)
    exact Nat.lt_of_le_of_ne hin.2 hne
  refine ⟨fun q hq => ?_, fun c hc => (hplaced c hc).congr (hkeep c hc), htail,
    fun q hc => ?_, fun q hown hq => ?_⟩
  · rw [hf.other q fun hin => hq (hb.own_none hin.1 hin.2)]
    exact hi.kept q hq
  · by_cases hq : q = b.last
    · subst hq
      rw [hf.ref]
      bv_omega
    · have hpte := hthere q (by rw [hc.2]; exact Option.some_ne_none _) hq
      rw [hf.refs q hq, ← hi.counts q ⟨hc.1, hpte ▸ hc.2⟩,
        countP_cons_of_neg (by simpa using Ne.symm hq)]
  · by_cases hlq : q = b.last
    · subst hlq
      rw [hf.last] at hq
      have hpos : 0 < H.countP fun c => c.last = b.last := by
        split at hq
        · exact absurd rfl hq
        · rename_i hne
          bv_omega
      obtain ⟨c, hc, hcl⟩ := List.countP_pos_iff.mp hpos
      have hcl : c.last = b.last := by simpa using hcl
      exact ⟨c, hc, hcl ▸ c.start_le_last, hcl.ge⟩
    · obtain ⟨c, hc, hin⟩ := hi.used q hown (hthere q hq hlq ▸ hq)
      obtain rfl | hc := List.mem_cons.mp hc
      · exact absurd (hf.unmapped q hin.1 (Nat.lt_of_le_of_ne hin.2 hlq)) hq
      · exact ⟨c, hc, hin⟩

/-- **`free`** of a block. -/
theorem HeapInv.free (hi : HeapInv own h (b :: H)) (hb : b.start ≠ 0)
    (hrun : h.free b.start = .ok h') : HeapInv own h' H ∧ h'.mptr = h.mptr := by
  have hpl := hi.placed b (mem_cons_self ..)
  rw [Heap.free, if_neg hb] at hrun
  split at hrun
  · rename_i hin
    have hf := heapFreed_freeFrom hpl.counted.2 b.start_le_last
      ((div_mul_le_self ..).trans_lt hin.2) (fun q hlo hhi => (hpl.continued q hlo hhi).2) hrun
    exact ⟨hi.freed hf, hf.mptr⟩
  · cases hrun

/-! ### New pages -/

theorem findSpace_isfree {w : Bool} {page page' : BitVec 52}
    (hf : h.findSpace n w page = some page') : h.isfree (page'.toNat * pgsize) (n + 4) = true := by
  fun_induction Heap.findSpace h n w page with
  | case1 w page hfree =>
    cases hf
    exact hfree
  | case2 => cases hf
  | case3 w page _ _ hw ih => exact ih hf
  | case4 w page _ _ ih => exact ih hf

/-- The pages of a range that is free; a range that wraps around starts above `UTOP`. -/
theorem isfree_pages (hf : h.isfree (p * pgsize) (n + 4) = true) (hn : n < maxmalloc)
    (hp : p < 2 ^ 52) : userTop ≤ p * pgsize ∨
      ∀ q, p ≤ q → q < p + Heap.pagesFor n → h.pte q = none := by
  by_cases hw : p * pgsize + (n + 4) < 2 ^ 64
  · refine .inr fun q hlo hhi => ?_
    rw [Heap.isfree, mod_eq_of_lt hw, Nat.add_sub_cancel_left, all_eq_true] at hf
    have hq := hf (q - p) (List.mem_range.mpr (by rw [Heap.pagesFor] at hhi; omega))
    rw [← Nat.add_mul, Nat.add_sub_cancel' hlo, pgnum_page] at hq
    simpa using (Bool.and_eq_true_iff.mp hq).2
  · refine .inl ?_
    simp only [userTop, pgsize, maxmalloc, Nat.reducePow] at *
    omega

/-- The pages from `p` to `p + i` are unmapped, and nothing else changes. -/
theorem unmapDown_spec (h : Heap) (p i : Nat) :
    (∀ q, (h.unmapDown (p * pgsize) i).pte q =
      if p ≤ q ∧ q ≤ p + i ∧ q * pgsize < userTop then none else h.pte q) ∧
    (h.unmapDown (p * pgsize) i).mem = h.mem ∧ (h.unmapDown (p * pgsize) i).mptr = h.mptr := by
  induction i generalizing h with
  | zero =>
    refine ⟨fun q => ?_, sysPageUnmap_rest h _⟩
    rw [Heap.unmapDown, sysPageUnmap_pte]
    refine if_congr ?_ rfl rfl
    constructor
    · rintro ⟨rfl, hlt⟩
      exact ⟨Nat.le_refl q, Nat.le_refl q, hlt⟩
    · rintro ⟨hlo, hhi, hlt⟩
      obtain rfl : q = p := by omega
      exact ⟨rfl, hlt⟩
  | succ i ih =>
    obtain ⟨hpte, hmem, hmptr⟩ := ih (h.sysPageUnmap ((p + (i + 1)) * pgsize))
    rw [Heap.unmapDown, ← Nat.add_mul]
    refine ⟨fun q => ?_, hmem.trans (sysPageUnmap_rest h _).1,
      hmptr.trans (sysPageUnmap_rest h _).2⟩
    rw [hpte, sysPageUnmap_pte]
    by_cases hq : q = p + (i + 1)
    · subst hq
      simp
    · have hle : q ≤ p + (i + 1) ↔ q ≤ p + i := by omega
      simp [hq, hle]

theorem sysPageAlloc_ref {c : Bool} (hne : q ≠ p) :
    (h.sysPageAlloc (p * pgsize) c).ref q = h.ref q := by
  have hword : refWord q / 1024 ≠ p := by
    rw [refWord]
    omega
  rw [Heap.ref, Heap.sysPageAlloc, pgnum_page]
  exact if_neg hword

/-- **The loop that maps pages**, from round `i` on: the pages are mapped and all but the last are
continued, or they are all unmapped. -/
theorem allocPages_spec (p n avail : Nat) : ∀ (k i : Nat) (h h' : Heap) (ok : Bool),
    (∀ q, p + i ≤ q → q < p + i + k → h.pte q = none) →
    (∀ q, p ≤ q → q < p + i → q * pgsize < userTop) →
    h.allocPages (p * pgsize) n avail i k = (ok, h') →
    h'.mptr = h.mptr ∧
    (∀ q, ¬ (p ≤ q ∧ q < p + i + k) → h'.pte q = h.pte q ∧ h'.ref q = h.ref q) ∧
    (ok = true → (∀ q, q < p + i → h'.pte q = h.pte q) ∧ ∀ q, p + i ≤ q → q < p + i + k →
      h'.pte q = some (decide ((q - p) * pgsize + pgsize < n + 4)) ∧ q * pgsize < userTop) ∧
    (ok = false → ∀ q, p ≤ q → q < p + i + k → h'.pte q = none)
  | 0, i, h, h', ok, _, _, hrun => by
    cases hrun
    refine ⟨rfl, fun q _ => ⟨rfl, rfl⟩, fun _ => ⟨fun q _ => rfl, fun q hlo hhi => ?_⟩, nofun⟩
    omega
  | k + 1, i, h, h', ok, hnone, hbelow, hrun => by
    rw [Heap.allocPages, ← Nat.add_mul] at hrun
    split at hrun
    · rename_i hstop
      cases hrun
      obtain ⟨hpte, hmem, hmptr⟩ := unmapDown_spec h p i
      refine ⟨hmptr, fun q hq => ⟨?_, ref_congr hmem q⟩, nofun, fun _ q hlo hhi => ?_⟩
      · rw [hpte, if_neg fun hc => hq ⟨hc.1, by omega⟩]
      · rw [hpte]
        split
        · rfl
        · rename_i hc
          -- a page above `UTOP` is not one of those that were mapped before
          refine hnone q ?_ (by omega)
          by_contra hlt
          exact hc ⟨hlo, by omega, hbelow q hlo (by omega)⟩
    · rename_i hgo
      obtain ⟨hav, hlt⟩ := not_or.mp hgo
      have hpage : pgnum ((p + i) * pgsize) = p + i := Nat.mul_div_cancel _ (by decide)
      generalize hc : decide (i * pgsize + pgsize < n + 4) = c at hrun
      have hpte : ∀ q, q ≠ p + i →
          (h.sysPageAlloc ((p + i) * pgsize) c).pte q = h.pte q := fun q hq => by
        rw [Heap.sysPageAlloc, hpage]
        exact update_of_ne hq ..
      have hself : (h.sysPageAlloc ((p + i) * pgsize) c).pte (p + i) = some c := by
        rw [Heap.sysPageAlloc, hpage]
        exact update_self ..
      obtain ⟨hmptr, hout, htrue, hfalse⟩ := allocPages_spec p n avail k (i + 1) _ h' ok
        (fun q hlo hhi => (hpte q (by omega)).trans (hnone q (by omega) (by omega)))
        (fun q hlo hhi => by
          by_cases hq : q = p + i
          · rw [hq]
            omega
          · exact hbelow q hlo (by omega)) hrun
      refine ⟨hmptr, fun q hq => ?_, fun hok => ⟨fun q hq => ?_, fun q hlo hhi => ?_⟩,
        fun hok q hlo hhi => hfalse hok q hlo (by omega)⟩
      · obtain ⟨h1, h2⟩ := hout q (by omega)
        exact ⟨h1.trans (hpte q (by omega)), h2.trans (sysPageAlloc_ref (by omega))⟩
      · exact ((htrue hok).1 q (by omega)).trans (hpte q (by omega))
      · by_cases hq : q = p + i
        · subst hq
          rw [(htrue hok).1 _ (by omega), hself, Nat.add_sub_cancel_left, hc]
          exact ⟨rfl, by omega⟩
        · exact (htrue hok).2 q (by omega) (by omega)

theorem pagesFor_eq (hn : n % 4 = 0) : Heap.pagesFor n = n / pgsize + 1 := by
  simp only [Heap.pagesFor, pgsize]
  omega

/-- `k` pages from `p` on are new: continued, except for the last, which has a count of 2. -/
structure HeapGrown (h h' : Heap) (p k : Nat) : Prop where
  new : ∀ q, p ≤ q → q < p + k → h.pte q = none ∧ h'.pte q = some (decide (q + 1 < p + k))
  old : ∀ q, ¬ (p ≤ q ∧ q < p + k) → h'.pte q = h.pte q ∧ h'.ref q = h.ref q
  ref : h'.ref (p + k - 1) = 2#32

/-- The pages are mapped, and the last one gets its count. -/
theorem heapGrown_of_allocPages (hn : n % 4 = 0)
    (hpages : userTop ≤ p * pgsize ∨ ∀ q, p ≤ q → q < p + Heap.pagesFor n → h.pte q = none)
    (ha : h.allocPages (p * pgsize) n avail 0 (Heap.pagesFor n) = (true, h')) :
    HeapGrown h (h'.setRef (p + Heap.pagesFor n - 1) 2#32) p (Heap.pagesFor n) := by
  obtain htop | hnone := hpages
  · rw [pagesFor_eq hn, Heap.allocPages, if_pos (.inr (by omega))] at ha
    cases ha
  · obtain ⟨-, hout, htrue, -⟩ := allocPages_spec p n avail _ 0 h h' true hnone
      (fun q hlo hhi => by omega) ha
    refine ⟨fun q hlo hhi => ⟨hnone q hlo hhi, ?_⟩, fun q hq => ⟨(hout q hq).1, ?_⟩,
      setRef_ref_self ..⟩
    · refine (((htrue rfl).2 q hlo hhi).1).trans ?_
      rw [Option.some.injEq, decide_eq_decide, pagesFor_eq hn]
      simp only [pgsize] at hn ⊢
      omega
    · have hk : 0 < Heap.pagesFor n := pagesFor_eq hn ▸ succ_pos _
      rw [setRef_ref_of_ne _ (by omega)]
      exact (hout q hq).2

/-- The pages cannot be mapped: nothing changes. -/
theorem HeapInv.allocPages_false (hi : HeapInv own h H) (hn : n % 4 = 0)
    (hpages : userTop ≤ p * pgsize ∨ ∀ q, p ≤ q → q < p + Heap.pagesFor n → h.pte q = none)
    (ha : h.allocPages (p * pgsize) n avail 0 (Heap.pagesFor n) = (false, h')) :
    HeapInv own h' H ∧ h'.mptr = h.mptr := by
  obtain htop | hnone := hpages
  · rw [pagesFor_eq hn, Heap.allocPages, if_pos (.inr (by omega))] at ha
    cases ha
    obtain ⟨hpte, hmem, hmptr⟩ := unmapDown_spec h p 0
    refine ⟨hi.congr (funext fun q => ?_) fun q _ => ref_congr hmem q, hmptr⟩
    rw [hpte, if_neg]
    rintro ⟨hlo, hhi, hlt⟩
    obtain rfl : q = p := by omega
    omega
  · obtain ⟨hmptr, hout, -, hfalse⟩ := allocPages_spec p n avail _ 0 h h' false hnone
      (fun q hlo hhi => by omega) ha
    refine ⟨hi.congr (funext fun q => ?_) fun q hc => (hout q fun hq => ?_).2, hmptr⟩
    · by_cases hq : p ≤ q ∧ q < p + Heap.pagesFor n
      · rw [hfalse rfl q hq.1 hq.2, hnone q hq.1 hq.2]
      · exact (hout q hq).1
    · exact absurd ((hnone q hq.1 hq.2).symm.trans hc.2) nofun

theorem blocksApart_of_pages {b c : Block} (h : c.last < pgnum b.start ∨ b.last < pgnum c.start) :
    BlocksApart b c := by
  simp only [BlocksApart, Block.last, pgnum, pgsize] at h ⊢
  omega

theorem Block.stop_empty (m : Nat) : (⟨m, 0⟩ : Block).stop = m := by
  rw [Block.stop, show Heap.roundup4 0 = 0 by decide, Nat.add_zero]

theorem Block.last_empty (m : Nat) : (⟨m, 0⟩ : Block).last = pgnum m :=
  congrArg pgnum (stop_empty m)

/-- A block that lies in its last page. -/
theorem InPages.of_last (ha : b.start % 4 = 0) (hc : Counted own h b.last)
    (hp : pgnum b.start = b.last) : InPages own h b :=
  ⟨ha, hc, fun q hlo hhi => by omega, fun hlt => by omega⟩

/-- **New pages**, with a block and the cursor behind it. -/
theorem HeapInv.grow (hi : HeapInv own h H) (hg : HeapGrown h h' p k)
    (hk : k = Heap.roundup4 n / pgsize + 1) :
    HeapInv own h' (⟨p * pgsize + Heap.roundup4 n, 0⟩ :: ⟨p * pgsize, n⟩ :: H) ∧
      ∀ c ∈ H, c.last ≠ pgnum (p * pgsize + Heap.roundup4 n) := by
  have h4 := roundup4_mod n
  have hend : pgnum (p * pgsize + Heap.roundup4 n) = p + k - 1 := by
    rw [pgnum, Nat.add_comm, add_mul_div_right _ _ (by decide), hk]
    exact Nat.add_comm ..
  have hpos : 0 < k := hk ▸ succ_pos _
  clear hk
  have hlast : (⟨p * pgsize, n⟩ : Block).last = p + k - 1 := hend
  have hlast' : (⟨p * pgsize + Heap.roundup4 n, 0⟩ : Block).last = p + k - 1 :=
    (Block.last_empty _).trans hend
  have hold : ∀ q, h.pte q ≠ none → ¬ (p ≤ q ∧ q < p + k) := fun q hq hin =>
    hq (hg.new q hin.1 hin.2).1
  have hown : ∀ q, p ≤ q → q < p + k → own q = none := fun q hlo hhi => by
    by_contra hq
    exact hold q (hi.kept q hq ▸ hq) ⟨hlo, hhi⟩
  have hcounted : Counted own h' (p + k - 1) := by
    refine ⟨hown _ (by omega) (by omega), ?_⟩
    rw [(hg.new _ (by omega) (by omega)).2, Option.some.injEq, decide_eq_false_iff_not]
    omega
  -- the pages of the other blocks are old
  have hout : ∀ c ∈ H, c.last < p ∨ p + k ≤ pgnum c.start := fun c hc => by
    have hle := c.start_le_last
    by_contra hno
    exact hold (max p (pgnum c.start)) ((hi.placed c hc).present (by omega) (by omega)) (by omega)
  have hne : ∀ c ∈ H, c.last ≠ p + k - 1 := fun c hc hcl => by
    have h1 := hout c hc
    have h2 := c.start_le_last
    omega
  have haligned : p * pgsize % 4 = 0 := by
    simp only [pgsize]
    omega
  have haligned' : (p * pgsize + Heap.roundup4 n) % 4 = 0 := by omega
  have hblock : InPages own h' ⟨p * pgsize, n⟩ := by
    refine ⟨haligned, hlast ▸ hcounted, fun q hlo hhi => ?_, fun _ => mul_mod_left ..⟩
    rw [pgnum_page] at hlo
    rw [hlast] at hhi
    refine ⟨hown q hlo (by omega), ?_⟩
    rw [(hg.new q hlo (by omega)).2, Option.some.injEq, decide_eq_true_eq]
    omega
  have hcursor : InPages own h' ⟨p * pgsize + Heap.roundup4 n, 0⟩ :=
    .of_last haligned' (hlast' ▸ hcounted) (Block.last_empty _).symm
  refine ⟨⟨fun q hq => ?_, ?_, ?_, fun q hc => ?_, fun q hq hpte => ?_⟩, hend.symm ▸ hne⟩
  · have hkept := hi.kept q hq
    rw [(hg.old q (hold q (hkept ▸ hq))).1, hkept]
  · refine List.forall_mem_cons.mpr ⟨hcursor, List.forall_mem_cons.mpr ⟨hblock, fun c hc => ?_⟩⟩
    refine (hi.placed c hc).congr fun q hlo hhi => (hg.old q ?_).1
    exact hold q ((hi.placed c hc).present hlo hhi)
  · refine List.pairwise_cons.mpr ⟨List.forall_mem_cons.mpr ⟨.inr (Nat.le_refl _), fun c hc => ?_⟩,
      List.pairwise_cons.mpr ⟨fun c hc => ?_, hi.apart⟩⟩
    · have := hout c hc
      refine blocksApart_of_pages ?_
      rw [hlast', hend]
      omega
    · have := hout c hc
      refine blocksApart_of_pages ?_
      rw [hlast, pgnum_page]
      omega
  · by_cases hq : q = p + k - 1
    · have hzero : H.countP (fun c => c.last = p + k - 1) = 0 :=
        List.countP_eq_zero.mpr fun c hc => by simpa using hne c hc
      rw [hq, hg.ref, countP_cons_of_pos (by simpa using hlast'),
        countP_cons_of_pos (by simpa using hlast), hzero]
      rfl
    · have hnew : ¬ (p ≤ q ∧ q < p + k) := fun hin => by
        have hpte := hc.2
        rw [(hg.new q hin.1 hin.2).2, Option.some.injEq, decide_eq_false_iff_not] at hpte
        omega
      obtain ⟨hpte, href⟩ := hg.old q hnew
      rw [href, ← hi.counts q ⟨hc.1, hpte ▸ hc.2⟩,
        countP_cons_of_neg (by simpa [hlast'] using Ne.symm hq),
        countP_cons_of_neg (by simpa [hlast] using Ne.symm hq)]
  · by_cases hin : p ≤ q ∧ q < p + k
    · refine ⟨_, mem_cons_of_mem _ (mem_cons_self ..), ?_, ?_⟩
      · rw [pgnum_page]
        exact hin.1
      · rw [hlast]
        omega
    · rw [(hg.old q hin).1] at hpte
      obtain ⟨c, hc, hcin⟩ := hi.used q hq hpte
      exact ⟨c, mem_cons_of_mem _ (mem_cons_of_mem _ hc), hcin⟩

/-- **A block at the cursor**, in its page. -/
theorem HeapInv.extend (hi : HeapInv own h (⟨m, 0⟩ :: H))
    (hbehind : ∀ c ∈ H, c.last = pgnum m → c.stop ≤ m)
    (hroom : (h.ref (pgnum m)).toNat + 1 < 2 ^ 32) (hend : pgnum (m + Heap.roundup4 n) = pgnum m) :
    HeapInv own (h.setRef (pgnum m) (h.ref (pgnum m) + 1#32))
      (⟨m + Heap.roundup4 n, 0⟩ :: ⟨m, n⟩ :: H) := by
  obtain ⟨hc, hplaced⟩ := List.forall_mem_cons.mp hi.placed
  obtain ⟨hapart, htail⟩ := List.pairwise_cons.mp hi.apart
  have h4 := roundup4_mod n
  have ha : m % 4 = 0 := hc.aligned
  have haligned' : (m + Heap.roundup4 n) % 4 = 0 := by omega
  have hcounted : Counted own h (pgnum m) := Block.last_empty m ▸ hc.counted
  have hlast : (⟨m, n⟩ : Block).last = pgnum m := hend
  have hlast' : (⟨m + Heap.roundup4 n, 0⟩ : Block).last = pgnum m :=
    (Block.last_empty _).trans hend
  have hcount := hi.counts _ hcounted
  rw [countP_cons_of_pos (by simpa using Block.last_empty m)] at hcount
  -- the other blocks of the page are before the cursor, and those of the pages after it behind
  have hout : ∀ c ∈ H, c.stop ≤ m ∨ m + Heap.roundup4 n ≤ c.start := fun c hc => by
    obtain hle | hle := hapart c hc
    · rw [Block.stop_empty] at hle
      by_cases hpage : pgnum c.start = pgnum m
      · have heq := (hplaced c hc).eq_last (hpage ▸ hcounted) (Nat.le_refl _) c.start_le_last
        exact .inl (hbehind c hc (heq.symm.trans hpage))
      · refine .inr ?_
        simp only [pgnum, pgsize] at hend hpage
        omega
    · exact .inl hle
  refine ⟨hi.kept, ?_, ?_, fun q hq => ?_, fun q hq hpte => ?_⟩
  · refine List.forall_mem_cons.mpr ⟨?_, List.forall_mem_cons.mpr ⟨?_, fun c hc => ?_⟩⟩
    · exact .of_last haligned' (hlast' ▸ hcounted) (Block.last_empty _).symm
    · exact .of_last ha (hlast ▸ hcounted) hlast.symm
    · exact (hplaced c hc).congr fun _ _ _ => rfl
  · refine List.pairwise_cons.mpr ⟨List.forall_mem_cons.mpr ⟨.inr (Nat.le_refl _), fun c hc => ?_⟩,
      List.pairwise_cons.mpr ⟨fun c hc => (hout c hc).symm, htail⟩⟩
    rw [BlocksApart, Block.stop_empty]
    exact (hout c hc).symm.imp_right fun hle => hle.trans (Nat.le_add_right ..)
  · by_cases hqm : q = pgnum m
    · subst hqm
      rw [setRef_ref_self, countP_cons_of_pos (by simpa using hlast'),
        countP_cons_of_pos (by simpa using hlast)]
      bv_omega
    · rw [setRef_ref_of_ne _ hqm, ← hi.counts q hq,
        countP_cons_of_neg (by simpa [hlast'] using Ne.symm hqm),
        countP_cons_of_neg (by simpa [hlast] using Ne.symm hqm),
        countP_cons_of_neg (by simpa [Block.last_empty] using Ne.symm hqm)]
  · obtain ⟨c, hc, hin⟩ := hi.used q hq hpte
    obtain rfl | hc := List.mem_cons.mp hc
    · rw [Block.last_empty] at hin
      exact ⟨_, mem_cons_of_mem _ (mem_cons_self ..), hin.1, hlast.symm ▸ hin.2⟩
    · exact ⟨c, mem_cons_of_mem _ (mem_cons_of_mem _ hc), hin⟩

/-! ### Calls -/

/-- The block for the cursor, which has a reference while it is inside a page. -/
def cursorOf (m : Nat) : List Block := if m % pgsize = 0 then [] else [⟨m, 0⟩]

theorem cursorOf_eq_nil (hm : m % pgsize = 0) : cursorOf m = [] := if_pos hm

theorem cursorOf_eq_single (hm : m % pgsize ≠ 0) : cursorOf m = [⟨m, 0⟩] := if_neg hm

/-- **The state between two calls**: the blocks `live`, and `lost` for the references that nobody
drops any more.  The cursor is behind the other blocks of its page. -/
structure HeapOk (own : Nat → Option Bool) (h : Heap) (live lost : List Block) : Prop where
  inv : HeapInv own h (cursorOf h.mptr ++ (live ++ lost))
  behind : h.mptr % pgsize ≠ 0 → ∀ b ∈ live ++ lost, b.last = pgnum h.mptr → b.stop ≤ h.mptr
  nonzero : ∀ b ∈ live, b.start ≠ 0
  few : ∀ p, lost.countP (fun b => b.last = p) ≤ 2

section

variable (ho : HeapOk own h live lost)
include ho

theorem HeapOk.inv_nil (hm : h.mptr % pgsize = 0) : HeapInv own h (live ++ lost) := by
  have hi := ho.inv
  rwa [cursorOf_eq_nil hm] at hi

theorem HeapOk.inv_cons (hm : h.mptr % pgsize ≠ 0) :
    HeapInv own h (⟨h.mptr, 0⟩ :: (live ++ lost)) := by
  have hi := ho.inv
  rwa [cursorOf_eq_single hm] at hi

theorem HeapOk.counted (hm : h.mptr % pgsize ≠ 0) : Counted own h (pgnum h.mptr) :=
  Block.last_empty h.mptr ▸ ((ho.inv_cons hm).placed _ (mem_cons_self ..)).counted

/-- The cursor is moved to the start of a page. -/
theorem HeapOk.moved (hi : HeapInv own h' (live ++ lost)) (hm : m % pgsize = 0) :
    HeapOk own { h' with mptr := m } live lost := by
  refine ⟨?_, fun h => absurd hm h, ho.nonzero, ho.few⟩
  rw [cursorOf_eq_nil hm]
  exact hi.congr rfl fun p _ => ref_congr rfl p

/-- **The invariant gives the properties of the heap.** -/
theorem HeapOk.safe : HeapSafe own h live := by
  have hi := ho.inv.perm (perm_append_comm_assoc ..)
  have hplaced : ∀ b ∈ live, InPages own h b := fun b hb =>
    hi.placed b (mem_append_left _ hb)
  refine ⟨?_, fun b hb a hlo hhi => ?_, fun b hb a hlo hhi p hp ha => ?_, fun p hp => ?_⟩
  · exact (List.pairwise_append.mp hi.apart).1.imp fun {b c} hbc =>
      hbc.imp (b.fin_le_stop.trans) (c.fin_le_stop.trans)
  · exact (hplaced b hb).present (pgnum_mono hlo) (pgnum_mono (hhi.le.trans b.fin_le_stop))
  · have hpl := hplaced b hb
    have hpa : pgnum a = p := by
      simp only [pgnum, pgsize, refWord] at ha ⊢
      omega
    have hle : pgnum a ≤ b.last := pgnum_mono (hhi.le.trans b.fin_le_stop)
    have heq := hpl.eq_last hp (hpa ▸ pgnum_mono hlo) (hpa ▸ hle)
    -- the block would go on to the end of the page
    have hstop := hhi.trans_le b.fin_le_stop
    have hmod := hpl.stop_mod
    rw [Block.last] at heq
    simp only [pgnum, pgsize, refWord] at ha heq
    omega
  · rw [← hi.counts p hp, countP_append]
    refine (countP_mono_left fun b hb huse => ?_).trans (Nat.le_add_right ..)
    have huse : b.Uses p := by simpa using huse
    have hle : p ≤ b.last := huse.2.trans (pgnum_mono b.fin_le_stop)
    simpa using ((hplaced b hb).eq_last hp huse.1 hle).symm

end

/-- What a `malloc` of `n` bytes that returned `v` leaves; `C` is when nothing is lost. -/
def MallocKeeps (own : Nat → Option Bool) (live lost : List Block) (C : Prop) (n v : Nat)
    (h : Heap) : Prop :=
  ∃ lost', HeapOk own h (if v = 0 then live else ⟨v, n⟩ :: live) lost' ∧ (C → lost' = lost)

/-- The block and the cursor of new pages.  A block at 0 is lost, and a cursor at the start of a
page. -/
theorem HeapInv.settle (hi : HeapInv own h (⟨v + Heap.roundup4 n, 0⟩ :: ⟨v, n⟩ :: (live ++ lost)))
    (hm : h.mptr = v + Heap.roundup4 n)
    (hnew : ∀ c ∈ live ++ lost, c.last ≠ pgnum (v + Heap.roundup4 n))
    (hnonzero : ∀ b ∈ live, b.start ≠ 0) (hfew : ∀ p, lost.countP (fun b => b.last = p) ≤ 2) :
    MallocKeeps own live lost (v ≠ 0 ∧ (v + Heap.roundup4 n) % pgsize ≠ 0) n v h := by
  have hb : (⟨v, n⟩ : Block).stop = h.mptr := hm.symm
  rw [← hm] at hi hnew ⊢
  have hc := Block.stop_empty h.mptr
  -- what is lost of the two
  obtain ⟨L, hperm, hlen, hstop, hnil⟩ : ∃ L : List Block,
      (⟨h.mptr, 0⟩ :: ⟨v, n⟩ :: (live ++ lost)).Perm (cursorOf h.mptr ++
        ((if v = 0 then live else ⟨v, n⟩ :: live) ++ (L ++ lost))) ∧ L.length ≤ 2 ∧
      (∀ c ∈ L, c.stop = h.mptr) ∧ (v ≠ 0 ∧ h.mptr % pgsize ≠ 0 → L = []) := by
    by_cases hv : v = 0
    · rw [if_pos hv]
      by_cases hin : h.mptr % pgsize = 0
      · rw [cursorOf_eq_nil hin]
        exact ⟨[⟨h.mptr, 0⟩, ⟨v, n⟩], perm_append_comm_assoc [_, _] live lost, Nat.le_refl 2,
          by simp [hb, hc], fun h => absurd hv h.1⟩
      · rw [cursorOf_eq_single hin]
        exact ⟨[⟨v, n⟩], (perm_append_comm_assoc [_] live lost).cons _, le_succ 1,
          by simp [hb], fun h => absurd hv h.1⟩
    · rw [if_neg hv]
      by_cases hin : h.mptr % pgsize = 0
      · rw [cursorOf_eq_nil hin]
        exact ⟨[⟨h.mptr, 0⟩], perm_append_comm_assoc [_] (_ :: live) lost, le_succ 1,
          by simp [hc], fun h => absurd hin h.2⟩
      · rw [cursorOf_eq_single hin]
        exact ⟨[], .refl _, Nat.zero_le 2, nofun, fun _ => rfl⟩
  refine ⟨L ++ lost, ⟨hi.perm hperm, fun _ c hmem hcl => ?_, ?_, fun p => ?_⟩, fun hC => ?_⟩
  · have hmem : c ∈ (⟨h.mptr, 0⟩ :: ⟨v, n⟩ :: (live ++ lost) : List Block) :=
      hperm.mem_iff.mpr (mem_append_right _ hmem)
    obtain rfl | hmem := List.mem_cons.mp hmem
    · exact hc.le
    · obtain rfl | hmem := List.mem_cons.mp hmem
      · exact hb.le
      · exact absurd hcl (hnew c hmem)
  · split
    · exact hnonzero
    · rename_i hv
      exact List.forall_mem_cons.mpr ⟨hv, hnonzero⟩
  · rw [countP_append]
    by_cases hp : p = pgnum h.mptr
    · have hzero : lost.countP (fun b => b.last = p) = 0 := List.countP_eq_zero.mpr fun c hcl =>
        by simpa [hp] using hnew c (mem_append_right _ hcl)
      rw [hzero]
      exact List.countP_le_length.trans hlen
    · have hzero : L.countP (fun b => b.last = p) = 0 := List.countP_eq_zero.mpr fun c hcl =>
        by simpa [Block.last, hstop c hcl] using Ne.symm hp
      rw [hzero, Nat.zero_add]
      exact hfew p
  · rw [hnil hC]
    rfl

/-- A page of the arena. -/
def InArena (p : Nat) : Prop := mbegin / pgsize ≤ p ∧ p < mend / pgsize

theorem InArena.ne_zero (hp : InArena p) : p ≠ 0 := by
  rintro rfl
  exact absurd hp.1 (by decide)

theorem InArena.toNat_ofNat (hp : InArena p) : (BitVec.ofNat 52 p).toNat = p := by
  rw [BitVec.toNat_ofNat, mod_eq_of_lt (hp.2.trans (by decide))]

/-- **The scan stays in the arena**, if it is started there. -/
theorem findSpace_arena {w : Bool} {page page' : BitVec 52} (hp : InArena page.toNat)
    (hf : h.findSpace n w page = some page') : InArena page'.toNat := by
  fun_induction Heap.findSpace h n w page with
  | case1 w page hfree =>
    cases hf
    exact hp
  | case2 => cases hf
  | case3 w page _ _ hw ih => exact ih ⟨by decide, by decide⟩ hf
  | case4 w page _ hne ih =>
    refine ih ?_ hf
    simp only [InArena, mbegin, mend, pgsize] at hp hne ⊢
    bv_omega

/-- The pages of the block, when the cursor is at the start of a page. -/
theorem HeapOk.mallocPages (ho : HeapOk own h live lost) (hm : h.mptr % pgsize = 0)
    (hn : Heap.roundup4 n < maxmalloc) (hrun : h.mallocPages (Heap.roundup4 n) avail = (v, h')) :
    MallocKeeps own live lost (InArena (pgnum h.mptr) ∧ Heap.roundup4 n % pgsize ≠ 0) n v h' := by
  have h4 := roundup4_mod n
  unfold Heap.mallocPages at hrun
  generalize hfind : h.findSpace (Heap.roundup4 n) false (BitVec.ofNat 52 (pgnum h.mptr)) = r
    at hrun
  cases r with
  | none =>
    cases hrun
    exact ⟨lost, ho.moved (ho.inv_nil hm) rfl, fun _ => rfl⟩
  | some page =>
    have hpages := isfree_pages (findSpace_isfree hfind) hn page.isLt
    have hmod : page.toNat * pgsize % pgsize = 0 := mul_mod_left ..
    have ho' := ho.moved (ho.inv_nil hm) hmod
    dsimp only at hrun
    generalize ha : Heap.allocPages _ _ _ avail 0 _ = r at hrun
    obtain ⟨_ | _, g⟩ := r
    · cases hrun
      obtain ⟨hi', hm'⟩ := (ho'.inv_nil hmod).allocPages_false h4 hpages ha
      exact ⟨lost, ho'.moved hi' (hm'.symm ▸ hmod), fun _ => rfl⟩
    · cases hrun
      rw [pgnum_page]
      have hg := heapGrown_of_allocPages (h := { h with mptr := page.toNat * pgsize }) h4 hpages ha
      generalize g.setRef _ 2#32 = g' at hg ⊢
      have hg : HeapGrown _ { g' with mptr := page.toNat * pgsize + Heap.roundup4 n } _ _ :=
        ⟨hg.new, hg.old, hg.ref⟩
      obtain ⟨hi', hnew⟩ := (ho'.inv_nil hmod).grow hg (pagesFor_eq h4)
      obtain ⟨lost', ho', hkeep⟩ := hi'.settle rfl hnew ho.nonzero ho.few
      refine ⟨lost', ho', fun ⟨hin, hmod⟩ => hkeep ⟨Nat.mul_ne_zero ?_ (by decide), ?_⟩⟩
      · exact (findSpace_arena (hin.toNat_ofNat.symm ▸ hin) hfind).ne_zero
      · rwa [Nat.add_comm, add_mul_mod_self_right]

/-! ### Runs keep the invariant -/

section

variable (ho : HeapOk own h live lost)
include ho

theorem HeapOk.start : HeapOk own h.start live lost := by
  rw [Heap.start]
  split
  · rename_i hm
    exact ho.moved (ho.inv_nil (by rw [hm, zero_mod])) rfl
  · exact ho

/-- A block at the cursor, which moves behind it. -/
theorem HeapOk.extend (hm : h.mptr % pgsize ≠ 0) (hroom : (h.ref (pgnum h.mptr)).toNat + 1 < 2 ^ 32)
    (hfit : pgnum h.mptr = pgnum (h.mptr + Heap.roundup4 n - 1 + 4)) :
    HeapOk own { h.setRef (pgnum h.mptr) (h.ref (pgnum h.mptr) + 1#32) with
      mptr := h.mptr + Heap.roundup4 n } (⟨h.mptr, n⟩ :: live) lost := by
  have hend : (h.mptr + Heap.roundup4 n) % pgsize ≠ 0 ∧
      pgnum (h.mptr + Heap.roundup4 n) = pgnum h.mptr := by
    simp only [pgnum, pgsize] at hfit hm ⊢
    omega
  have hi := (ho.inv_cons hm).extend (ho.behind hm) hroom hend.2
  have hv : h.mptr ≠ 0 := fun h0 => hm (by rw [h0, zero_mod])
  generalize h.setRef _ _ = g at hi ⊢
  refine ⟨?_, fun _ c hc hcl => ?_, List.forall_mem_cons.mpr ⟨hv, ho.nonzero⟩, ho.few⟩
  · rw [cursorOf_eq_single hend.1]
    exact hi.congr rfl fun p _ => ref_congr rfl p
  · obtain rfl | hc := List.mem_cons.mp hc
    · exact Nat.le_refl _
    · exact (ho.behind hm c hc (hcl.trans hend.2)).trans (Nat.le_add_right ..)

/-- A block of `n` bytes fits into the page of the cursor. -/
def Heap.Fits (h : Heap) (n : Nat) : Prop := pgnum h.mptr = pgnum (h.mptr + n - 1 + 4)

/-- The cursor is inside a page whose count can take one more block, if this one fits. -/
def Heap.Room (h : Heap) (n : Nat) : Prop :=
  h.mptr % pgsize ≠ 0 → h.Fits n → (h.ref (pgnum h.mptr)).toNat + 1 < 2 ^ 32

/-- The page of the cursor is not the last one of the arena, if the block goes to the page after
it. -/
def Heap.Next (h : Heap) (n : Nat) : Prop :=
  n < maxmalloc → h.mptr % pgsize ≠ 0 → ¬ h.Fits n → pgnum h.mptr + 1 < mend / pgsize

/-- The block is in the page of the cursor, or does not end where a page starts. -/
def Heap.Ends (h : Heap) (n : Nat) : Prop := (h.mptr % pgsize ≠ 0 ∧ h.Fits n) ∨ n % pgsize ≠ 0

/-- **`malloc`** keeps the invariant, with the block that it returns. -/
theorem HeapOk.malloc (hroom : h.start.Room (Heap.roundup4 n))
    (hrun : h.malloc n avail = .ok (v, h')) :
    MallocKeeps own live lost (InArena (pgnum h.start.mptr) ∧ h.start.Next (Heap.roundup4 n) ∧
      h.start.Ends (Heap.roundup4 n)) n v h' := by
  have ho := ho.start
  rw [Heap.malloc, Heap.mallocRounded] at hrun
  generalize h.start = g at ho hrun hroom ⊢
  split at hrun
  · cases hrun
    exact ⟨lost, ho, fun _ => rfl⟩
  · rename_i hmax
    split at hrun
    · rename_i hm
      obtain ⟨lost', ho', hkeep⟩ := ho.mallocPages hm (Nat.lt_of_not_le hmax) (Except.ok.inj hrun)
      exact ⟨lost', ho', fun ⟨hin, _, hends⟩ => hkeep ⟨hin, hends.resolve_left fun hc => hc.1 hm⟩⟩
    · rename_i hm
      have hi := ho.inv_cons hm
      have hv : g.mptr ≠ 0 := fun h0 => hm (by rw [h0, zero_mod])
      split at hrun
      · rename_i hfit
        split at hrun
        · cases hrun
        · cases hrun
          rw [MallocKeeps, if_neg hv]
          exact ⟨lost, ho.extend hm (hroom hm hfit) hfit, fun _ => rfl⟩
      · rename_i hfit
        cases hfree : g.free g.mptr with
        | error e =>
          rw [hfree] at hrun
          cases hrun
        | ok g' =>
          simp only [hfree, bind, Except.bind, pure, Except.pure, Except.ok.injEq] at hrun
          have hmod : pgnum (g.mptr + pgsize) * pgsize % pgsize = 0 := mul_mod_left ..
          have ho' := ho.moved (hi.free hv hfree).1 hmod
          obtain ⟨lost', ho', hkeep⟩ := ho'.mallocPages hmod (Nat.lt_of_not_le hmax) hrun
          refine ⟨lost', ho', fun ⟨hin, hnext, hends⟩ =>
            hkeep ⟨?_, hends.resolve_left fun hc => hfit hc.2⟩⟩
          have hpage : pgnum (pgnum (g.mptr + pgsize) * pgsize) = pgnum g.mptr + 1 :=
            (pgnum_page _).trans (add_div_right _ (by decide))
          rw [hpage]
          exact ⟨hin.1.trans (le_succ _), hnext (Nat.lt_of_not_le hmax) hm hfit⟩

/-- **`free`** of a live block. -/
theorem HeapOk.free (hb : b ∈ live) (hrun : h.free b.start = .ok h') :
    HeapOk own h' (live.erase b) lost ∧ h'.mptr = h.mptr := by
  have hperm : (cursorOf h.mptr ++ (live ++ lost)).Perm
      (b :: (cursorOf h.mptr ++ (live.erase b ++ lost))) :=
    (((perm_cons_erase hb).append_right lost).append_left _).trans perm_middle
  obtain ⟨hi, hm⟩ := (ho.inv.perm hperm).free (ho.nonzero b hb) hrun
  rw [← hm] at hi
  refine ⟨⟨hi, hm ▸ fun hin c hc => ho.behind hin c ?_, fun c hc => ?_, ho.few⟩, hm⟩
  · exact (List.append_subset.mpr ⟨fun c hc => mem_append_left _ (mem_of_mem_erase hc),
      subset_append_right ..⟩) hc
  · exact ho.nonzero c (mem_of_mem_erase hc)

/-- A page has at most 1024 blocks that are not empty, and its count is not much larger. -/
theorem HeapOk.room (hsize : ∀ b ∈ live, 0 < b.size) (n : Nat) : h.Room n := by
  intro hm _
  have hi := ho.inv_cons hm
  have hcount := hi.counts _ (ho.counted hm)
  have hfew := ho.few (pgnum h.mptr)
  rw [countP_cons_of_pos (by simpa using Block.last_empty _), countP_append] at hcount
  have happart := (List.pairwise_append.mp (List.pairwise_cons.mp hi.apart).2).1
  generalize pgnum h.mptr = p at hcount hfew ⊢
  have hmem : ∀ b ∈ live.filter (fun b => b.last = p), b ∈ live ∧ b.last = p := fun b hb => by
    simpa using List.mem_filter.mp hb
  have hplaced : ∀ b ∈ live, InPages own h b := fun b hb =>
    hi.placed b (mem_cons_of_mem _ (mem_append_left _ hb))
  -- the blocks of the page end at different words of it
  have hnodup : ((live.filter fun b => b.last = p).map fun b => b.stop / 4).Nodup := by
    refine List.pairwise_map.mpr (List.Pairwise.imp_of_mem (fun {b c} hb hc hbc => ?_)
      (happart.filter _))
    obtain ⟨hb, -⟩ := hmem b hb
    obtain ⟨hc, -⟩ := hmem c hc
    have h1 := (hplaced b hb).stop_mod
    have h2 := (hplaced c hc).stop_mod
    have h3 := (hsize b hb).trans_le (le_roundup4 _)
    have h4 := (hsize c hc).trans_le (le_roundup4 _)
    simp only [BlocksApart, Block.stop] at hbc h1 h2 ⊢
    omega
  have hsub : ((live.filter fun b => b.last = p).map fun b => b.stop / 4) ⊆
      List.range' (1024 * p) 1024 := fun w hw => by
    obtain ⟨b, hb, rfl⟩ := List.mem_map.mp hw
    have hlast := (hmem b hb).2
    rw [mem_range'_1]
    simp only [Block.last, pgnum, pgsize] at hlast
    omega
  have hlen := (subperm_of_subset hnodup hsub).length_le
  rw [length_map, length_range', ← countP_eq_length_filter] at hlen
  omega

theorem HeapOk.store {a : Nat} {w : BitVec 32} (hb : b ∈ live) (hlo : b.start ≤ 4 * a)
    (hhi : 4 * a < b.fin) : HeapOk own { h with mem := update h.mem a w } live lost := by
  refine ⟨ho.inv.congr rfl fun p hc => ?_, ho.behind, ho.nonzero, ho.few⟩
  -- the word is not a count
  have hne : refWord p ≠ a := fun he => by
    refine ho.safe.offCounts b hb (4 * a) hlo hhi p hc ?_
    rw [Nat.mul_div_cancel_left a (by decide), he]
  exact update_of_ne hne ..

end

theorem HeapOk.empty (own : Nat → Option Bool) (mem : Nat → BitVec 32) :
    HeapOk own ⟨0, own, mem⟩ [] [] where
  inv := ⟨fun _ _ => rfl, nofun, .nil, fun _ hc => absurd (hc.1.symm.trans hc.2) nofun,
    fun _ hown hp => absurd hown hp⟩
  behind _ := nofun
  nonzero := nofun
  few _ := Nat.zero_le _

theorem HeapRun.ok (hr : HeapRun own h live) :
    (∀ b ∈ live, 0 < b.size) ∧ ∃ lost, HeapOk own h live lost := by
  induction hr with
  | start => exact ⟨nofun, [], .empty own _⟩
  | malloc _ hn _ hrun ih =>
    obtain ⟨hsize, lost, ho⟩ := ih
    obtain ⟨lost', ho', -⟩ := ho.malloc (ho.start.room hsize _) hrun
    refine ⟨?_, lost', ho'⟩
    split
    · exact hsize
    · exact List.forall_mem_cons.mpr ⟨hn, hsize⟩
  | free _ hb hrun ih =>
    obtain ⟨hsize, lost, ho⟩ := ih
    exact ⟨fun b hb => hsize b (mem_of_mem_erase hb), lost, (ho.free hb hrun).1⟩
  | store _ hb hlo hhi ih =>
    obtain ⟨hsize, lost, ho⟩ := ih
    exact ⟨hsize, lost, ho.store hb hlo hhi⟩

/-- **`malloc` is safe**, in every state of every run. -/
theorem malloc_safe (hr : HeapRun own h live) : HeapSafe own h live := by
  obtain ⟨-, lost, ho⟩ := hr.ok
  exact ho.safe

/-- The heap of a process before its first call of `malloc`. -/
def newHeap : Heap := ⟨0, fun _ => none, fun _ => 0#32⟩

/-- The first call takes the first pages of the arena. -/
theorem mallocRounded_new (hn : n < maxmalloc) (hfree : newHeap.start.isfree
      ((BitVec.ofNat 52 (pgnum mbegin)).toNat * pgsize) (n + 4) = true) :
    newHeap.start.mallocRounded n avail = .ok (Heap.handOut mbegin n
      (newHeap.start.allocPages mbegin n avail 0 (Heap.pagesFor n))) := by
  have hm : newHeap.start.mptr = mbegin := rfl
  have hfind : newHeap.start.findSpace n false (BitVec.ofNat 52 (pgnum mbegin)) =
      some (BitVec.ofNat 52 (pgnum mbegin)) := by
    rw [Heap.findSpace, if_pos hfree]
  rw [Heap.mallocRounded, if_neg (Nat.not_le.mpr hn), hm, if_pos (by decide)]
  unfold Heap.mallocPages
  rw [hm, hfind]
  rfl

/-- The heap of a process after its first call of `malloc`, for 100 bytes. -/
def firstHeap : Heap where
  mptr := mbegin + 100
  pte := update (fun _ => none) 0x8000 (some false)
  mem := update (fun _ => 0#32) (refWord 0x8000) 2#32

theorem malloc_first : newHeap.malloc 100 1 = .ok (mbegin, firstHeap) := by
  have halloc : newHeap.start.allocPages mbegin 100 1 0 1 =
      (true, ⟨mbegin, update (fun _ => none) 0x8000 (some false), fun _ => 0#32⟩) := by
    rw [Heap.allocPages, if_neg (by decide), Heap.allocPages, Heap.sysPageAlloc,
      show newHeap.start = ⟨mbegin, fun _ => none, fun _ => 0#32⟩ from rfl]
    simp only [ite_self]
    rfl
  rw [Heap.malloc, show Heap.roundup4 100 = 100 from rfl, mallocRounded_new (by decide) (by decide)]
  exact congrArg (fun r => Except.ok (Heap.handOut mbegin 100 r)) halloc

/-- Two blocks of one page. -/
theorem malloc_safe_two :
    ∃ h, HeapSafe (fun _ => none) h [⟨mbegin + 100, 200⟩, ⟨mbegin, 100⟩] := by
  have hsecond : firstHeap.malloc 200 0 = .ok (mbegin + 100,
      { firstHeap.setRef 0x8000 3#32 with mptr := mbegin + 300 }) := by
    rw [Heap.malloc, Heap.start, if_neg (by decide), Heap.mallocRounded, if_neg (by decide),
      if_neg (by decide), if_pos (by decide), if_neg (by decide)]
    rfl
  exact ⟨_, malloc_safe (.malloc (.malloc .start (by decide) (by decide) malloc_first) (by decide)
    (by decide) hsecond)⟩

end JosVmm
