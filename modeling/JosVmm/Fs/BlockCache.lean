import JosVmm.Fs.OpenFiles
import JosVmm.Fs.Disk

/-!
# File server — the block cache

`fs/bc.c`: the disk is mapped at `DISKMAP` on demand.  An access to a block that is not in memory is
a page fault of the server, which `bc_pgfault` handles by reading the block in; `flush_block` writes
a dirty block back, and a block that is flushed can be unmapped.  The handler reads the superblock
and the bitmap through the cache, so that it may fault in turn; how many trap frames fit on the
exception stack is a parameter.

A run is a sequence of reads, writes, flushes and evictions, and its `diskContents` are what was last
written.  What a read returns is always right.  It does return if the block is in memory, or if the
access is to its first byte and the parts of the superblock and bitmap that the handler reads are in
memory; it does not if the access is to another byte, because the handler passes the address as it is
to `sys_page_map`, or if the superblock has been evicted (`blockCache_transparent`,
`unaligned_fault`).  What has been flushed is there for the next server (`blockCache_durable`).
-/

namespace JosVmm

open Support.Prog Function

/-- `DISKMAP` and `DISKSIZE`. -/
def diskmap : Nat := 0x10000000
def disksize : Nat := 0xC0000000

/-- `SECTSIZE` and `BLKSECTS`. -/
def sectsize : Nat := 512
def blksects : Nat := blksize / sectsize

/-- The address is on the disk map. -/
def OnDisk (va : Nat) : Prop := diskmap ≤ va ∧ va < diskmap + disksize

instance (va : Nat) : Decidable (OnDisk va) := inferInstanceAs (Decidable (_ ∧ _))

/-- The number of the block that is mapped at an address. -/
def blocknoOf (va : Nat) : Nat := (va - diskmap) / blksize

/-- The server's memory.  A page of the disk map has no entry, or one whose `PTE_D` is given; all
are writable.  The disk is numbered by its bytes.  The pointers `super` and `bitmap` are null, or
point to the blocks 1 and 2. -/
structure BlockCache where
  pte : Nat → Option Bool
  mem : Nat → BitVec 8
  disk : Nat → BitVec 8
  super : Bool
  bitmap : Bool

inductive BcPanic where
  /-- "page fault in FS" and "flush_block of bad va" -/
  | outside
  /-- "reading non-existent block" -/
  | noBlock
  /-- "in bc_pgfault, sys_page_map" -/
  | pageMap
  /-- "reading free block" -/
  | freeBlock
  /-- "bad block number" -/
  | badNumber
  /-- The exception stack overflows. -/
  | noStack
  deriving DecidableEq

abbrev Bc := StateT BlockCache (Except BcPanic)

namespace BlockCache

/-- `sys_page_alloc(0, va, PTE_P|PTE_W|PTE_U)`, when there is memory: a page of zeros. -/
def sysPageAlloc (s : BlockCache) (va : Nat) : BlockCache :=
  { s with
    pte := update s.pte (pgnum va) (some false)
    mem := fun a => if pgnum a = pgnum va then 0#8 else s.mem a }

/-- `ide_read`: the sectors are stored at `dst`, and the pages that they go to are dirty. -/
def ideRead (s : BlockCache) (secno dst nsecs : Nat) : BlockCache :=
  { s with
    pte := fun p =>
      if pgnum dst ≤ p ∧ p * pgsize < dst + sectsize * nsecs then (s.pte p).map fun _ => true
      else s.pte p
    mem := fun a =>
      if dst ≤ a ∧ a < dst + sectsize * nsecs then s.disk (sectsize * secno + (a - dst))
      else s.mem a }

/-- `ide_write`. -/
def ideWrite (s : BlockCache) (secno src nsecs : Nat) : BlockCache :=
  { s with
    disk := fun i =>
      if sectsize * secno ≤ i ∧ i < sectsize * (secno + nsecs) then
        s.mem (src + (i - sectsize * secno))
      else
        s.disk i }

/-- `sys_page_unmap(0, va)`. -/
def sysPageUnmap (s : BlockCache) (va : Nat) : BlockCache :=
  { s with pte := update s.pte (pgnum va) none }

/-- A store of the server to memory that is mapped. -/
def poke (s : BlockCache) (va : Nat) (v : BitVec 8) : BlockCache :=
  { s with
    pte := update s.pte (pgnum va) (some true)
    mem := update s.mem va v }

end BlockCache

/-- `sys_page_map(0, va, 0, va, perm)`, with a `perm` that has no `PTE_D`: the page is mapped again
where it was. -/
def sysPageMap (va : Nat) : Bc Int := do
  if va % pgsize ≠ 0 then
    return eInval
  else if (← get).pte (pgnum va) = none then
    return eInval
  else
    modify fun s => { s with pte := update s.pte (pgnum va) (some false) }
    return 0

/-- An access to `va`: a page fault if the page is not there.  The access is then made again. -/
def touch (fault : Nat → Bc Unit) (va : Nat) : Bc Unit := do
  if (← get).pte (pgnum va) = none then fault va

def loadWord (fault : Nat → Bc Unit) (va : Nat) : Bc (BitVec 32) := do
  touch fault va
  return load32 (← get).mem va

/-- `&super->s_nblocks`, in block 1. -/
def sNblocks : Nat := diskmap + blksize + 4

/-- `&bitmap[blockno / 32]`; the bitmap starts at block 2. -/
def bitmapWord (blockno : Nat) : Nat := diskmap + 2 * blksize + 4 * (blockno / 32)

/-- `if (super && blockno >= super->s_nblocks) panic(...)`. -/
def checkNumber (fault : Nat → Bc Unit) (e : BcPanic) (blockno : Nat) : Bc Unit := do
  if (← get).super then
    let nblocks ← loadWord fault sNblocks
    if nblocks.toNat ≤ blockno then throw e

/-- `diskaddr`. -/
def diskaddr (fault : Nat → Bc Unit) (blockno : Nat) : Bc Nat := do
  if blockno = 0 then
    throw .badNumber
  else
    checkNumber fault .badNumber blockno
    return diskmap + blockno * blksize

/-- `block_is_free`. -/
def blockIsFree (fault : Nat → Bc Unit) (blockno : Nat) : Bc Bool := do
  if (← get).super then
    let nblocks ← loadWord fault sNblocks
    if nblocks.toNat ≤ blockno then
      return false
    else
      return (← loadWord fault (bitmapWord blockno)).getLsbD (blockno % 32)
  else
    return false

/-- The block of `addr` is read into a new page.  The page is mapped again, so that it is not dirty —
with the address as it was, not rounded down. -/
def readIn (addr : Nat) : Bc Unit := do
  let newAddr := addr / pgsize * pgsize
  modify (·.sysPageAlloc newAddr)
  modify (·.ideRead (blksects * blocknoOf addr) newAddr blksects)
  if (← sysPageMap addr) < 0 then throw .pageMap

/-- `if (bitmap && block_is_free(blockno)) panic(...)`. -/
def checkUsed (fault : Nat → Bc Unit) (blockno : Nat) : Bc Unit := do
  if (← get).bitmap then
    if ← blockIsFree fault blockno then throw .freeBlock

/-- `bc_pgfault`, when there is room for so many trap frames on the exception stack. -/
def bcPgfault : Nat → Nat → Bc Unit
  | 0, _ => throw .noStack
  | n + 1, addr => do
    if OnDisk addr then
      checkNumber (bcPgfault n) .noBlock (blocknoOf addr)
      readIn addr
      checkUsed (bcPgfault n) (blocknoOf addr)
    else
      throw .outside

/-- A page that is mapped is mapped again, which clears its `PTE_D`; an error is only printed. -/
def remap (addr : Nat) : Bc Unit := do
  if (← get).pte (pgnum addr) ≠ none then
    let _ ← sysPageMap addr

/-- `flush_block`. -/
def flushBlock (addr : Nat) : Bc Unit := do
  if OnDisk addr then
    let base := addr / blksize * blksize
    if (← get).pte (pgnum base) = some true then
      modify (·.ideWrite (blksects * blocknoOf addr) base blksects)
    remap base
  else
    throw .outside

/-- A byte is read. -/
def readByte (n : Nat) (va : Nat) : Bc (BitVec 8) := do
  touch (bcPgfault n) va
  return (← get).mem va

/-- A byte is written. -/
def writeByte (n : Nat) (va : Nat) (v : BitVec 8) : Bc Unit := do
  touch (bcPgfault n) va
  modify (·.poke va v)

/-! ### Runs -/

inductive BcOp where
  | read (va : Nat)
  | write (va : Nat) (v : BitVec 8)
  | flush (va : Nat)
  /-- The block is unmapped, with its first address. -/
  | evict (blockno : Nat)
  /-- `super = diskaddr(1)`, in `fs_init`. -/
  | setSuper
  /-- `bitmap = diskaddr(2)`. -/
  | setBitmap

namespace BcOp

def exec (n : Nat) : BcOp → Bc Unit
  | read va => do let _ ← readByte n va
  | write va v => writeByte n va v
  | flush va => flushBlock va
  | evict b => modify (·.sysPageUnmap (diskmap + b * blksize))
  | setSuper => do
    let _ ← diskaddr (bcPgfault n) 1
    modify fun s => { s with super := true }
  | setBitmap => do
    let _ ← diskaddr (bcPgfault n) 2
    modify fun s => { s with bitmap := true }

end BcOp

/-- What was last written at each address, from the newest operation on, or what the disk had at
first. -/
def diskContents (disk : Nat → BitVec 8) : List BcOp → Nat → BitVec 8
  | [] => fun va => disk (va - diskmap)
  | .write va v :: l => update (diskContents disk l) va v
  | _ :: l => diskContents disk l

/-- The page was written to and not flushed since. -/
def Unflushed : List BcOp → Nat → Prop
  | [], _ => False
  | .write va _ :: l, p => p = pgnum va ∨ Unflushed l p
  | .flush va :: l, p => p ≠ pgnum va ∧ Unflushed l p
  | _ :: l, p => Unflushed l p

/-- Memory is accessed on the disk map, and blocks are evicted only when they are flushed. -/
def BcOp.Enabled (l : List BcOp) : BcOp → Prop
  | read va | write va _ | flush va => OnDisk va
  | evict b => ¬ Unflushed l (pgnum (diskmap + b * blksize))
  | setSuper | setBitmap => True

/-- Runs from an empty cache, with their operations, newest first. -/
inductive BcRun (n : Nat) (disk : Nat → BitVec 8) : BlockCache → List BcOp → Prop where
  | start {mem : Nat → BitVec 8} : BcRun n disk ⟨fun _ => none, mem, disk, false, false⟩ []
  | step {s s' : BlockCache} {l : List BcOp} (op : BcOp) : BcRun n disk s l → op.Enabled l →
      (op.exec n).run s = .ok ((), s') → BcRun n disk s' (op :: l)

/-- The address is in a block that exists and is in use, according to these contents of the disk
map. -/
structure InUse (c : Nat → BitVec 8) (va : Nat) : Prop where
  onDisk : OnDisk va
  lt : blocknoOf va < (load32 c sNblocks).toNat
  used : (load32 c (bitmapWord (blocknoOf va))).getLsbD (blocknoOf va % 32) = false

def Cached (s : BlockCache) (va : Nat) : Prop := s.pte (pgnum va) ≠ none

instance (s : BlockCache) (va : Nat) : Decidable (Cached s va) := inferInstanceAs (Decidable (¬ _))

/-- What the handler of a fault at `va` reads of the superblock and the bitmap is in memory, with
the block that it reads in. -/
structure Resident (s : BlockCache) (va : Nat) : Prop where
  super : s.super = true → Cached s sNblocks
  bitmap : s.super = true → s.bitmap = true → Cached s (bitmapWord (blocknoOf va)) ∨
    pgnum (bitmapWord (blocknoOf va)) = pgnum va

variable {n : Nat} {disk : Nat → BitVec 8} {s s' : BlockCache} {l : List BcOp}
  {c : Nat → BitVec 8} {w : Nat → Prop} {va a : Nat} {fault : Nat → Bc Unit}

/-! ### The invariant -/

/-- What is in memory is right, and so is what is on the disk of the blocks that are not dirty; only
the blocks in `w` are dirty. -/
structure Caches (c : Nat → BitVec 8) (w : Nat → Prop) (s : BlockCache) : Prop where
  mem : ∀ a, OnDisk a → Cached s a → s.mem a = c a
  disk : ∀ a, OnDisk a → s.pte (pgnum a) ≠ some true → s.disk (a - diskmap) = c a
  dirty : ∀ p, s.pte p = some true → w p

theorem Caches.load32_eq (h : Caches c w s) (hm : Cached s va) (hon : OnDisk va)
    (h4 : va % 4 = 0) : load32 s.mem va = load32 c va := by
  have hbyte : ∀ i, i < 4 → s.mem (va + i) = c (va + i) := fun i hi => by
    have hp : pgnum (va + i) = pgnum va := by
      simp only [pgnum, pgsize]
      omega
    have hend : va + i < diskmap + disksize := by
      have := hon.2
      simp only [diskmap, disksize] at this ⊢
      omega
    refine h.mem _ ⟨Nat.le_add_right_of_le hon.1, hend⟩ ?_
    rwa [Cached, hp]
  simp only [load32, hbyte _ (by decide : 3 < 4), hbyte _ (by decide : 2 < 4),
    hbyte _ (by decide : 1 < 4), show s.mem va = c va from hbyte 0 (by decide)]

theorem Caches.mono {w' : Nat → Prop} (h : Caches c w s) (hw : ∀ p, w p → w' p) : Caches c w' s :=
  ⟨h.mem, h.disk, fun p hp => hw p (h.dirty p hp)⟩

/-! ### Reading a block in -/

/-- The block of `va` is in memory and not dirty. -/
def BlockCache.fetched (s : BlockCache) (va : Nat) : BlockCache :=
  { s with
    pte := update s.pte (pgnum va) (some false)
    mem := fun a => if pgnum a = pgnum va then s.disk (a - diskmap) else s.mem a }

theorem fetched_pte_self (s : BlockCache) (va : Nat) : (s.fetched va).pte (pgnum va) = some false :=
  update_self ..

theorem fetched_pte_of_ne {p : Nat} (h : p ≠ pgnum va) : (s.fetched va).pte p = s.pte p :=
  update_of_ne h ..

/-- The sectors of the block at `va` are those of its page. -/
theorem ideRead_block (hon : OnDisk va) (s : BlockCache) :
    ((s.sysPageAlloc (va / pgsize * pgsize)).ideRead (blksects * blocknoOf va)
        (va / pgsize * pgsize) blksects) =
      { s.fetched va with pte := update s.pte (pgnum va) (some true) } := by
  have hbase : pgnum (va / pgsize * pgsize) = pgnum va := by
    simp only [pgnum, pgsize]
    omega
  have hmem : ∀ a, (va / pgsize * pgsize ≤ a ∧ a < va / pgsize * pgsize + sectsize * blksects) ↔
      pgnum a = pgnum va := fun a => by
    simp only [pgnum, pgsize, sectsize, blksects, blksize]
    omega
  have hpage : ∀ p, (pgnum va ≤ p ∧ p * pgsize < va / pgsize * pgsize + sectsize * blksects) ↔
      p = pgnum va := fun p => by
    simp only [pgnum, pgsize, sectsize, blksects, blksize]
    omega
  have hsec : ∀ a, pgnum a = pgnum va →
      sectsize * (blksects * blocknoOf va) + (a - va / pgsize * pgsize) = a - diskmap := fun a => by
    have := hon.1
    simp only [pgnum, pgsize, sectsize, blksects, blksize, blocknoOf, diskmap] at this ⊢
    omega
  simp only [BlockCache.ideRead, BlockCache.sysPageAlloc, BlockCache.fetched, hbase, hmem, hpage]
  refine congrArg₂ (fun pte mem => BlockCache.mk pte mem s.disk s.super s.bitmap)
    (funext fun p => ?_) (funext fun a => ?_)
  · by_cases hp : p = pgnum va
    · subst hp
      simp
    · simp [hp]
  · by_cases ha : pgnum a = pgnum va
    · simp only [if_pos ha, hsec a ha]
    · simp only [if_neg ha]

theorem readIn_run (hon : OnDisk va) (s : BlockCache) :
    (readIn va).run s =
      if va % pgsize = 0 then .ok ((), s.fetched va) else .error .pageMap := by
  rw [readIn, bind_modify, bind_modify, ideRead_block hon]
  by_cases hal : va % pgsize = 0
  · rw [if_pos hal]
    have hmap : (sysPageMap va).run
        { s.fetched va with pte := update s.pte (pgnum va) (some true) } =
          .ok (0, s.fetched va) := by
      rw [sysPageMap, if_neg (not_not_intro hal)]
      rw [bind_get, if_neg (by simp)]
      rw [bind_modify, run_pure]
      simp [BlockCache.fetched]
    rw [bind_ok hmap]
    rfl
  · rw [if_neg hal]
    have hmap : (sysPageMap va).run
        { s.fetched va with pte := update s.pte (pgnum va) (some true) } =
          .ok (eInval, { s.fetched va with pte := update s.pte (pgnum va) (some true) }) := by
      rw [sysPageMap, if_pos hal]
      rfl
    rw [bind_ok hmap]
    rfl

theorem Caches.fetched (h : Caches c w s) (hw : ¬ w (pgnum va)) : Caches c w (s.fetched va) := by
  have hclean : ∀ a, pgnum a = pgnum va → s.pte (pgnum a) ≠ some true := fun a ha hd =>
    hw (ha ▸ h.dirty _ hd)
  refine ⟨fun a ha hm => ?_, fun a ha hd => ?_, fun p hp => ?_⟩
  · by_cases hp : pgnum a = pgnum va
    · exact (if_pos hp).trans (h.disk a ha (hclean a hp))
    · refine (if_neg hp).trans (h.mem a ha ?_)
      rwa [Cached, fetched_pte_of_ne hp] at hm
  · by_cases hp : pgnum a = pgnum va
    · exact h.disk a ha (hclean a hp)
    · rw [fetched_pte_of_ne hp] at hd
      exact h.disk a ha hd
  · by_cases hpa : p = pgnum va
    · subst hpa
      rw [fetched_pte_self] at hp
      cases hp
    · rw [fetched_pte_of_ne hpa] at hp
      exact h.dirty p hp

theorem Cached.fetched (hm : Cached s a ∨ pgnum a = pgnum va) : Cached (s.fetched va) a := by
  by_cases hp : pgnum a = pgnum va
  · simp [Cached, hp, fetched_pte_self]
  · obtain hm | hm := hm
    · rwa [Cached, fetched_pte_of_ne hp]
    · exact absurd hm hp

/-! ### Faults that are handled keep the contents -/

/-- The contents are cached, and the pages in `M` are in memory. -/
structure Keeps (c : Nat → BitVec 8) (w M : Nat → Prop) (s : BlockCache) : Prop where
  caches : Caches c w s
  present : ∀ p, M p → s.pte p ≠ none

/-- A handler that, when it returns, has kept the contents, made no page dirty, evicted none and
mapped the one of the fault. -/
def Handles (c : Nat → BitVec 8) (fault : Nat → Bc Unit) : Prop :=
  ∀ (w M : Nat → Prop) va, ¬ w (pgnum va) →
    Ensures (Keeps c w M) (fault va) fun _ s => Keeps c w M s ∧ Cached s va

section Handler

variable {M : Nat → Prop} (hf : Handles c fault)
include hf

theorem Handles.touch (va : Nat) :
    Ensures (Keeps c w M) (touch fault va) fun _ s => Keeps c w M s ∧ Cached s va := by
  intro s r s' h hrun
  rw [JosVmm.touch, bind_get] at hrun
  split at hrun
  · rename_i hnone
    -- the page is not there, so it is not dirty
    have hclean : Caches c (fun p => w p ∧ p ≠ pgnum va) s := by
      refine ⟨h.caches.mem, h.caches.disk, fun p hp => ⟨h.caches.dirty p hp, ?_⟩⟩
      rintro rfl
      rw [hnone] at hp
      cases hp
    obtain ⟨hc, hm⟩ := hf _ M va (fun hw => hw.2 rfl) ⟨hclean, h.present⟩ hrun
    exact ⟨⟨hc.caches.mono fun _ hp => hp.1, hc.present⟩, hm⟩
  · rename_i hsome
    cases hrun
    exact ⟨h, hsome⟩

theorem Handles.loadWord (va : Nat) :
    Ensures (Keeps c w M) (loadWord fault va) fun _ => Keeps c w M :=
  .bind (hf.touch va) fun _ => .bind .get fun _ => .pure fun _ h => h.1

theorem Handles.checkNumber (e : BcPanic) (b : Nat) :
    Ensures (Keeps c w M) (checkNumber fault e b) fun _ => Keeps c w M := by
  refine .bind .get fun _ => .ite (.bind (hf.loadWord _) fun _ => ?_) .skip
  exact .ite .throw .skip

theorem Handles.checkUsed (b : Nat) :
    Ensures (Keeps c w M) (checkUsed fault b) fun _ => Keeps c w M := by
  have hfree : Ensures (Keeps c w M) (blockIsFree fault b) fun _ => Keeps c w M := by
    refine .bind .get fun _ => .ite (.bind (hf.loadWord _) fun _ => ?_) .skip
    exact .ite .skip (.bind (hf.loadWord _) fun _ => .skip)
  exact .bind .get fun _ => .ite (.bind hfree fun _ => .ite .throw .skip) .skip

end Handler

theorem readIn_keeps {M : Nat → Prop} (hon : OnDisk va) (hw : ¬ w (pgnum va)) :
    Ensures (Keeps c w M) (readIn va) fun _ => Keeps c w fun p => M p ∨ p = pgnum va := by
  intro s r s' h hrun
  rw [readIn_run hon] at hrun
  split at hrun
  · cases hrun
    refine ⟨h.caches.fetched hw, fun p hp => ?_⟩
    by_cases hpa : p = pgnum va
    · rw [hpa, fetched_pte_self]
      exact Option.some_ne_none _
    · rw [fetched_pte_of_ne hpa]
      exact h.present p (hp.resolve_right hpa)
  · cases hrun

/-- **`bc_pgfault`**, when it returns, has kept the contents, and the block is in memory. -/
theorem bcPgfault_handles (c : Nat → BitVec 8) (n : Nat) : Handles c (bcPgfault n) := by
  induction n with
  | zero => exact fun _ _ _ _ => .throw
  | succ n ih =>
    intro w M va hw
    rw [bcPgfault]
    split
    · rename_i hon
      refine .bind (ih.checkNumber _ _) fun _ => .bind (readIn_keeps hon hw) fun _ => ?_
      intro s r s' h hrun
      have h' := ih.checkUsed _ h hrun
      exact ⟨⟨h'.caches, fun p hp => h'.present p (.inl hp)⟩, h'.present _ (.inr rfl)⟩
    · exact .throw

/-! ### Faults that are not handled -/

/-- The handler does not return from a fault inside a block. -/
theorem bcPgfault_unaligned (n : Nat) (hal : va % pgsize ≠ 0) :
    Ensures (fun _ => True) (bcPgfault n va) fun _ _ => False := by
  cases n with
  | zero => exact .throw
  | succ n =>
    rw [bcPgfault]
    split
    · rename_i hon
      refine .bind (R := fun _ _ => True) (fun _ _ _ _ _ => trivial) fun _ =>
        .bind (R := fun _ _ => False) ?_ fun _ _ _ _ h => h.elim
      intro s r s' _ hrun
      rw [readIn_run hon, if_neg hal] at hrun
      cases hrun
    · exact .throw

/-- Nor does it when the superblock is not in memory: it reads the superblock first, which is a
fault again. -/
theorem bcPgfault_noSuper (n va : Nat) :
    Ensures (fun s => s.super = true ∧ ¬ Cached s sNblocks) (bcPgfault n va) fun _ _ => False := by
  induction n generalizing va with
  | zero => exact .throw
  | succ n ih =>
    rw [bcPgfault]
    split
    · refine .bind (R := fun _ _ => False) ?_ fun _ _ _ _ h => h.elim
      intro s r s' h hrun
      rw [checkNumber, bind_get, if_pos h.1] at hrun
      obtain ⟨v, s1, hload, -⟩ := bind_inv hrun
      obtain ⟨_, s2, htouch, -⟩ := bind_inv hload
      rw [touch, bind_get, if_pos (not_not.mp h.2)] at htouch
      exact ih sNblocks h htouch
    · exact .throw

/-! ### Faults that are handled -/

theorem touch_run (hm : Cached s va) : (touch fault va).run s = .ok ((), s) := by
  rw [touch, bind_get, if_neg hm]
  rfl

theorem Caches.loadWord_run (h : Caches c w s) (hm : Cached s va) (hon : OnDisk va)
    (h4 : va % 4 = 0) : (loadWord fault va).run s = .ok (load32 c va, s) := by
  rw [loadWord, bind_ok (touch_run hm), ← h.load32_eq hm hon h4]
  rfl

theorem sNblocks_onDisk : OnDisk sNblocks := by decide

theorem bitmapWord_onDisk (hon : OnDisk va) : OnDisk (bitmapWord (blocknoOf va)) := by
  have := hon.2
  simp only [OnDisk, bitmapWord, blocknoOf, diskmap, disksize, blksize, pgsize] at this ⊢
  omega

theorem bitmapWord_mod (b : Nat) : bitmapWord b % 4 = 0 := by
  simp only [bitmapWord, diskmap, blksize, pgsize]
  omega

section

variable (h : Caches c w s) (hu : InUse c va)
include h hu

theorem Caches.checkNumber_run (e : BcPanic) (hs : s.super = true → Cached s sNblocks) :
    (checkNumber fault e (blocknoOf va)).run s = .ok ((), s) := by
  rw [checkNumber, bind_get]
  split
  · rename_i hsup
    rw [bind_ok (h.loadWord_run (hs hsup) sNblocks_onDisk (by decide)),
      if_neg (Nat.not_le.mpr hu.lt)]
    rfl
  · rfl

theorem Caches.checkUsed_run (hs : s.super = true → Cached s sNblocks)
    (hb : s.super = true → s.bitmap = true → Cached s (bitmapWord (blocknoOf va))) :
    (checkUsed fault (blocknoOf va)).run s = .ok ((), s) := by
  rw [checkUsed, bind_get]
  split
  · rename_i hbm
    have hfree : (blockIsFree fault (blocknoOf va)).run s = .ok (false, s) := by
      rw [blockIsFree, bind_get]
      split
      · rename_i hsup
        rw [bind_ok (h.loadWord_run (hs hsup) sNblocks_onDisk (by decide)),
          if_neg (Nat.not_le.mpr hu.lt),
          bind_ok (h.loadWord_run (hb hsup hbm) (bitmapWord_onDisk hu.onDisk)
            (bitmapWord_mod _)), hu.used]
        rfl
      · rfl
    rw [bind_ok hfree]
    rfl
  · rfl

/-- **A fault at the first byte of a block** is handled, if what the handler reads is in memory. -/
theorem Caches.bcPgfault_run (hm : ¬ Cached s va) (hal : va % pgsize = 0) (hres : Resident s va)
    (hn : 0 < n) : (bcPgfault n va).run s = .ok ((), s.fetched va) := by
  obtain ⟨n, rfl⟩ := Nat.exists_eq_add_one_of_ne_zero hn.ne'
  -- the page is not there, so it is not dirty
  have hclean : Caches c (fun p => p ≠ pgnum va) s := by
    refine ⟨h.mem, h.disk, ?_⟩
    rintro p hp rfl
    rw [not_not.mp hm] at hp
    cases hp
  rw [bcPgfault, if_pos hu.onDisk, bind_ok (h.checkNumber_run hu _ hres.super),
    bind_ok ((readIn_run hu.onDisk s).trans (if_pos hal))]
  exact (hclean.fetched (not_not_intro rfl)).checkUsed_run hu
    (fun hsup => .fetched (.inl (hres.super hsup))) fun hsup hbm => .fetched (hres.bitmap hsup hbm)

end

/-! ### Operations -/

/-- The block of `va` is on the disk and not dirty, if it is in memory. -/
def BlockCache.flushed (s : BlockCache) (va : Nat) : BlockCache :=
  { s with
    pte := fun p => if p = pgnum va then (s.pte p).map fun _ => false else s.pte p
    disk := fun i => if s.pte (pgnum va) = some true ∧ pgnum (diskmap + i) = pgnum va then
      s.mem (diskmap + i) else s.disk i }

/-- The sectors that are written are those of the page. -/
theorem ideWrite_block (hon : OnDisk va) (s : BlockCache) :
    s.ideWrite (blksects * blocknoOf va) (va / blksize * blksize) blksects =
      { s with
        disk := fun i => if pgnum (diskmap + i) = pgnum va then s.mem (diskmap + i)
          else s.disk i } := by
  have hsec : ∀ i, (sectsize * (blksects * blocknoOf va) ≤ i ∧
      i < sectsize * (blksects * blocknoOf va + blksects)) ↔ pgnum (diskmap + i) = pgnum va :=
    fun i => by
      have := hon.1
      simp only [pgnum, pgsize, sectsize, blksects, blksize, blocknoOf, diskmap] at this ⊢
      omega
  have hsrc : ∀ i, pgnum (diskmap + i) = pgnum va →
      va / blksize * blksize + (i - sectsize * (blksects * blocknoOf va)) = diskmap + i := fun i => by
    have := hon.1
    simp only [pgnum, pgsize, sectsize, blksects, blksize, blocknoOf, diskmap] at this ⊢
    omega
  simp only [BlockCache.ideWrite, hsec]
  refine congrArg (fun d => BlockCache.mk s.pte s.mem d s.super s.bitmap) (funext fun i => ?_)
  by_cases hi : pgnum (diskmap + i) = pgnum va
  · simp only [if_pos hi, hsrc i hi]
  · simp only [if_neg hi]

theorem remap_run (hal : va % pgsize = 0) (s : BlockCache) :
    (remap va).run s = .ok ((), { s with
      pte := fun p => if p = pgnum va then (s.pte p).map fun _ => false else s.pte p }) := by
  have hpte : (fun p => if p = pgnum va then (s.pte p).map fun _ => false else s.pte p) =
      update s.pte (pgnum va) ((s.pte (pgnum va)).map fun _ => false) := by
    funext p
    by_cases hp : p = pgnum va
    · simp [hp]
    · simp [hp]
  rw [remap, bind_get, hpte]
  cases hd : s.pte (pgnum va) with
  | none =>
    rw [if_neg (not_not_intro rfl), Option.map_none, ← hd, update_eq_self]
    rfl
  | some d =>
    have hmap : (sysPageMap va).run s = .ok (0, { s with
        pte := update s.pte (pgnum va) (some false) }) := by
      rw [sysPageMap, if_neg (not_not_intro hal), bind_get, if_neg (by simp [hd])]
      rfl
    rw [if_pos (Option.some_ne_none d), bind_ok hmap]
    rfl

theorem flushBlock_run (hon : OnDisk va) (s : BlockCache) :
    (flushBlock va).run s = .ok ((), s.flushed va) := by
  have hbase : pgnum (va / blksize * blksize) = pgnum va := by
    simp only [pgnum, pgsize, blksize]
    omega
  have hal : va / blksize * blksize % pgsize = 0 := Nat.mul_mod_left ..
  rw [flushBlock, if_pos hon]
  dsimp only
  rw [bind_get, hbase]
  by_cases hd : s.pte (pgnum va) = some true
  · rw [if_pos hd, bind_modify, ideWrite_block hon, remap_run hal, hbase]
    simp only [BlockCache.flushed, hd, true_and]
  · rw [if_neg hd, remap_run hal, hbase]
    simp only [BlockCache.flushed, hd, false_and, if_false]

theorem Caches.flushed (h : Caches c w s) (va : Nat) :
    Caches c (fun p => p ≠ pgnum va ∧ w p) (s.flushed va) := by
  have hpte : ∀ p, (s.flushed va).pte p ≠ none → s.pte p ≠ none := by
    intro p hp hn
    simp [BlockCache.flushed, hn] at hp
  refine ⟨fun a ha hm => h.mem a ha (hpte _ hm), fun a ha hd => ?_, fun p hp => ?_⟩
  · have hsub : diskmap + (a - diskmap) = a := Nat.add_sub_cancel' ha.1
    simp only [BlockCache.flushed, hsub]
    by_cases hdirty : s.pte (pgnum a) = some true
    · have hp : pgnum a = pgnum va := by
        by_contra hne
        simp [BlockCache.flushed, hne, hdirty] at hd
      rw [if_pos ⟨hp ▸ hdirty, hp⟩]
      exact h.mem a ha (by simp [Cached, hdirty])
    · have hne : ¬ (s.pte (pgnum va) = some true ∧ pgnum a = pgnum va) := fun hc =>
        hdirty (hc.2 ▸ hc.1)
      rw [if_neg hne]
      exact h.disk a ha hdirty
  · by_cases hpa : p = pgnum va
    · simp [BlockCache.flushed, hpa] at hp
    · simp only [BlockCache.flushed, if_neg hpa] at hp
      exact ⟨hpa, h.dirty p hp⟩

theorem Caches.poke (h : Caches c w s) (hm : Cached s va) (v : BitVec 8) :
    Caches (update c va v) (fun p => p = pgnum va ∨ w p) (s.poke va v) := by
  have hpte : ∀ a, pgnum a ≠ pgnum va → (s.poke va v).pte (pgnum a) = s.pte (pgnum a) := fun a ha =>
    update_of_ne ha ..
  refine ⟨fun a ha hma => ?_, fun a ha hd => ?_, fun p hp => ?_⟩
  · by_cases hav : a = va
    · subst hav
      simp [BlockCache.poke]
    · rw [update_of_ne hav]
      refine (update_of_ne hav ..).trans (h.mem a ha ?_)
      by_cases hp : pgnum a = pgnum va
      · rwa [Cached, hp]
      · rwa [Cached, hpte a hp] at hma
  · by_cases hp : pgnum a = pgnum va
    · simp [BlockCache.poke, hp] at hd
    · rw [hpte a hp] at hd
      have hav : a ≠ va := fun hav => hp (congrArg pgnum hav)
      rw [update_of_ne hav]
      exact h.disk a ha hd
  · by_cases hpa : p = pgnum va
    · exact .inl hpa
    · exact .inr (h.dirty p ((update_of_ne hpa ..).symm.trans hp))

theorem Caches.sysPageUnmap (h : Caches c w s) (hw : ¬ w (pgnum va)) :
    Caches c w (s.sysPageUnmap va) := by
  have hpte : ∀ p, p ≠ pgnum va → (s.sysPageUnmap va).pte p = s.pte p := fun p hp =>
    update_of_ne hp ..
  refine ⟨fun a ha hma => ?_, fun a ha hd => ?_, fun p hp => ?_⟩
  · by_cases hp : pgnum a = pgnum va
    · simp [Cached, BlockCache.sysPageUnmap, hp] at hma
    · rw [Cached, hpte _ hp] at hma
      exact h.mem a ha hma
  · refine h.disk a ha fun hdirty => ?_
    by_cases hp : pgnum a = pgnum va
    · exact hw (hp ▸ h.dirty _ hdirty)
    · exact hd ((hpte _ hp).trans hdirty)
  · by_cases hpa : p = pgnum va
    · simp [BlockCache.sysPageUnmap, hpa] at hp
    · exact h.dirty p ((hpte p hpa).symm.trans hp)

/-! ### Runs keep the contents -/

theorem Caches.keeps (h : Caches c w s) : Keeps c w (fun _ => False) s := ⟨h, fun _ hp => hp.elim⟩

theorem Caches.touch (h : Caches c w s) (hrun : (touch (bcPgfault n) va).run s = .ok ((), s')) :
    Caches c w s' ∧ Cached s' va :=
  have ⟨hk, hm⟩ := (bcPgfault_handles c n).touch va h.keeps hrun
  ⟨hk.caches, hm⟩

theorem Caches.diskaddr (h : Caches c w s) {b r : Nat}
    (hrun : (diskaddr (bcPgfault n) b).run s = .ok (r, s')) : Caches c w s' := by
  rw [JosVmm.diskaddr] at hrun
  split at hrun
  · cases hrun
  · obtain ⟨_, s1, hcheck, hpure⟩ := bind_inv hrun
    cases hpure
    exact ((bcPgfault_handles c n).checkNumber _ _ h.keeps hcheck).caches

theorem Caches.exec (h : Caches (diskContents disk l) (Unflushed l) s) {op : BcOp}
    (hop : op.Enabled l) (hrun : (op.exec n).run s = .ok ((), s')) :
    Caches (diskContents disk (op :: l)) (Unflushed (op :: l)) s' := by
  cases op with
  | read va =>
    obtain ⟨_, s1, hread, hpure⟩ := bind_inv hrun
    obtain ⟨_, s2, htouch, hmem⟩ := bind_inv hread
    cases hpure
    cases hmem
    exact (h.touch htouch).1
  | write va v =>
    obtain ⟨_, s1, htouch, hpoke⟩ := bind_inv hrun
    cases hpoke
    obtain ⟨h1, hm⟩ := h.touch htouch
    exact h1.poke hm v
  | flush va =>
    rw [BcOp.exec, flushBlock_run hop] at hrun
    cases hrun
    exact h.flushed va
  | evict b =>
    cases hrun
    exact h.sysPageUnmap hop
  | setSuper | setBitmap =>
    obtain ⟨_, s1, haddr, hset⟩ := bind_inv hrun
    cases hset
    have h1 := h.diskaddr haddr
    exact ⟨h1.mem, h1.disk, h1.dirty⟩

theorem BcRun.caches (hr : BcRun n disk s l) : Caches (diskContents disk l) (Unflushed l) s := by
  induction hr with
  | start => exact ⟨fun _ _ hm => absurd rfl hm, fun _ _ _ => rfl, fun _ hp => nomatch hp⟩
  | step op _ hop hrun ih => exact ih.exec hop hrun

/-- **The cache is transparent.**  In each state of a run, a read of a block that is in use returns
what was last written, if it returns.  It does if the block is in memory, or if the address is its
first one and what the handler reads is in memory; and it does not if the block is not in memory and
the address is not its first one, or the superblock is needed and not in memory. -/
theorem blockCache_transparent (hr : BcRun n disk s l) (hu : InUse (diskContents disk l) va)
    (hn : 0 < n) :
    (Cached s va ∨ va % pgsize = 0 ∧ Resident s va →
      ∃ s', (readByte n va).run s = .ok (diskContents disk l va, s')) ∧
    ∀ v s', (readByte n va).run s = .ok (v, s') → v = diskContents disk l va ∧
      (Cached s va ∨ va % pgsize = 0 ∧ (s.super = true → Cached s sNblocks)) := by
  have h := hr.caches
  refine ⟨fun hserved => ?_, fun v s' hrun => ?_⟩
  · have htouch : ∃ s', (touch (bcPgfault n) va).run s = .ok ((), s') := by
      by_cases hm : Cached s va
      · exact ⟨s, touch_run hm⟩
      · obtain ⟨hal, hres⟩ := hserved.resolve_left hm
        refine ⟨s.fetched va, ?_⟩
        rw [touch, bind_get, if_pos (not_not.mp hm)]
        exact h.bcPgfault_run hu hm hal hres hn
    obtain ⟨s', hs'⟩ := htouch
    obtain ⟨h', hm⟩ := h.touch hs'
    refine ⟨s', ?_⟩
    rw [readByte, bind_ok hs', ← h'.mem va hu.onDisk hm]
    rfl
  · obtain ⟨_, s₁, htouch, hmem⟩ := bind_inv hrun
    cases hmem
    obtain ⟨h₁, hm₁⟩ := h.touch htouch
    refine ⟨h₁.mem va hu.onDisk hm₁, ?_⟩
    by_cases hm : Cached s va
    · exact .inl hm
    · rw [touch, bind_get, if_pos (not_not.mp hm)] at htouch
      refine .inr ⟨?_, fun hsup => ?_⟩
      · by_contra hal
        exact bcPgfault_unaligned n hal trivial htouch
      · by_contra hns
        exact bcPgfault_noSuper n va ⟨hsup, hns⟩ htouch

/-- A disk of 4 blocks, all of them in use. -/
def fourBlocks (i : Nat) : BitVec 8 := if i = blksize + 4 then 4#8 else 0#8

/-- The first byte of a block is read from the disk. -/
theorem blockCache_transparent_first : ∃ s', (readByte 1 (diskmap + 3 * blksize)).run
    ⟨fun _ => none, fun _ => 0, fourBlocks, false, false⟩ = .ok (0#8, s') :=
  have hr : BcRun 1 fourBlocks ⟨fun _ => none, fun _ => 0, fourBlocks, false, false⟩ [] := .start
  (blockCache_transparent hr ⟨by decide, by decide, by decide⟩ (by decide)).1
    (.inr ⟨by decide, ⟨nofun, nofun⟩⟩)

/-- A read of the second byte of a block that is in use and not in memory is not served. -/
theorem unaligned_fault : ∃ s, BcRun 4 fourBlocks s [] ∧
    InUse (diskContents fourBlocks []) (diskmap + 3 * blksize + 1) ∧
      Fails ((readByte 4 (diskmap + 3 * blksize + 1)).run s) .pageMap :=
  ⟨⟨fun _ => none, fun _ => 0, fourBlocks, false, false⟩, .start, ⟨by decide, by decide, by decide⟩,
    by decide⟩

/-! ### A new server -/

theorem diskContents_append {disk' : Nat → BitVec 8}
    (h : disk' (va - diskmap) = diskContents disk l va) (l' : List BcOp) :
    diskContents disk' l' va = diskContents disk (l' ++ l) va := by
  induction l' with
  | nil => exact h
  | cons op l' ih =>
    cases op with
    | write => simp only [List.cons_append, diskContents, update_apply, ih]
    | _ => exact ih

/-- **What is flushed survives a restart.**  When a new server runs on the disk that a run leaves in
any of its states, then a read of a block that had been flushed gives, if it returns, what was last
written, by the old server or the new one. -/
theorem blockCache_durable {l' : List BcOp} {t t' : BlockCache} {v : BitVec 8}
    (hr : BcRun n disk s l) (hon : OnDisk va) (hf : ¬ Unflushed l (pgnum va))
    (hr' : BcRun n s.disk t l') (hread : (readByte n va).run t = .ok (v, t')) :
    v = diskContents disk (l' ++ l) va := by
  have hdisk : s.disk (va - diskmap) = diskContents disk l va :=
    hr.caches.disk va hon fun hd => hf (hr.caches.dirty _ hd)
  obtain ⟨_, t₁, htouch, hmem⟩ := bind_inv hread
  cases hmem
  obtain ⟨h₁, hm⟩ := hr'.caches.touch htouch
  rw [h₁.mem va hon hm, diskContents_append hdisk]

/-- A byte is written and flushed, and read after a restart. -/
theorem blockCache_durable_byte : ∃ s t', BcRun 1 fourBlocks s
      [.flush 0x10003000, .write 0x10003000 7#8] ∧
    (readByte 1 0x10003000).run ⟨fun _ => none, fun _ => 0, s.disk, false, false⟩ =
      .ok (7#8, t') := by
  have hon : OnDisk 0x10003000 := by decide
  have h₀ : BcRun 1 fourBlocks ⟨fun _ => none, fun _ => 0, fourBlocks, false, false⟩ [] := .start
  have hr := (h₀.step (.write 0x10003000 7#8) hon rfl).step (.flush 0x10003000) hon rfl
  have hread : ∀ d, ∃ v t', (readByte 1 0x10003000).run
      ⟨fun _ => none, fun _ => 0, d, false, false⟩ = .ok (v, t') := fun _ => ⟨_, _, rfl⟩
  obtain ⟨v, t', ht⟩ := hread _
  obtain rfl : v = 7#8 := blockCache_durable hr hon (fun h => h.1 rfl) .start ht
  exact ⟨_, t', hr, ht⟩

end JosVmm
