import JosVmm.Machine.Multiboot

/-!
# File server — the format of the disk

`inc/fs.h`: how files are found on a disk.  A `struct File` has 256 bytes, with the file's name, size
and type, the numbers of its first ten blocks, and that of an indirect block with the numbers of the
others.  The superblock is block 1 and has the `struct File` of the root directory; the bitmap of
free blocks starts at block 2.

A disk is a memory of bytes, and so is a `struct File`, from its first byte on.  `File.blocks` and
`File.byteAt` are what a `struct File` refers to, and `File.ent` the `k`-th entry of a directory.  A
file of consecutive blocks is read from its first block on (`Contiguous.byteAt`).
-/

namespace JosVmm

/-- `BLKSIZE` and `BLKBITSIZE`. -/
def blksize : Nat := pgsize
def blkbitsize : Nat := blksize * 8

/-- `NDIRECT`, `NINDIRECT`, `MAXFILESIZE` and `MAXNAMELEN`. -/
def ndirect : Nat := 10
def nindirect : Nat := blksize / 4
def maxfilesize : Nat := (ndirect + nindirect) * blksize
def maxnamelen : Nat := 128

/-- `FTYPE_REG` and `FTYPE_DIR`. -/
def ftypeReg : BitVec 32 := 0#32
def ftypeDir : BitVec 32 := 1#32

/-- `FS_MAGIC`. -/
def fsMagic : BitVec 32 := 0x4A0530AE#32

/-- `sizeof(struct File)`. -/
def fileSize : Nat := 256

namespace File

def fSize (f : Bytes) : BitVec 32 := load32 f 128
def fType (f : Bytes) : BitVec 32 := load32 f 132
def fDirect (f : Bytes) (i : Nat) : BitVec 32 := load32 f (136 + 4 * i)
def fIndirect (f : Bytes) : BitVec 32 := load32 f 176

/-- The number of blocks for a size. -/
def blocksFor (n : Nat) : Nat := (n + (blksize - 1)) / blksize

/-- The number of the `i`-th block of a file. -/
def blockAt (d f : Bytes) (i : Nat) : Nat :=
  if i < ndirect then (fDirect f i).toNat
  else (load32 d ((fIndirect f).toNat * blksize + 4 * (i - ndirect))).toNat

/-- The number of blocks within the size of a file. -/
def nblocks (f : Bytes) : Nat := blocksFor (fSize f).toNat

/-- The blocks within the size of a file, and its indirect block; there is one if all the direct
pointers are used. -/
def blocks (d f : Bytes) : List Nat :=
  (List.range (nblocks f)).map (blockAt d f) ++
    if ndirect ≤ nblocks f then [(fIndirect f).toNat] else []

/-- The `j`-th byte of a file. -/
def byteAt (d f : Bytes) (j : Nat) : BitVec 8 := d (blockAt d f (j / blksize) * blksize + j % blksize)

/-- The `struct File` at `a`. -/
def load (d : Bytes) (a : Nat) : Bytes := fun o => d (a + o)

/-- The `k`-th entry of a directory. -/
def ent (d f : Bytes) (k : Nat) : Bytes := fun o => byteAt d f (fileSize * k + o)

/-- The file has this name, as a string that ends inside `f_name`. -/
def HasName (f : Bytes) (name : List (BitVec 8)) : Prop :=
  name.length < maxnamelen ∧ (∀ i (h : i < name.length), f i = name[i]) ∧ f name.length = 0#8

end File

/-- `super->s_magic`, `super->s_nblocks` and `super->s_root`. -/
def superAddr : Nat := blksize
def rootAddr : Nat := superAddr + 8

/-- The word of the bitmap for a block. -/
def bitAddr (b : Nat) : Nat := 2 * blksize + 4 * (b / 32)

/-- The bitmap says that the block is free. -/
def blockFree (d : Bytes) (b : Nat) : Bool := (load32 d (bitAddr b)).getLsbD (b % 32)

/-! ### Memory -/

/-- `n` bytes are stored at `a`. -/
def blit (m : Bytes) (a n : Nat) (src : Nat → BitVec 8) : Bytes := fun x =>
  if a ≤ x ∧ x < a + n then src (x - a) else m x

/-- The words `g 0`, …, `g (n - 1)` are stored at `a`, one after the other. -/
def storeWords (m : Bytes) (a : Nat) (g : Nat → BitVec 32) : Nat → Bytes
  | 0 => m
  | n + 1 => store32 (storeWords m a g n) (a + 4 * n) (g n)

variable {m m' d d' f f' : Bytes} {a b i j k n x : Nat} {v : BitVec 32} {g : Nat → BitVec 32}
  {src : Nat → BitVec 8}

theorem store32_of_not (h : ¬ (a ≤ x ∧ x < a + 4)) : store32 m a v x = m x := if_neg h

theorem blit_of_not (h : ¬ (a ≤ x ∧ x < a + n)) : blit m a n src x = m x := if_neg h

theorem blit_apply (h : i < n) : blit m a n src (a + i) = src i := by
  rw [blit, if_pos (by omega), Nat.add_sub_cancel_left]

/-- A word that reads the same bytes. -/
theorem load32_congr (h : ∀ i < 4, m' (a + i) = m (a + i)) : load32 m' a = load32 m a := by
  have h0 : m' a = m a := h 0 (by decide)
  rw [load32, load32, h 3 (by decide), h 2 (by decide), h 1 (by decide), h0]

theorem storeWords_of_not (h : ¬ (a ≤ x ∧ x < a + 4 * n)) : storeWords m a g n x = m x := by
  induction n with
  | zero => rfl
  | succ n ih => rw [storeWords, store32_of_not (by omega), ih (by omega)]

theorem load32_storeWords (h : i < n) : load32 (storeWords m a g n) (a + 4 * i) = g i := by
  induction n with
  | zero => omega
  | succ n ih =>
    rw [storeWords]
    by_cases hi : i = n
    · rw [hi, load32_store32_self]
    · rw [load32_store32_apart (by omega), ih (by omega)]

theorem load32_storeWords_apart (h : b + 4 ≤ a ∨ a + 4 * n ≤ b) :
    load32 (storeWords m a g n) b = load32 m b :=
  load32_congr fun i hi => storeWords_of_not (by omega)

/-! ### Files of consecutive blocks -/

namespace File

/-- The blocks of the file are `lo`, `lo + 1`, and so on. -/
def Contiguous (d f : Bytes) (lo : Nat) : Prop := ∀ i < nblocks f, blockAt d f i = lo + i

theorem lt_nblocks (h : j < (fSize f).toNat) : j / blksize < nblocks f := by
  simp only [nblocks, blocksFor, blksize, pgsize]
  omega

theorem Contiguous.byteAt (h : Contiguous d f k) (hj : j < (fSize f).toNat) :
    byteAt d f j = d (k * blksize + j) := by
  rw [File.byteAt, h _ (lt_nblocks hj), Nat.add_mul, Nat.add_assoc]
  congr 2
  rw [Nat.mul_comm]
  exact Nat.div_add_mod j blksize

theorem Contiguous.mem_blocks (h : Contiguous d f k) :
    x ∈ blocks d f ↔ (k ≤ x ∧ x < k + nblocks f) ∨ ndirect ≤ nblocks f ∧ x = (fIndirect f).toNat := by
  have hmap : x ∈ (List.range (nblocks f)).map (blockAt d f) ↔ k ≤ x ∧ x < k + nblocks f := by
    rw [List.mem_map]
    constructor
    · rintro ⟨i, hi, rfl⟩
      have hi := List.mem_range.mp hi
      rw [h i hi]
      omega
    · rintro ⟨hlo, hhi⟩
      refine ⟨x - k, List.mem_range.mpr (by omega), ?_⟩
      rw [h _ (by omega)]
      omega
  rw [blocks, List.mem_append, hmap]
  split
  · rename_i hn
    simp [hn]
  · rename_i hn
    simp [hn]

end File

end JosVmm
