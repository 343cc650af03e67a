import JosVmm.Support.Prog
import JosVmm.Machine.Words

/-!
# Machine — the multiboot map

`multiboot_read` of `kern/pmap.c`, by which a kernel finds out how much memory it has: it sorts the
entries of the map, merges neighbours of one type, settles overlaps, and sums the lengths.  A guest
kernel runs it on the map that the VMM lays out for it.

Memory is read here as the kernel reads it, by bytes.  `mmap_list` is an array on the stack whose
elements are not initialised; an access beyond its end is a fault.
-/

namespace JosVmm
open Support Support.Prog

/-! ### Memory -/

/-- Memory, a byte at each address. -/
abbrev Bytes := Nat → BitVec 8

/-- The 4-byte value at `a`. -/
def load32 (m : Bytes) (a : Nat) : BitVec 32 := m (a + 3) ++ m (a + 2) ++ m (a + 1) ++ m a

/-- A 4-byte store at `a`. -/
def store32 (m : Bytes) (a : Nat) (v : BitVec 32) : Bytes := fun b =>
  if a ≤ b ∧ b < a + 4 then (v >>> (8 * (b - a))).setWidth 8 else m b

theorem load32_store32_self (m : Bytes) (a : Nat) (v : BitVec 32) :
    load32 (store32 m a v) a = v := by
  have byte : ∀ j < 4, store32 m a v (a + j) = (v >>> (8 * j)).setWidth 8 := fun j hj => by
    rw [store32, if_pos (by omega), Nat.add_sub_cancel_left]
  have h0 : store32 m a v a = (v >>> 0).setWidth 8 := byte 0 (by decide)
  rw [load32, byte 3 (by decide), byte 2 (by decide), byte 1 (by decide), h0]
  refine BitVec.eq_of_getLsbD_eq fun i hi => ?_
  simp only [BitVec.getLsbD_append, BitVec.getLsbD_setWidth, BitVec.getLsbD_ushiftRight]
  rcases (by omega : i < 8 ∨ 8 ≤ i ∧ i < 16 ∨ 16 ≤ i ∧ i < 24 ∨ 24 ≤ i) with h | h | h | h
  · simp [h]
  · simp [show ¬ i < 8 by omega, show i - 8 < 8 by omega, show 8 + (i - 8) = i by omega]
  · simp [show ¬ i < 8 by omega, show ¬ i - 8 < 8 by omega, show i - 8 - 8 < 8 by omega,
      show 16 + (i - 8 - 8) = i by omega]
  · simp [show ¬ i < 8 by omega, show ¬ i - 8 < 8 by omega, show ¬ i - 8 - 8 < 8 by omega,
      show i - 8 - 8 - 8 < 8 by omega, show 24 + (i - 8 - 8 - 8) = i by omega]

theorem load32_store32_apart {m : Bytes} {a b : Nat} {v : BitVec 32} (h : a + 4 ≤ b ∨ b + 4 ≤ a) :
    load32 (store32 m a v) b = load32 m b := by
  have byte : ∀ j < 4, store32 m a v (b + j) = m (b + j) := fun j hj => by
    rw [store32, if_neg (by omega)]
  have h0 : store32 m a v b = m b := byte 0 (by decide)
  rw [load32, byte 3 (by decide), byte 2 (by decide), byte 1 (by decide), h0, load32]

/-- `APPEND_HILO(hi, lo)`. -/
def appendHilo (hi lo : BitVec 32) : Word := (hi.setWidth 64 <<< 32) + lo.setWidth 64

theorem appendHilo_split (w : Word) : appendHilo ((w >>> 32).setWidth 32) (w.setWidth 32) = w := by
  refine BitVec.eq_of_toNat_eq ?_
  simp [appendHilo, Nat.shiftLeft_eq, Nat.shiftRight_eq_div_pow]
  omega

/-- `mbinfo->mmap_addr`. -/
def mmapAddr (m : Bytes) (mbinfo : Nat) : BitVec 32 := load32 m (mbinfo + 48)

/-- `mbinfo->mmap_length / sizeof(memory_map_t)`. -/
def mmapCount (m : Bytes) (mbinfo : Nat) : Nat := (load32 m (mbinfo + 44)).toNat / 24

/-- A `memory_map_t`. -/
structure MemoryMap where
  size : BitVec 32
  baseAddrLow : BitVec 32
  baseAddrHigh : BitVec 32
  lengthLow : BitVec 32
  lengthHigh : BitVec 32
  type : BitVec 32
  deriving DecidableEq, Repr

/-- The `memory_map_t` at `a`. -/
def loadMap (m : Bytes) (a : Nat) : MemoryMap where
  size := load32 m a
  baseAddrLow := load32 m (a + 4)
  baseAddrHigh := load32 m (a + 8)
  lengthLow := load32 m (a + 12)
  lengthHigh := load32 m (a + 16)
  type := load32 m (a + 20)

namespace MemoryMap

def addr (e : MemoryMap) : Word := appendHilo e.baseAddrHigh e.baseAddrLow

def len (e : MemoryMap) : Word := appendHilo e.lengthHigh e.lengthLow

end MemoryMap

/-- The entries of an array of `memory_map_t`. -/
def decodeMaps : List (BitVec 32) → List MemoryMap
  | size :: baseAddrLow :: baseAddrHigh :: lengthLow :: lengthHigh :: type :: l =>
    { size, baseAddrLow, baseAddrHigh, lengthLow, lengthHigh, type } :: decodeMaps l
  | _ => []

/-- `MB_TYPE_USABLE` and so on. -/
def mbTypeUsable : BitVec 32 := 1#32
def mbTypeReserved : BitVec 32 := 2#32
def mbTypeAcpiReclm : BitVec 32 := 3#32
def mbTypeAcpiNvs : BitVec 32 := 4#32
def mbTypeBad : BitVec 32 := 5#32

/-- `restrictive_type`. -/
def restrictiveType (t₁ t₂ : BitVec 32) : BitVec 32 :=
  if t₁ = mbTypeBad ∨ t₂ = mbTypeBad then mbTypeBad
  else if t₁ = mbTypeAcpiNvs ∨ t₂ = mbTypeAcpiNvs then mbTypeAcpiNvs
  else if t₁ = mbTypeReserved ∨ t₂ = mbTypeReserved then mbTypeReserved
  else if t₁ = mbTypeAcpiReclm ∨ t₂ = mbTypeAcpiReclm then mbTypeAcpiReclm
  else mbTypeUsable

/-! ### `multiboot_read` -/

/-- What `multiboot_read` works on; `mmapSize` is the size of `mmap_list`, and 0 is the null
pointer. -/
structure Boot where
  mem : Bytes
  mmapSize : Nat
  mmapList : Nat → Nat
  basemem : Word
  extmem : Word

inductive BootFault where
  | mmapList (i : Nat)
  deriving DecidableEq, Repr

abbrev Bm := StateT Boot (Except BootFault)

def readMmap (i : Nat) : Bm Nat := do
  let b ← get
  if i < b.mmapSize then return b.mmapList i else throw (.mmapList i)

def writeMmap (i a : Nat) : Bm Unit := do
  let b ← get
  if i < b.mmapSize then set { b with mmapList := Function.update b.mmapList i a }
  else throw (.mmapList i)

def storeMap (a : Nat) (v : BitVec 32) : Bm Unit := modify fun b => { b with mem := store32 b.mem a v }

def getMap (a : Nat) : Bm MemoryMap := do return loadMap (← get).mem a

/-- The `while` loop that makes room at `j`; `n` is `last - j`. -/
def shiftMmap (j : Nat) : Nat → Bm Unit
  | 0 => return ()
  | n + 1 => do
    writeMmap (j + n + 1) (← readMmap (j + n))
    shiftMmap j n

/-- The loop over `j`, with `n` rounds left of `i`: the place of an entry at `addr`. -/
def placeMmap (addr : Word) (i : Nat) : Nat → Bm Nat
  | 0 => return i
  | n + 1 => do
    let j := i - (n + 1)
    if addr < (← getMap (← readMmap j)).addr then
      shiftMmap j (i + 1 - j)
      return j
    else
      placeMmap addr i n

/-- A round of the first loop: the entry at `mmap` joins the `i` before it. -/
def insertMmap (mmap i : Nat) : Bm Unit := do
  let e ← getMap mmap
  if 5#32 < e.type ∨ e.type < 1#32 then
    storeMap (mmap + 20) mbTypeReserved
  let j ← placeMmap e.addr i i
  writeMmap j mmap

/-- A round of the second loop: entry `i` and the one before it. -/
def sanitizeMmap (i : Nat) : Bm Unit := do
  let prev ← readMmap (i - 1)
  let this ← readMmap i
  let p ← getMap prev
  let t ← getMap this
  if p.addr + p.len = t.addr ∧ p.type = t.type then
    storeMap (this + 12) (((p.len.setWidth 32).setWidth 64 + t.len : Word).setWidth 32)
    storeMap (this + 16) (((p.len + t.len) >>> 32).setWidth 32)
    storeMap (this + 4) (← getMap prev).baseAddrLow
    storeMap (this + 8) (← getMap prev).baseAddrHigh
    writeMmap (i - 1) 0
  else if t.addr < p.addr + p.len then
    let type := restrictiveType p.type t.type
    storeMap (prev + 20) type
    storeMap (this + 20) type

/-- A round of the third loop. -/
def sumMmap (i : Nat) : Bm Unit := do
  let mmap ← readMmap i
  if mmap ≠ 0 then
    let e ← getMap mmap
    if e.type = mbTypeUsable ∨ e.type = mbTypeAcpiReclm then
      if e.baseAddrLow < 0x100000#32 ∧ e.baseAddrHigh = 0 then
        modify fun b => { b with basemem := b.basemem + e.len }
      else
        modify fun b => { b with extmem := b.extmem + e.len }

/-- `for (i = start; i < count; i++)`.  The count is read in every round; past the end of
`mmap_list` a round faults, so that one more is enough. -/
def forMmap (mbinfo start : Nat) (body : Nat → Bm Unit) : Bm Unit := do
  let n := (← get).mmapSize
  (List.range' start (n + 1 - start)).forM fun i => do
    if i < mmapCount (← get).mem mbinfo then body i

/-- `multiboot_read`. -/
def multibootRead (mbinfo : Nat) : Bm Unit := do
  let mmapBase := (mmapAddr (← get).mem mbinfo).toNat
  modify fun b => { b with mmapSize := mmapCount b.mem mbinfo }
  forMmap mbinfo 0 fun i => insertMmap (mmapBase + 24 * i) i
  forMmap mbinfo 1 sanitizeMmap
  forMmap mbinfo 0 sumMmap

end JosVmm
