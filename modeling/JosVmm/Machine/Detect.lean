import JosVmm.Machine.Multiboot

/-!
# Machine — the size of memory

`i386_detect_memory` of `kern/pmap.c`: the kernel takes the sizes of base and extended memory from
the map that the boot loader passes, or from the registers of the clock if there is none.  How a
register is read depends on where the kernel runs, so it is a parameter here.
-/

namespace JosVmm

/-- `MB_FLAG_MMAP`. -/
def mbFlagMmap : BitVec 32 := 0x40#32

/-- `NVRAM_BASELO`, `NVRAM_EXTLO` and `NVRAM_EXTGT16LO`. -/
def nvramBaselo : BitVec 32 := 0x15#32
def nvramExtlo : BitVec 32 := 0x17#32
def nvramExtgt16lo : BitVec 32 := 0x34#32

/-- The two variables that are set. -/
structure MemSize where
  npagesBasemem : Word
  npages : Word
  deriving DecidableEq, Repr

inductive DetectFault where
  /-- An access beyond `mmap_list`. -/
  | mmap (f : BootFault)
  /-- `assert(basemem)` -/
  | basemem
  deriving DecidableEq, Repr

namespace Detect

/-- `upages_max`, from the room between `UPAGES` and `ULIM`. -/
def upagesMax : Word := (0x8003c00000#64 - 0x8000a00000#64) / 16#64

/-- `kern_mem_max`, from the room between `KERNBASE` and `UVPT`. -/
def kernMemMax : Word := (0x10000000000#64 - 0x8004000000#64) / 4096#64

def maxNpages : Word := if upagesMax < kernMemMax then upagesMax else kernMemMax

variable {m : Type → Type} [Monad m] (mc146818Read : BitVec 32 → m (BitVec 32))

/-- `nvram_read(r)`. -/
def nvramRead (r : BitVec 32) : m (BitVec 32) := do
  let lo ← mc146818Read r
  let hi ← mc146818Read (r + 1#32)
  return lo ||| (hi <<< 8)

/-- The two totals that `multiboot_read` adds up, from zero; `list` is what `mmap_list` holds before
it is written. -/
def multibootTotals (mem : Bytes) (list : Nat → Nat) (mbinfo : Nat) :
    Except DetectFault (Word × Word) :=
  match (multibootRead mbinfo).run ⟨mem, 0, list, 0, 0⟩ with
  | .ok (_, b) => .ok (b.basemem, b.extmem)
  | .error f => .error (.mmap f)

/-- The boot loader passes a map. -/
def HasMap (mem : Bytes) (mbinfo : Nat) : Prop :=
  mbinfo ≠ 0 ∧ load32 mem mbinfo &&& mbFlagMmap ≠ 0

instance (mem : Bytes) (mbinfo : Nat) : Decidable (HasMap mem mbinfo) :=
  inferInstanceAs (Decidable (_ ∧ _))

/-- `basemem` and `extmem` before the assertion. -/
def totals (mem : Bytes) (list : Nat → Nat) (mbinfo : Nat) :
    m (Except DetectFault (Word × Word)) := do
  if HasMap mem mbinfo then
    return multibootTotals mem list mbinfo
  else
    let basemem := ((← nvramRead mc146818Read nvramBaselo) * 1024#32).signExtend 64
    let extmem := ((← nvramRead mc146818Read nvramExtlo) * 1024#32).signExtend 64
    return .ok (basemem, extmem)

/-- `npages`, from the pages of extended memory. -/
def countPages (npagesBasemem npagesExtmem : Word) : Word :=
  let npages := if npagesExtmem ≠ 0 then 0x100000#64 / 4096#64 + npagesExtmem else npagesBasemem
  if maxNpages < npages then maxNpages - 1024#64 else npages

/-- `i386_detect_memory`. -/
def i386DetectMemory (mem : Bytes) (list : Nat → Nat) (mbinfo : Nat) :
    m (Except DetectFault MemSize) := do
  match ← totals mc146818Read mem list mbinfo with
  | .error f => return .error f
  | .ok (basemem, extmem) =>
    if basemem = 0 then
      return .error .basemem
    else
      let npagesBasemem := basemem / 4096#64
      if (← nvramRead mc146818Read nvramExtlo) = 0xffff#32 then
        -- extended memory above 16 megabytes, in blocks of 64 kilobytes
        let pextmem := ((← nvramRead mc146818Read nvramExtgt16lo) * 65536#32).signExtend 64
        let npagesExtmem := (0x1000000#64 + pextmem - 0x100000#64) / 4096#64
        return .ok ⟨npagesBasemem, countPages npagesBasemem npagesExtmem⟩
      else
        return .ok ⟨npagesBasemem, countPages npagesBasemem (extmem / 4096#64)⟩

end Detect

end JosVmm
