import JosVmm.Machine.Envs

/-!
# Machine — Programs

`load_icode` and `env_create` of `kern/env.c`: the segments of an ELF image, the stack page and
the debug sections are mapped with `region_alloc` and copied to their user addresses, with the
page tables of the new environment in force.  `find_debug_sections` of `kern/elf_rw.c` finds the
debug sections again.

An image is the bytes from `binary` on, at 64-bit offsets.
-/

namespace JosVmm

/-! ### Images -/

abbrev Image := Word → BitVec 8

namespace Image

/-- `n` bytes from `off` on. -/
def bytes (img : Image) (off : Word) (n : Nat) : List (BitVec 8) :=
  (List.range n).map fun i => img (off + BitVec.ofNat 64 i)

/-- The little-endian value of `n` bytes at `off`. -/
def value (img : Image) (off : Word) (n : Nat) : Nat :=
  (img.bytes off n).foldr (fun b v => b.toNat + 256 * v) 0

def half (img : Image) (off : Word) : BitVec 16 := BitVec.ofNat 16 (img.value off 2)
def dword (img : Image) (off : Word) : BitVec 32 := BitVec.ofNat 32 (img.value off 4)
def qword (img : Image) (off : Word) : Word := BitVec.ofNat 64 (img.value off 8)

/-- `!strcmp` of the name at `off` with `s`. -/
def nameIs (img : Image) (off : Word) (s : String) : Bool :=
  img.bytes off (s.length + 1) = s.toList.map (fun c => BitVec.ofNat 8 c.toNat) ++ [0#8]

end Image

/-- The fields of a `struct Proghdr` that are read. -/
structure Proghdr where
  pType : BitVec 32
  pOffset : Word
  pVa : Word
  pPa : Word
  pFilesz : Word
  pMemsz : Word
  deriving DecidableEq

/-- The fields of a `struct Secthdr` that are read. -/
structure Secthdr where
  shName : BitVec 32
  shAddr : Word
  shOffset : Word
  shSize : Word
  deriving DecidableEq

namespace Image

/-- The `struct Proghdr` at `off`. -/
def proghdr (img : Image) (off : Word) : Proghdr where
  pType := img.dword off
  pOffset := img.qword (off + 8#64)
  pVa := img.qword (off + 16#64)
  pPa := img.qword (off + 24#64)
  pFilesz := img.qword (off + 32#64)
  pMemsz := img.qword (off + 40#64)

/-- The `struct Secthdr` at `off`. -/
def secthdr (img : Image) (off : Word) : Secthdr where
  shName := img.dword off
  shAddr := img.qword (off + 16#64)
  shOffset := img.qword (off + 24#64)
  shSize := img.qword (off + 32#64)

def magic (img : Image) : BitVec 32 := img.dword 0#64
def entry (img : Image) : Word := img.qword 24#64

/-- The program headers, from `e_phoff` on. -/
def proghdrs (img : Image) : List Proghdr :=
  (List.range (img.half 56#64).toNat).map fun i =>
    img.proghdr (img.qword 32#64 + BitVec.ofNat 64 (56 * i))

/-- The section header `i`, from `e_shoff` on. -/
def secthdrAt (img : Image) (i : Nat) : Secthdr :=
  img.secthdr (img.qword 40#64 + BitVec.ofNat 64 (64 * i))

def sections (img : Image) : List Secthdr :=
  (List.range (img.half 60#64).toNat).map img.secthdrAt

/-- Where the name of a section is; `e_shstrndx` is at offset 62. -/
def nameOf (img : Image) (sh : Secthdr) : Word :=
  (img.secthdrAt (img.half 62#64).toNat).shOffset + sh.shName.setWidth 64

/-- The sections that `load_icode` copies. -/
def isDebug (img : Image) (sh : Secthdr) : Bool :=
  [".debug_info", ".debug_abbrev", ".debug_line", ".eh_frame", ".debug_str"].any
    (img.nameIs (img.nameOf sh))

end Image

/-! ### User memory -/

/-- One byte of physical memory, at the byte address `a`. -/
def storeByte (a : Nat) (b : BitVec 8) : Pm Unit := do
  let w ← load (a / 8)
  store (a / 8) ((w &&& ~~~(0xFF#64 <<< (8 * (a % 8)))) ||| (b.setWidth 64 <<< (8 * (a % 8))))

/-- A store through the page tables in force; one that is not mapped, or read-only, faults. -/
def storeUser (pml4e : Option Ptr) (va : Word) (b : BitVec 8) : Pm Unit := do
  match ← pml4eWalk pml4e va false with
  | none => throw .pageFault
  | some pte =>
    let e ← load pte
    if e &&& pteP = 0 ∨ e &&& pteW = 0 then
      throw .pageFault
    else
      storeByte ((pteAddr e).toNat + (pgoff va).toNat) b

/-- `memcpy` and `memset` to user memory: the bytes `l`, from `va` on. -/
def writeUser (pml4e : Option Ptr) : List (BitVec 8) → Word → Pm Unit
  | [], _ => pure ()
  | b :: l, va => do
    storeUser pml4e va b
    writeUser pml4e l (va + 1#64)

/-! ### Loading -/

/-- The loop of `region_alloc`, from `va` on.  There are `2^52` pages of addresses and fewer of
memory, so `2^53` rounds are more than it makes. -/
def regionAllocFrom (pml4e : Option Ptr) (endva : Word) : Nat → Word → Pm Unit
  | 0, _ => throw .noMemory
  | n + 1, va =>
    if va < endva then do
      match ← pageAlloc false with
      | none => throw .noMemory
      | some pp =>
        match ← pageInsert pml4e (some pp) va 7#32 with
        | .error _ => throw .noMemory
        | .ok () => regionAllocFrom pml4e endva n (roundDownPg (va + 4096#64))
    else
      pure ()

/-- `region_alloc`. -/
def regionAlloc (pml4e : Option Ptr) (va len : Word) : Pm Unit :=
  regionAllocFrom pml4e (va + len) (2 ^ 53) va

/-- One segment of `load_icode`. -/
def loadSegment (pml4e : Option Ptr) (img : Image) (ph : Proghdr) : Pm Unit := do
  -- `ELF_PROG_LOAD`
  if ph.pType = 1#32 then
    regionAlloc pml4e ph.pVa ph.pMemsz
    writeUser pml4e (img.bytes ph.pOffset ph.pFilesz.toNat) ph.pVa
    if ph.pFilesz < ph.pMemsz then
      writeUser pml4e (List.replicate (ph.pMemsz - ph.pFilesz).toNat 0#8) (ph.pVa + ph.pFilesz)

/-- `USTACKTOP`. -/
def ustacktop : Word := 0xef7fe000#64

/-- `USTABDATA`. -/
def ustabdata : Word := 0x200000#64

/-- One section of `load_icode`; the result is the next `debug_address`. -/
def loadDebug (pml4e : Option Ptr) (img : Image) (debugAddress : Word) (sh : Secthdr) :
    Pm Word := do
  if img.isDebug sh then
    regionAlloc pml4e debugAddress sh.shSize
    writeUser pml4e (img.bytes sh.shOffset sh.shSize.toNat) debugAddress
    return debugAddress + sh.shSize
  else
    return debugAddress

/-- What `load_icode` does to memory. -/
def loadImage (pml4e : Option Ptr) (img : Image) : Pm Unit := do
  let _ ← paddr pml4e
  img.proghdrs.forM (loadSegment pml4e img)
  regionAlloc pml4e (ustacktop - 4096#64) 4096#64
  let _ ← img.sections.foldlM (loadDebug pml4e img) ustabdata

/-- `load_icode`. -/
def loadIcode (e : EnvIx) (img : Image) : Km Unit := do
  -- `ELF_MAGIC`
  if img.magic = 0x464C457F#32 then
    let v ← getEnv e
    onPmap (loadImage v.envPml4e img)
    modifyEnv e fun v => { v with envTf.tfRip := img.entry, envTf.tfRsp := ustacktop }
  else
    throw .invalidBinary

/-- `env_create`. -/
def envCreate (img : Image) (type : EnvType) : Km Unit := do
  match ← envAlloc 0#32 with
  | .error _ => throw .noMemory
  | .ok e =>
    loadIcode e img
    modifyEnv e fun v => { v with
      envType := type
      -- `FL_IOPL_3`
      envTf.tfEflags := if type = .fs then v.envTf.tfEflags ||| 0x3000#64 else v.envTf.tfEflags }

/-! ### Finding the debug sections -/

/-- The index of `section_info`. -/
inductive DebugSect where
  | debugInfo | debugAbbrev | debugFrame | debugLine | debugStr
  deriving DecidableEq, Repr

def DebugSect.dsName : DebugSect → String
  | debugInfo => ".debug_info"
  | debugAbbrev => ".debug_abbrev"
  | debugFrame => ".eh_frame"
  | debugLine => ".debug_line"
  | debugStr => ".debug_str"

/-- The fields of a `Dwarf_Section` that `find_debug_sections` sets. -/
structure DwarfSection where
  dsData : Word
  dsAddr : Word
  dsSize : Word
  deriving DecidableEq

abbrev SectionInfo := DebugSect → DwarfSection

/-- One round of `find_debug_sections`, on `debug_address` and `section_info`. -/
def findDebugSection (img : Image) (st : Word × SectionInfo) (sh : Secthdr) : Word × SectionInfo :=
  let name := img.nameOf sh
  let found (d : DebugSect) (addr : Word) : Word × SectionInfo :=
    (st.1 + sh.shSize, Function.update st.2 d ⟨addr, addr, sh.shSize⟩)
  if img.nameIs name ".debug_info" then found .debugInfo st.1
  else if img.nameIs name ".debug_abbrev" then found .debugAbbrev st.1
  else if img.nameIs name ".debug_line" then found .debugLine st.1
  else if img.nameIs name ".eh_frame" then found .debugFrame sh.shAddr
  else if img.nameIs name ".debug_str" then found .debugStr st.1
  else st

/-- `find_debug_sections`. -/
def findDebugSections (img : Image) (info : SectionInfo) : SectionInfo :=
  (img.sections.foldl (findDebugSection img) (ustabdata, info)).2

end JosVmm
