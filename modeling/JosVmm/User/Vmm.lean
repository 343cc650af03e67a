import JosVmm.Machine.Icode
import JosVmm.Support.Paged

/-!
# User programs — the monitor

`user/vmm.c`: `map_in_guest` copies a part of a file page by page to a page at `UTEMP` and maps that
page into the guest, and `copy_guest_kern_gpa` does so for the segments of the guest's kernel.  The
system calls and the library are parameters (`VmmCalls`); what their documentation says of them is
`VmmCalls.Documented`, with the world `Vmm` that they act on.
-/

namespace JosVmm
open Support.Paged Function

/-! ### The program -/

/-- What stops the monitor: a panic, or nothing (a loop that is still running). -/
inductive VmmStop where
  | panic
  | running
  deriving DecidableEq

abbrev Vm (σ : Type) := StateT σ (Except VmmStop)

/-- The calls that the monitor makes, in a world with the states `σ`.  Environment 0 is the monitor,
and `srcenv` of `sys_ept_map` is too. -/
structure VmmCalls (σ : Type) where
  sysPageAlloc : (va : Word) → (perm : BitVec 32) → Vm σ Int
  sysPageUnmap : (va : Word) → Vm σ Int
  sysEptMap : (srcva : Word) → (guest : EnvId) → (guestPa : Word) → (perm : BitVec 32) → Vm σ Int
  seek : (fd : Int) → (offset : BitVec 32) → Vm σ Int
  readn : (fd : Int) → (buf : Word) → (n : Word) → Vm σ Int
  openFile : (fname : String) → Vm σ Int
  close : (fd : Int) → Vm σ Int
  /-- The memory of the monitor. -/
  memory : σ → Word → BitVec 8
  /-- Where the array `data` of `copy_guest_kern_gpa` is. -/
  data : Word

/-- `MIN`, of two `size_t`. -/
def minWord (a b : Word) : Word := if a ≤ b then a else b

/-- `UTEMP`. -/
def utempVa : Word := 0x400000#64

/-- `E_NO_SYS`, `E_NOT_FOUND` and `E_NOT_EXEC`. -/
def eNoSys : Int := 7
def eNotFound : Int := 12
def eNotExec : Int := 15

section program

variable {σ : Type} (c : VmmCalls σ)

/-- The first loop of `map_in_guest`.  It ends with `i`, or the function returns. -/
def mapFile (guest : EnvId) (gpa : Word) (fd : Int) (filesz : Word) (fileoffset : BitVec 32) :
    Nat → BitVec 32 → Vm σ (Except Int (BitVec 32))
  | 0, _ => throw .running
  | n + 1, i =>
    -- `i` is an `int`, and is extended for the comparison
    if i.signExtend 64 < filesz then do
      -- `PTE_P | PTE_U | PTE_W`
      let r ← c.sysPageAlloc utempVa 7#32
      if r < 0 then return .error r
      let r ← c.seek fd (fileoffset + i)
      if r < 0 then return .error r
      let r ← c.readn fd utempVa (minWord 4096#64 (filesz - i.signExtend 64))
      if r < 0 then return .error r
      -- `__EPTE_FULL`
      let r ← c.sysEptMap utempVa guest (gpa + i.signExtend 64) 7#32
      if r < 0 then
        throw .panic
      else do
        let _ ← c.sysPageUnmap utempVa
        mapFile guest gpa fd filesz fileoffset n (i + 4096#32)
    else
      return .ok i

/-- The second loop of `map_in_guest`. -/
def mapZeros (guest : EnvId) (gpa : Word) (memsz : Word) :
    Nat → BitVec 32 → Vm σ (Except Int (BitVec 32))
  | 0, _ => throw .running
  | n + 1, i =>
    if i.signExtend 64 < memsz then do
      let r ← c.sysPageAlloc utempVa 7#32
      if r < 0 then return .error r
      let r ← c.sysEptMap utempVa guest (gpa + i.signExtend 64) 7#32
      if r < 0 then
        throw .panic
      else do
        let _ ← c.sysPageUnmap utempVa
        mapZeros guest gpa memsz n (i + 4096#32)
    else
      return .ok i

/-- `map_in_guest`, with up to `n` rounds of each loop.  The value of `ROUNDDOWN(gpa, PGSIZE)` is
not used. -/
def mapInGuest (n : Nat) (guest : EnvId) (gpa memsz : Word) (fd : Int) (filesz : Word)
    (fileoffset : BitVec 32) : Vm σ Int := do
  match ← mapFile c guest gpa fd filesz fileoffset n 0#32 with
  | .error r => return r
  | .ok i =>
    match ← mapZeros c guest gpa memsz n i with
    | .error r => return r
    | .ok _ => return -eNoSys

/-- The first part of `copy_guest_kern_gpa`: the file is opened, and its first block is read to
`data`.  What comes after the block on the stack is part of what is looked at. -/
def readHeader (fname : String) : Vm σ (Except Int (Int × Image)) := do
  let fd ← c.openFile fname
  if fd < 0 then return .error (-eNotFound)
  let m ← c.readn fd c.data 512#64
  if m ≠ 512 then
    let _ ← c.close fd
    return .error (-eNotFound)
  let s ← get
  let data : Image := fun off => c.memory s (c.data + off)
  if data.magic ≠ 0x464C457F#32 then
    let _ ← c.close fd
    return .error (-eNotExec)
  return .ok (fd, data)

/-- The loop of `copy_guest_kern_gpa`; `r` is what the last call has returned. -/
def copySegments (n : Nat) (guest : EnvId) (fd : Int) : List Proghdr → Int → Vm σ Int
  | [], r => do
    let _ ← c.close fd
    return r
  | ph :: l, r =>
    -- `ELF_PROG_LOAD`
    if ph.pType = 1#32 then do
      let r ← mapInGuest c n guest ph.pPa ph.pMemsz fd ph.pFilesz (ph.pOffset.setWidth 32)
      if r < 0 then
        let _ ← c.close fd
        return -eNoSys
      else
        copySegments n guest fd l r
    else
      copySegments n guest fd l r

/-- `copy_guest_kern_gpa`. -/
def copyGuestKernGpa (n : Nat) (guest : EnvId) (fname : String) : Vm σ Int := do
  match ← readHeader c fname with
  | .error r => return r
  | .ok (fd, data) => copySegments c n guest fd data.proghdrs 0

end program

/-! ### The documented calls -/

/-- What stays as it is while the guest is loaded: the guest with the size of its memory, and the
file that is open. -/
structure VmmSetup where
  guestId : EnvId
  physSz : Word
  fname : String
  fd : Int
  file : Image
  fileSize : Nat

/-- The world of the monitor, as far as the calls are documented: its pages and those of the guest,
with their contents. -/
structure Vmm extends VmmSetup where
  pages : Nat → Nat → BitVec 8
  /-- The page of the monitor at an address. -/
  space : Word → Option Nat
  /-- What `sys_page_alloc` takes pages from. -/
  free : List Nat
  guest : Nat → Option Nat
  /-- `fd_offset`. -/
  offset : BitVec 32

namespace Vmm

def setPage (v : Vmm) (p : Nat) (f : Nat → BitVec 8) : Vmm :=
  { v with pages := update v.pages p f }

def setSpace (v : Vmm) (va : Word) (o : Option Nat) : Vmm :=
  { v with space := update v.space va o }

def setGuest (v : Vmm) (g p : Nat) : Vmm := { v with guest := update v.guest g (some p) }

def setOffset (v : Vmm) (offset : BitVec 32) : Vmm := { v with offset := offset }

/-- `sys_page_alloc(0, va, perm)`. -/
def sysPageAlloc (v : Vmm) (va : Word) (perm : BitVec 32) : Int × Vmm :=
  -- `PTE_U | PTE_P` and `PTE_SYSCALL`
  if va < utop ∧ pgoff va = 0 ∧ perm &&& 5#32 = 5#32 ∧ perm &&& ~~~0xE07#32 = 0#32 then
    match v.free with
    | [] => (-4, v)
    | p :: l => (0, { (v.setPage p fun _ => 0#8).setSpace va (some p) with free := l })
  else
    (-3, v)

/-- `sys_page_unmap(0, va)`. -/
def sysPageUnmap (v : Vmm) (va : Word) : Int × Vmm :=
  if va < utop ∧ pgoff va = 0 then (0, v.setSpace va none) else (-3, v)

/-- `sys_ept_map`, of a page of the monitor. -/
def sysEptMap (v : Vmm) (srcva : Word) (guest : EnvId) (guestPa : Word) (perm : BitVec 32) :
    Int × Vmm :=
  if guest ≠ v.guestId then (-2, v)
  else if srcva < utop ∧ pgoff srcva = 0 ∧ pgoff guestPa = 0 ∧ guestPa < v.physSz ∧ perm ≠ 0 then
    match v.space srcva with
    | none => (-3, v)
    | some p => (0, v.setGuest (guestPa.toNat / 4096) p)
  else
    (-3, v)

def seek (v : Vmm) (fd : Int) (offset : BitVec 32) : Int × Vmm :=
  if fd = v.fd then (0, v.setOffset offset) else (-3, v)

/-- One byte, if there is a page for it. -/
def setByte (v : Vmm) (va : Word) (b : BitVec 8) : Vmm :=
  match v.space (roundDownPg va) with
  | none => v
  | some p => v.setPage p (update (v.pages p) (pgoff va).toNat b)

def write (v : Vmm) : List (BitVec 8) → Word → Vmm
  | [], _ => v
  | b :: l, va => (v.setByte va b).write l (va + 1#64)

/-- The bytes that the next `readn` of up to `n` bytes gets. -/
def nextBytes (v : Vmm) (n : Nat) : List (BitVec 8) :=
  v.file.bytes (v.offset.setWidth 64) (min n (v.fileSize - v.offset.toNat))

def readn (v : Vmm) (fd : Int) (buf n : Word) : Int × Vmm :=
  if fd = v.fd then
    let l := v.nextBytes n.toNat
    (l.length, (v.write l buf).setOffset (v.offset + BitVec.ofNat 32 l.length))
  else
    (-3, v)

/-- What the guest finds at the physical address `a`. -/
def guestMem (v : Vmm) : Mem (BitVec 8) := fun a =>
  (v.guest (a / 4096)).map fun p => v.pages p (a % 4096)

/-- What the monitor finds at `va`, if a page is there. -/
def memory (v : Vmm) (va : Word) : BitVec 8 :=
  match v.space (roundDownPg va) with
  | none => 0#8
  | some p => v.pages p (pgoff va).toNat

end Vmm

/-- The call `x` does to what is seen of `s` what `f` does. -/
def Acts {σ : Type} (view : σ → Vmm) (f : Vmm → Int × Vmm) (x : Vm σ Int) : Prop :=
  ∀ s, ∃ s', x.run s = .ok ((f (view s)).1, s') ∧ view s' = (f (view s)).2

/-- **The calls do what their documentation says**, in the world that is seen in each state. -/
structure VmmCalls.Documented {σ : Type} (c : VmmCalls σ) (view : σ → Vmm) : Prop where
  sysPageAlloc : ∀ va perm, Acts view (·.sysPageAlloc va perm) (c.sysPageAlloc va perm)
  sysPageUnmap : ∀ va, Acts view (·.sysPageUnmap va) (c.sysPageUnmap va)
  sysEptMap : ∀ srcva guest guestPa perm,
    Acts view (·.sysEptMap srcva guest guestPa perm) (c.sysEptMap srcva guest guestPa perm)
  seek : ∀ fd offset, Acts view (·.seek fd offset) (c.seek fd offset)
  readn : ∀ fd buf n, Acts view (·.readn fd buf n) (c.readn fd buf n)

/-- The world as its own state; `data` is on a page of the stack. -/
def vmmCalls : VmmCalls Vmm where
  sysPageAlloc va perm v := .ok (v.sysPageAlloc va perm)
  sysPageUnmap va v := .ok (v.sysPageUnmap va)
  sysEptMap srcva guest guestPa perm v := .ok (v.sysEptMap srcva guest guestPa perm)
  seek fd offset v := .ok (v.seek fd offset)
  readn fd buf n v := .ok (v.readn fd buf n)
  openFile fname v := .ok (if fname = v.fname then v.fd else -eNotFound, v.setOffset 0#32)
  close _ v := .ok (0, v)
  memory := Vmm.memory
  data := 0xef7fd800#64

theorem vmmCalls_documented : vmmCalls.Documented id where
  sysPageAlloc _ _ _ := ⟨_, rfl, rfl⟩
  sysPageUnmap _ _ := ⟨_, rfl, rfl⟩
  sysEptMap _ _ _ _ _ := ⟨_, rfl, rfl⟩
  seek _ _ _ := ⟨_, rfl, rfl⟩
  readn _ _ _ _ := ⟨_, rfl, rfl⟩

end JosVmm
