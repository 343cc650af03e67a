import JosVmm.User.GuestKernel

/-!
# User library — spawning a program

`lib/spawn.c`: `spawn` reads the first block of a program, makes a child, gives it a stack with the
arguments (`init_stack`) and maps the segments of the program into it (`map_segment`).

The system calls, the library and the stores of the environment are parameters (`SpawnCalls`); what
is documented of them is `SpawnCalls.Documented`, with the world `SpawnWorld` of the environment and
its child.  A header outside the block that was read is out of the bounds of an array; the program
stops there (`SpawnStop.outside`).
-/

namespace JosVmm

open Function

/-! ### The program -/

/-- What stops `spawn`: a panic, a page fault, an access outside an array, or nothing (a loop that is
still running). -/
inductive SpawnStop where
  | panic
  | fault
  | outside
  | running
  deriving DecidableEq

abbrev Sm (σ : Type) := StateT σ (Except SpawnStop)

/-- What `spawn` uses, in a world with the states `σ`.  The environment 0 is the one that runs. -/
structure SpawnCalls (σ : Type) where
  sysPageAlloc : (envid : EnvId) → (va : Word) → (perm : BitVec 32) → Sm σ Int
  sysPageMap : (srcenv : EnvId) → (srcva : Word) → (dstenv : EnvId) → (dstva : Word) →
    (perm : BitVec 32) → Sm σ Int
  sysPageUnmap : (envid : EnvId) → (va : Word) → Sm σ Int
  sysExofork : Sm σ Int
  sysEnvSetTrapframe : (child : EnvId) → (rip rsp : Word) → Sm σ Int
  sysEnvSetStatus : (child : EnvId) → Sm σ Int
  sysEnvDestroy : (child : EnvId) → Sm σ Int
  seek : (fd : Int) → (offset : BitVec 32) → Sm σ Int
  readn : (fd : Int) → (buf : Word) → (n : Word) → Sm σ Int
  openFile : (path : String) → Sm σ Int
  close : (fd : Int) → Sm σ Int
  /-- The bytes are stored to memory. -/
  store : (va : Word) → (bytes : List (BitVec 8)) → Sm σ Unit
  /-- The memory of the environment. -/
  memory : σ → Word → BitVec 8
  /-- Where the array `elf_buf` is. -/
  elfBuf : Word

/-- `USTACKTOP - PGSIZE`. -/
def ustackVa : Word := 0xef7fd000#64

/-- `UTEMP2USTACK(addr)`. -/
def utemp2ustack (addr : Word) : Word := addr + ustackVa - utempVa

/-- The bytes of a word in memory. -/
def wordBytes (w : Word) : List (BitVec 8) := (List.range 8).map fun i => (w >>> (8 * i)).setWidth 8

/-- `string_size`, after the loop that counts the arguments. -/
def stringSize (argv : List (List (BitVec 8))) : Word :=
  argv.foldl (fun size arg => size + (BitVec.ofNat 64 arg.length + 1#64)) 0#64

/-- `argc`, an `int`. -/
def argcOf (argv : List (List (BitVec 8))) : BitVec 32 := BitVec.ofNat 32 argv.length

/-- `string_store`, before the strings are copied. -/
def stringStore (argv : List (List (BitVec 8))) : Word := utempVa + 4096#64 - stringSize argv

/-- `argv_store`: `8 * (argc + 1)` is an `int`. -/
def argvStore (argv : List (List (BitVec 8))) : Word :=
  stringStore argv - stringStore argv % 8#64 - (8#32 * (argcOf argv + 1#32)).signExtend 64

section program

variable {σ : Type} (c : SpawnCalls σ)

/-- The loop of `init_stack` over the arguments, from the argument `i` on.  It ends with
`string_store`. -/
def storeArgs (argvStore : Word) (argc : BitVec 32) :
    List (List (BitVec 8)) → BitVec 32 → Word → Sm σ Word
  | [], _, stringStore => return stringStore
  | arg :: args, i, stringStore =>
    if i.slt argc then do
      c.store (argvStore + 8#64 * i.signExtend 64) (wordBytes (utemp2ustack stringStore))
      -- `strcpy`
      c.store stringStore (arg ++ [0#8])
      storeArgs argvStore argc args (i + 1#32) (stringStore + (BitVec.ofNat 64 arg.length + 1#64))
    else
      return stringStore

/-- What `init_stack` stores to the page at `UTEMP`. -/
def storeStack (argv : List (List (BitVec 8))) : Sm σ Unit := do
  let argc := argcOf argv
  let argvStore := argvStore argv
  let stringStore ← storeArgs c argvStore argc argv 0#32 (stringStore argv)
  c.store (argvStore + 8#64 * argc.signExtend 64) (wordBytes 0#64)
  if stringStore ≠ utempVa + 4096#64 then
    throw .panic
  else do
    c.store (argvStore - 8#64) (wordBytes (utemp2ustack argvStore))
    c.store (argvStore - 16#64) (wordBytes (argc.signExtend 64))

/-- `init_stack`: an error, or `*init_rsp`.  The strings `argv` have no terminator here. -/
def initStack (child : EnvId) (argv : List (List (BitVec 8))) : Sm σ (Except Int Word) :=
  if argvStore argv - 16#64 < utempVa then
    -- `-E_NO_MEM`
    return .error (-4)
  else do
    -- `PTE_P | PTE_U | PTE_W`
    let r ← c.sysPageAlloc 0#32 utempVa 7#32
    if r < 0 then
      return .error r
    else do
      storeStack c argv
      let r ← c.sysPageMap 0#32 utempVa child ustackVa 7#32
      if r < 0 then
        let _ ← c.sysPageUnmap 0#32 utempVa
        return .error r
      else do
        let r ← c.sysPageUnmap 0#32 utempVa
        if r < 0 then
          let _ ← c.sysPageUnmap 0#32 utempVa
          return .error r
        else
          return .ok (utemp2ustack (argvStore argv - 16#64))

/-- A page of `map_segment` that is read from the file: `filesz` bytes from `fileoffset` on, if they
are not more than a page. -/
def mapFilePage (child : EnvId) (va : Word) (fd : Int) (filesz : Word)
    (fileoffset perm : BitVec 32) : Sm σ Int := do
  let r ← c.sysPageAlloc 0#32 utempVa 7#32
  if r < 0 then
    return r
  else do
    let r ← c.seek fd fileoffset
    if r < 0 then
      return r
    else do
      let r ← c.readn fd utempVa (minWord 4096#64 filesz)
      if r < 0 then
        return r
      else do
        let r ← c.sysPageMap 0#32 utempVa child va perm
        if r < 0 then
          throw .panic
        else do
          let _ ← c.sysPageUnmap 0#32 utempVa
          return 0

/-- The page of `map_segment` at `va + i`: a blank one, or one from the file.  `i` is an `int`, and is
extended for the comparison. -/
def segmentPage (child : EnvId) (va : Word) (fd : Int) (filesz : Word) (fileoffset perm i : BitVec 32) :
    Sm σ Int :=
  if filesz ≤ i.signExtend 64 then
    c.sysPageAlloc child (va + i.signExtend 64) perm
  else
    mapFilePage c child (va + i.signExtend 64) fd (filesz - i.signExtend 64) (fileoffset + i) perm

/-- The loop of `map_segment`, for at most as many rounds as the first argument after `perm` says. -/
def mapPages (child : EnvId) (va memsz : Word) (fd : Int) (filesz : Word)
    (fileoffset perm : BitVec 32) : Nat → BitVec 32 → Sm σ Int
  | 0, _ => throw .running
  | n + 1, i =>
    if i.signExtend 64 < memsz then do
      let r ← segmentPage c child va fd filesz fileoffset perm i
      if r < 0 then
        return r
      else
        mapPages child va memsz fd filesz fileoffset perm n (i + 4096#32)
    else
      return 0

/-- `map_segment`, with up to `n` rounds of its loop.  The segment is extended to the start of its
first page. -/
def mapSegment (n : Nat) (child : EnvId) (va memsz : Word) (fd : Int) (filesz : Word)
    (fileoffset perm : BitVec 32) : Sm σ Int :=
  let i := pgoff va
  mapPages c child (va - i) (memsz + i) fd (filesz + i) (fileoffset - i.setWidth 32) perm n 0#32

/-- The header that `ph` points to, in the array of 512 bytes at `buf`. -/
def proghdrIn (buf : Word) (elf : Image) (ph : Word) : Sm σ Proghdr :=
  if (ph - buf).toNat + 56 ≤ 512 then return elf.proghdr (ph - buf) else throw .outside

/-- The loop of `spawn` over the headers, from `ph` on. -/
def spawnSegments (n : Nat) (child : EnvId) (fd : Int) (elf : Image) : Nat → Word → Sm σ Int
  | 0, _ => return 0
  | k + 1, ph => do
    let h ← proghdrIn c.elfBuf elf ph
    -- `ELF_PROG_LOAD`
    if h.pType ≠ 1#32 then
      spawnSegments n child fd elf k (ph + 56#64)
    else do
      -- `PTE_P | PTE_U`, and `PTE_W` for `ELF_PROG_FLAG_WRITE` in `p_flags`
      let perm := if elf.dword (ph - c.elfBuf + 4#64) &&& 2#32 ≠ 0#32 then 7#32 else 5#32
      let r ← mapSegment c n child h.pVa h.pMemsz fd h.pFilesz (h.pOffset.setWidth 32) perm
      if r < 0 then
        return r
      else
        spawnSegments n child fd elf k (ph + 56#64)

/-- `spawn`; `copy_shared_pages` does nothing. -/
def spawn (n : Nat) (prog : String) (argv : List (List (BitVec 8))) : Sm σ Int := do
  let fd ← c.openFile prog
  if fd < 0 then
    return fd
  else do
    let m ← c.readn fd c.elfBuf 512#64
    let s ← get
    let elf : Image := fun off => c.memory s (c.elfBuf + off)
    if m ≠ 512 ∨ elf.magic ≠ 0x464C457F#32 then
      let _ ← c.close fd
      return -eNotExec
    else do
      let r ← c.sysExofork
      if r < 0 then
        return r
      else do
        let child := BitVec.ofInt 32 r
        match ← initStack c child argv with
        | .error r => return r
        | .ok rsp => do
          let r ← spawnSegments c n child fd elf (elf.half 56#64).toNat
            (c.elfBuf + elf.qword 32#64)
          if r < 0 then
            let _ ← c.sysEnvDestroy child
            let _ ← c.close fd
            return r
          else do
            let _ ← c.close fd
            let r ← c.sysEnvSetTrapframe child elf.entry rsp
            if r < 0 then
              throw .panic
            else do
              let r ← c.sysEnvSetStatus child
              if r < 0 then throw .panic else return child.toInt

end program

/-! ### The documented calls -/

/-- What stays as it is: the child, and the file that is open. -/
structure SpawnSetup where
  childId : EnvId
  childId_ne : childId ≠ 0#32
  fd : Int
  file : Image
  fileSize : Nat
  /-- The size of a file is an `off_t`. -/
  fileSize_lt : fileSize < 2 ^ 31

/-- The environment that spawns, and its child. -/
inductive Kin where
  | self
  | child
  deriving DecidableEq

/-- The world of the two, as far as the calls are documented: the pages, and what each of them maps
at the page numbers of its addresses, with which permissions. -/
structure SpawnWorld extends SpawnSetup where
  pages : Nat → Nat → BitVec 8
  space : Kin → Nat → Option (Nat × BitVec 32)
  /-- What `sys_page_alloc` takes pages from. -/
  free : List Nat
  /-- `fd_offset`. -/
  offset : BitVec 32

namespace SpawnWorld

/-- The environment with this id, if `sys_page_alloc` and the others may change it. -/
def kin (v : SpawnWorld) (envid : EnvId) : Option Kin :=
  if envid = 0#32 then some .self else if envid = v.childId then some .child else none

/-- `PTE_U | PTE_P`, and nothing outside `PTE_SYSCALL`. -/
def PermOk (perm : BitVec 32) : Prop := perm &&& 5#32 = 5#32 ∧ perm &&& ~~~0xE07#32 = 0#32

instance (perm : BitVec 32) : Decidable (PermOk perm) := inferInstanceAs (Decidable (_ ∧ _))

def setPage (v : SpawnWorld) (p : Nat) (f : Nat → BitVec 8) : SpawnWorld :=
  { v with pages := update v.pages p f }

def setSpace (v : SpawnWorld) (e : Kin) (q : Nat) (o : Option (Nat × BitVec 32)) : SpawnWorld :=
  { v with space := update v.space e (update (v.space e) q o) }

def setOffset (v : SpawnWorld) (offset : BitVec 32) : SpawnWorld := { v with offset := offset }

/-- The page `p`, which is the first of the free ones, is mapped. -/
def newPage (v : SpawnWorld) (e : Kin) (q p : Nat) (l : List Nat) (perm : BitVec 32) : SpawnWorld :=
  { (v.setPage p fun _ => 0#8).setSpace e q (some (p, perm)) with free := l }

def sysPageAlloc (v : SpawnWorld) (envid : EnvId) (va : Word) (perm : BitVec 32) :
    Int × SpawnWorld :=
  match v.kin envid with
  | none => (-2, v)
  | some e =>
    if va < utop ∧ pgoff va = 0#64 ∧ PermOk perm then
      match v.free with
      | [] => (-4, v)
      | p :: l => (0, v.newPage e (va.toNat / 4096) p l perm)
    else
      (-3, v)

def sysPageMap (v : SpawnWorld) (srcenv : EnvId) (srcva : Word) (dstenv : EnvId) (dstva : Word)
    (perm : BitVec 32) : Int × SpawnWorld :=
  match v.kin srcenv, v.kin dstenv with
  | some e, some e' =>
    if srcva < utop ∧ pgoff srcva = 0#64 ∧ dstva < utop ∧ pgoff dstva = 0#64 ∧ PermOk perm then
      match v.space e (srcva.toNat / 4096) with
      | none => (-3, v)
      | some (p, has) =>
        -- a read-only page is not made writable
        if perm &&& 2#32 ≠ 0#32 ∧ has &&& 2#32 = 0#32 then (-3, v)
        else (0, v.setSpace e' (dstva.toNat / 4096) (some (p, perm)))
    else
      (-3, v)
  | _, _ => (-2, v)

def sysPageUnmap (v : SpawnWorld) (envid : EnvId) (va : Word) : Int × SpawnWorld :=
  match v.kin envid with
  | none => (-2, v)
  | some e =>
    if va < utop ∧ pgoff va = 0#64 then (0, v.setSpace e (va.toNat / 4096) none) else (-3, v)

def seek (v : SpawnWorld) (fd : Int) (offset : BitVec 32) : Int × SpawnWorld :=
  if fd = v.fd then (0, v.setOffset offset) else (-3, v)

/-- A byte is stored, if there is a writable page for it. -/
def storeByte (v : SpawnWorld) (va : Word) (b : BitVec 8) : Option SpawnWorld :=
  match v.space .self (va.toNat / 4096) with
  | none => none
  | some (p, perm) =>
    if perm &&& 2#32 = 0#32 then none
    else some (v.setPage p (update (v.pages p) (va.toNat % 4096) b))

def store (v : SpawnWorld) : List (BitVec 8) → Word → Option SpawnWorld
  | [], _ => some v
  | b :: l, va => (v.storeByte va b).bind fun v' => v'.store l (va + 1#64)

/-- The bytes that the next `readn` of up to `n` bytes gets. -/
def nextBytes (v : SpawnWorld) (n : Nat) : List (BitVec 8) :=
  v.file.bytes (v.offset.setWidth 64) (min n (v.fileSize - v.offset.toNat))

def readn (v : SpawnWorld) (fd : Int) (buf n : Word) : Int × SpawnWorld :=
  if fd = v.fd then
    let l := v.nextBytes n.toNat
    match v.store l buf with
    | none => (-6, v)
    | some v' => (l.length, v'.setOffset (v.offset + BitVec.ofNat 32 l.length))
  else
    (-3, v)

/-- What the child finds at the address `a`, if a page is there. -/
def childByte (v : SpawnWorld) (a : Nat) : Option (BitVec 8) :=
  (v.space .child (a / 4096)).map fun m => v.pages m.1 (a % 4096)

/-- What the environment finds at `va`. -/
def memory (v : SpawnWorld) (va : Word) : BitVec 8 :=
  match v.space .self (va.toNat / 4096) with
  | none => 0#8
  | some (p, _) => v.pages p (va.toNat % 4096)

end SpawnWorld

/-- The call `x` does to what is seen of `s` what `f` does; or, if there is no memory for page tables
(`short`), it returns `-E_NO_MEM` and nothing is changed. -/
def Does {σ : Type} (short : Prop) (view : σ → SpawnWorld) (f : SpawnWorld → Int × SpawnWorld)
    (x : Sm σ Int) : Prop :=
  ∀ s, ∃ s', x.run s = .ok ((f (view s)).1, s') ∧ view s' = (f (view s)).2 ∨
    short ∧ x.run s = .ok (-4, s') ∧ view s' = view s

/-- The bytes are stored, or there is a page fault. -/
def Stores {σ : Type} (view : σ → SpawnWorld) (va : Word) (l : List (BitVec 8)) (x : Sm σ Unit) :
    Prop :=
  ∀ s, match (view s).store l va with
    | none => x.run s = .error .fault
    | some v' => ∃ s', x.run s = .ok ((), s') ∧ view s' = v'

/-- **The calls do what their documentation says**, in the world that is seen in each state. -/
structure SpawnCalls.Documented {σ : Type} (c : SpawnCalls σ) (short : Prop)
    (view : σ → SpawnWorld) : Prop where
  sysPageAlloc : ∀ envid va perm,
    Does short view (·.sysPageAlloc envid va perm) (c.sysPageAlloc envid va perm)
  sysPageMap : ∀ srcenv srcva dstenv dstva perm,
    Does short view (·.sysPageMap srcenv srcva dstenv dstva perm)
      (c.sysPageMap srcenv srcva dstenv dstva perm)
  sysPageUnmap : ∀ envid va, Does False view (·.sysPageUnmap envid va) (c.sysPageUnmap envid va)
  seek : ∀ fd offset, Does False view (·.seek fd offset) (c.seek fd offset)
  readn : ∀ fd buf n, Does False view (·.readn fd buf n) (c.readn fd buf n)
  store : ∀ va l, Stores view va l (c.store va l)

/-- The world as its own state. -/
def spawnCalls : SpawnCalls SpawnWorld where
  sysPageAlloc envid va perm v := .ok (v.sysPageAlloc envid va perm)
  sysPageMap srcenv srcva dstenv dstva perm v :=
    .ok (v.sysPageMap srcenv srcva dstenv dstva perm)
  sysPageUnmap envid va v := .ok (v.sysPageUnmap envid va)
  sysExofork v := .ok (v.childId.toInt, v)
  sysEnvSetTrapframe _ _ _ v := .ok (0, v)
  sysEnvSetStatus _ v := .ok (0, v)
  sysEnvDestroy _ v := .ok (0, v)
  seek fd offset v := .ok (v.seek fd offset)
  readn fd buf n v := .ok (v.readn fd buf n)
  openFile _ v := .ok (v.fd, v.setOffset 0#32)
  close _ v := .ok (0, v)
  store va l v :=
    match v.store l va with
    | none => .error .fault
    | some v' => .ok ((), v')
  memory := SpawnWorld.memory
  elfBuf := 0xef7fd800#64

theorem spawnCalls_documented (short : Prop) : spawnCalls.Documented short id where
  sysPageAlloc _ _ _ _ := ⟨_, .inl ⟨rfl, rfl⟩⟩
  sysPageMap _ _ _ _ _ _ := ⟨_, .inl ⟨rfl, rfl⟩⟩
  sysPageUnmap _ _ _ := ⟨_, .inl ⟨rfl, rfl⟩⟩
  seek _ _ _ := ⟨_, .inl ⟨rfl, rfl⟩⟩
  readn _ _ _ _ := ⟨_, .inl ⟨rfl, rfl⟩⟩
  store va l s := by
    show match s.store l va with
      | none => _
      | some v' => _
    cases h : s.store l va with
    | none =>
      show spawnCalls.store va l s = _
      simp only [spawnCalls, h]
    | some v' =>
      refine ⟨v', ?_, rfl⟩
      show spawnCalls.store va l s = _
      simp only [spawnCalls, h]

/-! ### Stores to one page -/

namespace SpawnWorld

theorem setPage_pages (v : SpawnWorld) (p : Nat) (f : Nat → BitVec 8) :
    (v.setPage p f).pages p = f := update_self ..

theorem setPage_setPage (v : SpawnWorld) (p : Nat) (f f' : Nat → BitVec 8) :
    (v.setPage p f).setPage p f' = v.setPage p f' := by
  rw [setPage, setPage, setPage, update_idem]

/-- Bytes that go to one page. -/
theorem store_page {v : SpawnWorld} {q o p : Nat} {perm : BitVec 32} {l : List (BitVec 8)}
    {va : Word} (hq : v.space .self q = some (p, perm)) (hw : perm &&& 2#32 ≠ 0#32)
    (hva : va.toNat = 4096 * q + o) (hl : o + l.length ≤ 4096) :
    v.store l va = some (v.setPage p (patch (v.pages p) o l)) := by
  induction l generalizing v o va with
  | nil =>
    rw [patch_nil, setPage, update_eq_self]
    rfl
  | cons b l ih =>
    rw [List.length_cons] at hl
    have hbyte : v.storeByte va b = some (v.setPage p (update (v.pages p) o b)) := by
      rw [storeByte, hva, show (4096 * q + o) / 4096 = q by omega,
        show (4096 * q + o) % 4096 = o by omega, hq]
      exact if_neg hw
    have hq' : (v.setPage p (update (v.pages p) o b)).space .self q = some (p, perm) := hq
    rw [store, hbyte, Option.bind_some]
    cases l with
    | nil =>
      rw [store, ← patch_cons, patch_nil]
    | cons b' l =>
      rw [List.length_cons] at hl
      have hnext : (va + 1#64).toNat = 4096 * q + (o + 1) := by
        rw [BitVec.toNat_add, hva]
        simp only [BitVec.toNat_ofNat]
        omega
      rw [ih hq' hnext (by rw [List.length_cons]; omega), setPage_pages, setPage_setPage,
        patch_cons]

end SpawnWorld

end JosVmm
