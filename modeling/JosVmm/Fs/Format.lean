import JosVmm.Fs.Disk

/-!
# File server — the formatter

`fs/fsformat.c`, which makes a disk from the files of its command line.  Blocks are handed out one
after the other: the boot block, the superblock and the bitmap, then for each file its data and, if
it needs one, its indirect block, and last the directories `bin`, `sbin`, `vmm` and `/`.

`ROUNDUP` is a macro.  In `alloc` and `finishfile` its argument is unsigned, and 0 is rounded to 0;
in `finishdir` it is an `int`, and 0 is rounded to `BLKSIZE`, so that an empty directory gets a block
that was not allocated.
-/

namespace JosVmm

open Support.Prog Function

/-- `ROUNDUP(n, BLKSIZE)` for an `n` of type `uint32_t`. -/
def roundupUint (n : BitVec 32) : BitVec 32 := n - 1#32 + 4096#32 - (n - 1#32) % 4096#32

/-- `ROUNDUP(n, BLKSIZE)` for an `n` of type `int`; `%` takes the sign of its first argument. -/
def roundupInt (n : Int) : Int := n - 1 + 4096 - Int.tmod (n - 1) 4096

/-- `MAX_DIR_ENTS`. -/
def maxDirEnts : Nat := 128

/-- The bytes of a string, without the zero at its end. -/
def cstr (s : String) : List (BitVec 8) := s.toList.map fun c => BitVec.ofNat 8 c.toNat

/-- The disk image and `diskpos`, as an offset into it. -/
structure Fmt where
  nblocks : Nat
  disk : Bytes
  diskpos : Nat

inductive FmtPanic where
  /-- "out of disk blocks" -/
  | outOfBlocks
  /-- "too many directory entries" -/
  | tooManyEntries
  /-- The file cannot be opened or is not a regular file. -/
  | noFile
  /-- "too large" -/
  | tooLarge
  /-- The arguments are wrong. -/
  | usage
  deriving DecidableEq

abbrev Fm := StateT Fmt (Except FmtPanic)

/-- `struct Dir`, without the pointer to the directory's `struct File`. -/
structure Dir where
  ents : Nat → Bytes
  n : Nat

/-- The four directories, and the values of `flag`. -/
inductive DirId where
  | root
  | bin
  | sbin
  | vmm
  deriving DecidableEq

/-- `alloc`. -/
def alloc (bytes : BitVec 32) : Fm Nat := do
  let s ← get
  let pos := s.diskpos + (roundupUint bytes).toNat
  set { s with diskpos := pos }
  if s.nblocks ≤ pos / blksize then throw .outOfBlocks
  return s.diskpos

/-- The image is changed. -/
def edit (g : Bytes → Bytes) : Fm Unit := modify fun s => { s with disk := g s.disk }

/-- `strcpy`. -/
def strcpy (m : Bytes) (a : Nat) (name : List (BitVec 8)) : Bytes :=
  blit m a (name.length + 1) fun i => name.getD i 0#8

/-- The superblock. -/
def writeSuper (d : Bytes) (super nblocks : Nat) : Bytes :=
  let d := store32 d super fsMagic
  let d := store32 d (super + 4) (BitVec.ofNat 32 nblocks)
  let d := store32 d (super + 8 + 132) ftypeDir
  strcpy d (super + 8) (cstr "/")

/-- `opendisk`, after the image of zeros has been made. -/
def opendisk : Fm Unit := do
  let nblocks := (← get).nblocks
  let _ ← alloc (BitVec.ofNat 32 blksize)
  let super ← alloc (BitVec.ofNat 32 blksize)
  edit (writeSuper · super nblocks)
  let nbitblocks := (nblocks + blkbitsize - 1) / blkbitsize
  let bitmap ← alloc (BitVec.ofNat 32 (nbitblocks * blksize))
  edit (blit · bitmap (nbitblocks * blksize) fun _ => 0xFF#8)

/-- The loop of `finishdisk`: the blocks below `i` are not free. -/
def clearBits (d : Bytes) : Nat → Bytes
  | 0 => d
  | i + 1 =>
    let d := clearBits d i
    store32 d (bitAddr i) (load32 d (bitAddr i) &&& ~~~(1#32 <<< (i % 32)))

/-- `finishdisk`. -/
def finishdisk : Fm Unit := do
  let s ← get
  edit (clearBits · (s.diskpos / blksize))

/-- `finishfile`, on a `struct File` that it returns. -/
def finishfile (f : Bytes) (start len : BitVec 32) : Fm Bytes := do
  let f := store32 f 128 len
  let n := (roundupUint len).toNat / blksize
  let f := storeWords f 136 (fun i => start + BitVec.ofNat 32 i) (min n ndirect)
  -- at `NDIRECT` blocks there is an indirect block, though it is not needed yet
  if ndirect ≤ n then
    let ind ← alloc (BitVec.ofNat 32 blksize)
    edit (storeWords · ind (fun i => start + BitVec.ofNat 32 (ndirect + i)) (n - ndirect))
    return store32 f 176 (BitVec.ofNat 32 (ind / blksize))
  else
    return f

/-- `diradd`. -/
def diradd (d : Dir) (type : BitVec 32) (name : List (BitVec 8)) : Fm Dir := do
  if maxDirEnts < d.n + 1 then
    throw .tooManyEntries
  else
    return ⟨update d.ents d.n (store32 (strcpy (d.ents d.n) 0 name) 132 type), d.n + 1⟩

/-- `finishdir`, on the `struct File` of the directory. -/
def finishdir (d : Dir) (f : Bytes) : Fm Bytes := do
  let size := d.n * fileSize
  let start ← alloc (BitVec.ofNat 32 size)
  edit (blit · start size fun o => d.ents (o / fileSize) (o % fileSize))
  finishfile f (BitVec.ofNat 32 (start / blksize)) (BitVec.ofInt 32 (roundupInt size))

/-- `strrchr(name, '/') + 1`, or `name`. -/
def lastPart (name : List (BitVec 8)) : List (BitVec 8) :=
  (name.reverse.takeWhile (· ≠ 0x2F#8)).reverse

/-- `writefile`; `host` are the regular files that can be opened.  The host has no names of more than
255 bytes. -/
def writefile (host : List (BitVec 8) → Option (List (BitVec 8))) (d : Dir)
    (name : List (BitVec 8)) : Fm Dir := do
  if 255 < (lastPart name).length then
    throw .noFile
  else
    match host name with
    | none => throw .noFile
    | some content =>
      if maxfilesize ≤ content.length then
        throw .tooLarge
      else
        let d' ← diradd d ftypeReg (lastPart name)
        let start ← alloc (BitVec.ofNat 32 content.length)
        edit (blit · start content.length fun i => content.getD i 0#8)
        let f ← finishfile (d'.ents d.n) (BitVec.ofNat 32 (start / blksize))
          (BitVec.ofNat 32 content.length)
        return { d' with ents := update d'.ents d.n f }

/-- The option that an argument is, if it is one. -/
def optionOf (arg : List (BitVec 8)) : Option DirId :=
  if arg = cstr "-b" then some .bin
  else if arg = cstr "-sb" then some .sbin
  else if arg = cstr "-g" then some .vmm
  else none

/-- The loop of `main` over the arguments. -/
def writefiles (host : List (BitVec 8) → Option (List (BitVec 8))) :
    List (List (BitVec 8)) → DirId → (DirId → Dir) → Fm (DirId → Dir)
  | [], _, dirs => return dirs
  | arg :: args, flag, dirs =>
    match optionOf arg with
    | some flag => writefiles host args flag dirs
    | none => do
      let d ← writefile host (dirs flag) arg
      writefiles host args flag (update dirs flag d)

/-- The directory is finished that is the `k`-th entry of the root directory. -/
def finishEntry (dirs : DirId → Dir) (id : DirId) (k : Nat) : Fm (DirId → Dir) := do
  let f ← finishdir (dirs id) ((dirs .root).ents k)
  return update dirs .root
    ⟨update (dirs .root).ents k f, (dirs .root).n⟩

/-- The rest of `main`, when the disk is open.  `junk` is what the directories' memory had. -/
def format (host : List (BitVec 8) → Option (List (BitVec 8))) (args : List (List (BitVec 8)))
    (junk : DirId → Nat → Bytes) : Fm Unit := do
  opendisk
  let root ← diradd ⟨junk .root, 0⟩ ftypeDir (cstr "bin")
  let root ← diradd root ftypeDir (cstr "sbin")
  let root ← diradd root ftypeDir (cstr "vmm")
  let dirs ← writefiles host args .root
    (update (fun id => ⟨junk id, 0⟩) .root root)
  let dirs ← finishEntry dirs .bin 0
  let dirs ← finishEntry dirs .sbin 1
  let dirs ← finishEntry dirs .vmm 2
  -- the root directory's `struct File` is in the superblock
  let f ← finishdir (dirs .root) (File.load (← get).disk rootAddr)
  edit (blit · rootAddr fileSize f)
  finishdisk

/-- `main`, for the number of blocks of its second argument: the image at the end. -/
def fsformat (nblocks : Nat) (host : List (BitVec 8) → Option (List (BitVec 8)))
    (args : List (List (BitVec 8))) (junk : DirId → Nat → Bytes) : Except FmtPanic Fmt :=
  if nblocks < 2 ∨ 10240 < nblocks then
    .error .usage
  else
    match (format host args junk).run ⟨nblocks, fun _ => 0#8, 0⟩ with
    | .ok (_, s) => .ok s
    | .error e => .error e

end JosVmm
