import JosVmm.User.InitStack

/-!
# User library — the headers of an image

`spawn` and `copy_guest_kern_gpa` read the first 512 bytes of a file, test the magic number, and
then read the program headers, which are said to start at `e_phoff` and to be `e_phnum`.  Neither is
compared with the size of the block.

A header outside the block is never read exactly if every header that may be reached is inside
(`headers_inside_iff`).  Which ones are reached is different for the two: `copy_guest_kern_gpa`
returns at the first segment (`mapInGuest_negative`), and `spawn` goes on after each that
`map_segment` returns for, which it does not for a size in the last page of the address space
(`Endless`).
-/

namespace JosVmm
open Support.Prog List BitVec

/-! ### The block -/

namespace Image

/-- `e_phoff`. -/
def phoff (img : Image) : Word := img.qword 32#64

/-- `e_phnum`. -/
def phnum (img : Image) : Nat := (img.half 56#64).toNat

/-- The program header `i`. -/
def header (img : Image) (i : Nat) : Proghdr :=
  img.proghdr (img.phoff + BitVec.ofNat 64 (56 * i))

/-- The first 512 bytes are the same. -/
def SameBlock (img img' : Image) : Prop := ∀ off : Word, off.toNat < 512 → img off = img' off

/-- **Every header that may be reached is in the block**: those up to the first one that ends the
loop. -/
def HeadersInside (img : Image) (ends : Proghdr → Prop) : Prop :=
  ∀ i < img.phnum, (∀ k < i, ¬ ends (img.header k)) → img.phoff.toNat + 56 * (i + 1) ≤ 512

/-- The header `i` is the first one outside the block, and may be reached. -/
structure FirstOutside (img : Image) (ends : Proghdr → Prop) (i : Nat) : Prop where
  num : i < img.phnum
  outside : ¬ img.phoff.toNat + 56 * (i + 1) ≤ 512
  before : ∀ k < i, img.phoff.toNat + 56 * (k + 1) ≤ 512 ∧ ¬ ends (img.header k)

variable {img img' : Image} {off : Word} {n i : Nat} {ends : Proghdr → Prop}

/-- It is enough that no header is the first one outside the block. -/
theorem HeadersInside.of_first (h : ∀ i, ¬ img.FirstOutside ends i) : img.HeadersInside ends := by
  intro i
  induction i using Nat.strongRecOn with
  | ind i ih =>
    intro hnum hend
    refine by_contra fun hi => h i ⟨hnum, hi, fun k hk => ⟨?_, hend k hk⟩⟩
    exact ih k hk (hk.trans hnum) fun m hm => hend m (hm.trans hk)

section

variable (h : img.SameBlock img')
include h

theorem SameBlock.value (hoff : off.toNat + n ≤ 512) : img.value off n = img'.value off n := by
  have hbytes : img.bytes off n = img'.bytes off n := by
    refine map_congr_left fun i hi => h _ ?_
    rw [mem_range] at hi
    rw [toNat_add, toNat_ofNat]
    omega
  rw [Image.value, Image.value, hbytes]

theorem SameBlock.half (hoff : off.toNat + 2 ≤ 512) : img.half off = img'.half off := by
  rw [Image.half, Image.half, h.value hoff]

theorem SameBlock.dword (hoff : off.toNat + 4 ≤ 512) : img.dword off = img'.dword off := by
  rw [Image.dword, Image.dword, h.value hoff]

theorem SameBlock.qword (hoff : off.toNat + 8 ≤ 512) : img.qword off = img'.qword off := by
  rw [Image.qword, Image.qword, h.value hoff]

theorem SameBlock.phoff : img.phoff = img'.phoff := h.qword (by decide)

theorem SameBlock.phnum : img.phnum = img'.phnum :=
  congrArg BitVec.toNat (h.half (by decide))

theorem SameBlock.proghdr (hoff : off.toNat + 56 ≤ 512) : img.proghdr off = img'.proghdr off := by
  have hadd : ∀ m < 56, (off + BitVec.ofNat 64 m).toNat = off.toNat + m := fun m hm => by
    rw [toNat_add, toNat_ofNat]
    omega
  have hword : ∀ m, m + 8 ≤ 56 →
      img.qword (off + BitVec.ofNat 64 m) = img'.qword (off + BitVec.ofNat 64 m) := fun m hm =>
    h.qword (by rw [hadd m (by omega)]; omega)
  rw [Image.proghdr, Image.proghdr, h.dword (by omega), hword 8 (by decide), hword 16 (by decide),
    hword 24 (by decide), hword 32 (by decide), hword 40 (by decide)]

end

end Image

/-! ### `spawn` -/

/-- The size of a segment is in the last page of the address space.  `map_segment` does not return for
it, unless with an error. -/
def Endless (h : Proghdr) : Prop :=
  h.pType = 1#32 ∧ 2 ^ 64 - 4096 < (h.pMemsz + pgoff h.pVa).toNat

/-- The calls do not access an array of `spawn` outside its bounds. -/
structure SpawnCalls.Inside {σ : Type} (c : SpawnCalls σ) : Prop where
  sysPageAlloc : ∀ envid va perm, Avoids .outside (c.sysPageAlloc envid va perm)
  sysPageMap : ∀ srcenv srcva dstenv dstva perm,
    Avoids .outside (c.sysPageMap srcenv srcva dstenv dstva perm)
  sysPageUnmap : ∀ envid va, Avoids .outside (c.sysPageUnmap envid va)
  sysExofork : Avoids .outside c.sysExofork
  sysEnvSetTrapframe : ∀ envid rip rsp, Avoids .outside (c.sysEnvSetTrapframe envid rip rsp)
  sysEnvSetStatus : ∀ envid, Avoids .outside (c.sysEnvSetStatus envid)
  sysEnvDestroy : ∀ envid, Avoids .outside (c.sysEnvDestroy envid)
  seek : ∀ fd offset, Avoids .outside (c.seek fd offset)
  readn : ∀ fd buf n, Avoids .outside (c.readn fd buf n)
  openFile : ∀ path, Avoids .outside (c.openFile path)
  close : ∀ fd, Avoids .outside (c.close fd)
  store : ∀ va bytes, Avoids .outside (c.store va bytes)

/-- The first block of the file is `img`. -/
def SpawnCalls.Reads {σ : Type} (c : SpawnCalls σ) (img : Image) : Prop :=
  ∀ fd s s', (c.readn fd c.elfBuf 512#64).run s = .ok (512, s') →
    Image.SameBlock (fun off => c.memory s' (c.elfBuf + off)) img

/-- **`spawn` reads no header outside the block**, whatever the calls return. -/
def SpawnInside (img : Image) : Prop :=
  ∀ (σ : Type) (c : SpawnCalls σ), c.Inside → c.Reads img →
    ∀ n prog argv, Avoids .outside (spawn c n prog argv)

section spawn

variable {σ : Type} {c : SpawnCalls σ} {img elf : Image} {n k : Nat} {child : EnvId} {fd r : Int}
  {va memsz filesz ph : Word} {fileoffset perm i : BitVec 32} {argv args : List (List (BitVec 8))}
  {s s' : σ}

section

variable (hc : c.Inside)
include hc

theorem storeArgs_inside (store : Word) (argc : BitVec 32) (args : List (List (BitVec 8)))
    (i : BitVec 32) (strs : Word) : Avoids .outside (storeArgs c store argc args i strs) := by
  induction args generalizing i strs with
  | nil => exact .pure
  | cons arg args ih =>
    rw [storeArgs]
    split
    · exact (hc.store _ _).bind fun _ => (hc.store _ _).bind fun _ => ih _ _
    · exact .pure

theorem storeStack_inside : Avoids .outside (storeStack c argv) := by
  refine (storeArgs_inside hc _ _ _ _ _).bind fun _ => (hc.store _ _).bind fun _ => ?_
  split
  · exact .throw (by decide)
  · exact (hc.store _ _).bind fun _ => hc.store _ _

theorem initStack_inside : Avoids .outside (initStack c child argv) := by
  refine .ite .pure ((hc.sysPageAlloc _ _ _).bind fun _ => .ite .pure ?_)
  refine (storeStack_inside hc).bind fun _ => ?_
  refine (hc.sysPageMap _ _ _ _ _).bind fun _ => ?_
  refine .ite ((hc.sysPageUnmap _ _).bind fun _ => .pure) ((hc.sysPageUnmap _ _).bind fun _ => ?_)
  exact .ite ((hc.sysPageUnmap _ _).bind fun _ => .pure) .pure

theorem segmentPage_inside :
    Avoids .outside (segmentPage c child va fd filesz fileoffset perm i) := by
  refine .ite (hc.sysPageAlloc _ _ _) ((hc.sysPageAlloc _ _ _).bind fun _ => .ite .pure ?_)
  refine (hc.seek _ _).bind fun _ => .ite .pure ?_
  refine (hc.readn _ _ _).bind fun _ => .ite .pure ?_
  refine (hc.sysPageMap _ _ _ _ _).bind fun _ => .ite (.throw (by decide)) ?_
  exact (hc.sysPageUnmap _ _).bind fun _ => .pure

theorem mapPages_inside (n : Nat) (i : BitVec 32) :
    Avoids .outside (mapPages c child va memsz fd filesz fileoffset perm n i) := by
  induction n generalizing i with
  | zero => exact .throw (by decide)
  | succ n ih => exact .ite ((segmentPage_inside hc).bind fun _ => .ite .pure (ih _)) .pure

end

theorem signExtend_toNat_le {i : BitVec 32} (hi : i.toNat % 4096 = 0) :
    (i.signExtend 64).toNat ≤ 2 ^ 64 - 4096 := by
  rw [toNat_signExtend, toNat_setWidth]
  split <;> omega

/-- **For an endless segment** no round is the last one. -/
theorem mapPages_endless (hmemsz : 2 ^ 64 - 4096 < memsz.toNat) (hi : i.toNat % 4096 = 0)
    (hrun : (mapPages c child va memsz fd filesz fileoffset perm n i).run s = .ok (r, s')) :
    r < 0 := by
  induction n generalizing i s with
  | zero => cases hrun
  | succ n ih =>
    have hlt : i.signExtend 64 < memsz := by
      exact Nat.lt_of_le_of_lt (signExtend_toNat_le hi) hmemsz
    have hnext : (i + 4096#32).toNat % 4096 = 0 := by
      rw [toNat_add]
      simp only [toNat_ofNat, Nat.reducePow, Nat.reduceMod]
      omega
    rw [mapPages, if_pos hlt] at hrun
    obtain ⟨r', s1, h1, hrun⟩ := bind_inv hrun
    split at hrun
    · cases hrun
      assumption
    · exact ih hnext hrun

/-- Where the header `j` is in the block. -/
theorem header_sub (buf off : Word) (j : Nat) :
    buf + off + BitVec.ofNat 64 (56 * j) - buf = off + BitVec.ofNat 64 (56 * j) := by
  rw [BitVec.add_assoc, BitVec.add_comm buf, BitVec.add_sub_cancel]

/-- The header `j` of the file, if it is in the block. -/
theorem proghdrIn_eq {buf : Word} {j : Nat} (hsame : elf.SameBlock img)
    (hj : img.phoff.toNat + 56 * (j + 1) ≤ 512) :
    (proghdrIn buf elf (buf + elf.phoff + BitVec.ofNat 64 (56 * j)) : Sm σ Proghdr) =
      pure (img.header j) := by
  have hoff : (img.phoff + BitVec.ofNat 64 (56 * j)).toNat + 56 ≤ 512 := by
    rw [toNat_add, toNat_ofNat]
    omega
  rw [proghdrIn, header_sub, hsame.phoff, if_pos hoff, hsame.proghdr hoff, Image.header]

theorem header_next (buf off : Word) (j : Nat) :
    buf + off + BitVec.ofNat 64 (56 * j) + 56#64 = buf + off + BitVec.ofNat 64 (56 * (j + 1)) := by
  rw [BitVec.add_assoc, ← ofNat_add, Nat.mul_succ]

/-- The loop over the headers, from the header `j` on. -/
theorem spawnSegments_inside (n : Nat) (child : EnvId) (fd : Int) (hc : c.Inside)
    (hsame : elf.SameBlock img) (htable : img.HeadersInside Endless) {j : Nat} (hk : j + k = img.phnum)
    (hj : ∀ m < j, ¬ Endless (img.header m)) :
    Avoids .outside (spawnSegments c n child fd elf k
      (c.elfBuf + elf.phoff + BitVec.ofNat 64 (56 * j))) := by
  induction k generalizing j with
  | zero => exact .pure
  | succ k ih =>
    have hin := htable j (by omega) hj
    have hrest : ¬ Endless (img.header j) → Avoids .outside (spawnSegments c n child fd elf k
        (c.elfBuf + elf.phoff + BitVec.ofNat 64 (56 * (j + 1)))) := fun hend =>
      ih (by omega) (Nat.forall_lt_succ_right.mpr ⟨hj, hend⟩)
    intro s
    rw [spawnSegments, proghdrIn_eq hsame hin, pure_bind, header_next]
    split
    · rename_i htype
      exact hrest (fun hend => htype hend.1) s
    · refine Avoids.bind_of_ok (mapPages_inside hc _ _) (fun s1 r s2 hrun => ?_) s
      split
      · exact Avoids.pure _
      · rename_i hr
        exact hrest (fun hend => hr (mapPages_endless hend.2 rfl hrun)) s2

theorem spawn_inside (hc : c.Inside) (hread : c.Reads img) (htable : img.HeadersInside Endless)
    (n : Nat) (prog : String) (argv : List (List (BitVec 8))) :
    Avoids .outside (spawn c n prog argv) := by
  refine (hc.openFile _).bind fun fd => ?_
  split
  · exact .pure
  refine (hc.readn _ _ _).bind_of_ok fun s m s1 hrun => ?_
  rw [bind_get]
  generalize helf : (fun off => c.memory s1 (c.elfBuf + off) : Image) = elf
  dsimp only
  split
  · exact Avoids.bind (hc.close _) (fun _ => .pure) s1
  rename_i hm
  obtain ⟨hm, -⟩ := not_or.mp hm
  rw [not_not.mp hm] at hrun
  have hsame : Image.SameBlock elf img := helf ▸ hread _ _ _ hrun
  refine Avoids.bind hc.sysExofork (fun r => ?_) s1
  split
  · exact .pure
  refine (initStack_inside hc).bind fun o => ?_
  cases o with
  | error r => exact .pure
  | ok rsp =>
    have hloop := spawnSegments_inside n (BitVec.ofInt 32 r) fd (j := 0) hc hsame htable
      (Nat.zero_add _) (fun m hm => absurd hm (Nat.not_lt_zero m))
    rw [Nat.mul_zero, BitVec.add_zero, ← hsame.phnum] at hloop
    refine Avoids.bind hloop fun r => ?_
    refine .ite ((hc.sysEnvDestroy _).bind fun _ => (hc.close _).bind fun _ => .pure) ?_
    refine (hc.close _).bind fun _ => (hc.sysEnvSetTrapframe _ _ _).bind fun _ => ?_
    refine .ite (.throw (by decide)) ((hc.sysEnvSetStatus _).bind fun _ => ?_)
    exact .ite (.throw (by decide)) .pure

/-- Every call succeeds, and the file starts with `img`. -/
def openCalls (img : Image) : SpawnCalls Unit where
  sysPageAlloc _ _ _ := return 0
  sysPageMap _ _ _ _ _ := return 0
  sysPageUnmap _ _ := return 0
  sysExofork := return 1
  sysEnvSetTrapframe _ _ _ := return 0
  sysEnvSetStatus _ := return 0
  sysEnvDestroy _ := return 0
  seek _ _ := return 0
  readn _ _ _ := return 512
  openFile _ := return 0
  close _ := return 0
  store _ _ := return ()
  memory _ va := img va
  elfBuf := 0#64

theorem openCalls_inside (img : Image) : (openCalls img).Inside := by
  constructor <;> intros <;> exact .pure

theorem openCalls_image (img : Image) :
    (fun off => (openCalls img).memory () ((openCalls img).elfBuf + off) : Image) = img :=
  funext fun off => congrArg img (BitVec.zero_add off)

theorem openCalls_reads (img : Image) : (openCalls img).Reads img := fun _ _ _ _ off _ =>
  congrFun (openCalls_image img) off

/-- If the segment is not endless, the loop ends after `2 ^ 20` rounds at most. -/
theorem mapPages_open (hmemsz : memsz.toNat ≤ 2 ^ 64 - 4096) {j : Nat} (hj : j < 2 ^ 20)
    (hn : 2 ^ 20 ≤ n + j) :
    (mapPages (openCalls img) child va memsz fd filesz fileoffset perm n
      (BitVec.ofNat 32 (4096 * j))).run () = .ok (0, ()) := by
  induction n generalizing j with
  | zero => omega
  | succ n ih =>
    rw [mapPages]
    split
    · rename_i hlt
      have hpage : (segmentPage (openCalls img) child va fd filesz fileoffset perm
          (BitVec.ofNat 32 (4096 * j))).run () = .ok (0, ()) := by
        rw [segmentPage]
        split <;> rfl
      have hlast : j ≠ 2 ^ 20 - 1 := by
        rintro rfl
        rw [lt_def] at hlt
        have hend : ((BitVec.ofNat 32 (4096 * (2 ^ 20 - 1))).signExtend 64).toNat =
            2 ^ 64 - 4096 := by decide
        omega
      rw [bind_ok hpage, if_neg (by decide), ← ofNat_add, ← Nat.mul_succ]
      exact ih (by omega) (by omega)
    · rfl

theorem proghdrIn_outside {buf : Word} {j : Nat} {ends : Proghdr → Prop} (h : img.FirstOutside ends j) (s : σ) :
    (proghdrIn buf img (buf + img.phoff + BitVec.ofNat 64 (56 * j))).run s = .error .outside := by
  have hoff : ¬ (img.phoff + BitVec.ofNat 64 (56 * j)).toNat + 56 ≤ 512 := by
    have hlast : j = 0 ∨ img.phoff.toNat + 56 * j ≤ 512 := by
      cases j with
      | zero => exact .inl rfl
      | succ j => exact .inr (h.before j (Nat.lt_succ_self j)).1
    have := h.outside
    rw [toNat_add, toNat_ofNat]
    omega
  rw [proghdrIn, header_sub, if_neg hoff]
  rfl

/-- **With calls that succeed, `spawn` gets to the header `i`**, if no segment before is endless. -/
theorem spawnSegments_outside (child : EnvId) (fd : Int) {i j : Nat}
    (h : img.FirstOutside Endless i) (hij : j ≤ i) (hk : i < j + k) :
    (spawnSegments (openCalls img) (2 ^ 20) child fd img k
      ((openCalls img).elfBuf + img.phoff + BitVec.ofNat 64 (56 * j))).run () =
      .error .outside := by
  induction k generalizing j with
  | zero => omega
  | succ k ih =>
    obtain rfl | hlt := Nat.eq_or_lt_of_le hij
    · exact bind_error (proghdrIn_outside h ())
    · obtain ⟨hin, hend⟩ := h.before j hlt
      have hrest := ih (j := j + 1) (by omega) (by omega)
      rw [spawnSegments, proghdrIn_eq (fun _ _ => rfl) hin, pure_bind, header_next]
      split
      · exact hrest
      · rename_i htype
        have hmap : (mapSegment (openCalls img) (2 ^ 20) child (img.header j).pVa
            (img.header j).pMemsz fd (img.header j).pFilesz ((img.header j).pOffset.setWidth 32)
            (if img.dword ((openCalls img).elfBuf + img.phoff + BitVec.ofNat 64 (56 * j) -
              (openCalls img).elfBuf + 4#64) &&& 2#32 ≠ 0#32 then 7#32 else 5#32)).run () =
            .ok (0, ()) :=
          mapPages_open (j := 0) (Nat.le_of_not_lt fun hlt => hend ⟨not_not.mp htype, hlt⟩)
            (by decide) (by decide)
        rw [bind_ok hmap, if_neg (by decide)]
        exact hrest

theorem spawn_outside {i : Nat} (h : img.FirstOutside Endless i)
    (hmagic : img.magic = 0x464C457F#32) : (spawn (openCalls img) (2 ^ 20) "" []).run () = .error .outside := by
  have hstack : (initStack (openCalls img) (BitVec.ofInt 32 1) []).run () =
      .ok (.ok (utemp2ustack (argvStore [] - 16#64)), ()) := rfl
  have hloop := spawnSegments_outside (BitVec.ofInt 32 1) 0 (k := img.phnum) h (Nat.zero_le i)
    (by rw [Nat.zero_add]; exact h.num)
  rw [Nat.mul_zero, BitVec.add_zero] at hloop
  rw [spawn, bind_ok (show ((openCalls img).openFile "").run () = .ok (0, ()) from rfl),
    if_neg (by decide),
    bind_ok (show ((openCalls img).readn 0 _ _).run () = .ok (512, ()) from rfl),
    bind_get, openCalls_image]
  rw [if_neg (by simp [hmagic]),
    bind_ok (show (openCalls img).sysExofork.run () = .ok (1, ()) from rfl),
    if_neg (by decide), bind_ok hstack]
  exact bind_error hloop

/-- **`spawn` reads no header outside the block exactly if none is there to be reached.** -/
theorem spawnInside_iff (hmagic : img.magic = 0x464C457F#32) :
    SpawnInside img ↔ img.HeadersInside Endless := by
  constructor
  · refine fun h => .of_first fun i hi => ?_
    exact h Unit (openCalls img) (openCalls_inside img) (openCalls_reads img) (2 ^ 20) "" [] ()
      (spawn_outside hi hmagic)
  · intro h σ c hc hread
    exact spawn_inside hc hread h

end spawn

/-! ### `copy_guest_kern_gpa` -/

def VmmStop.toSpawnStop : VmmStop → SpawnStop
  | .panic => .panic
  | .running => .running

/-- A program of the monitor, among those that may access an array outside its bounds. -/
def liftVm {σ α : Type} (x : Vm σ α) : Sm σ α := fun s => (x.run s).mapError VmmStop.toSpawnStop

namespace Bounded

variable {σ : Type} (c : VmmCalls σ)

/-- The loop of `copy_guest_kern_gpa` with its pointers `ph` and `eph`, for at most as many rounds as
the first argument after `eph` says. -/
def copySegments (n : Nat) (guest : EnvId) (fd : Int) (data : Image) (eph : Word) :
    Nat → Word → Int → Sm σ Int
  | 0, _, _ => throw .running
  | k + 1, ph, r =>
    if ph < eph then do
      let h ← proghdrIn c.data data ph
      if h.pType = 1#32 then do
        let r ← liftVm (mapInGuest c n guest h.pPa h.pMemsz fd h.pFilesz (h.pOffset.setWidth 32))
        if r < 0 then
          let _ ← liftVm (c.close fd)
          return -eNoSys
        else
          copySegments n guest fd data eph k (ph + 56#64) r
      else
        copySegments n guest fd data eph k (ph + 56#64) r
    else do
      let _ ← liftVm (c.close fd)
      return r

/-- `copy_guest_kern_gpa`, where a header outside the block stops it. -/
def copyGuestKernGpa (n k : Nat) (guest : EnvId) (fname : String) : Sm σ Int := do
  match ← liftVm (readHeader c fname) with
  | .error r => return r
  | .ok (fd, data) =>
    let ph := c.data + data.qword 32#64
    let eph := ph + 56#64 * (data.half 56#64).setWidth 64
    copySegments c n guest fd data eph k ph 0

end Bounded

/-- The first block of the file is `img`. -/
def VmmCalls.Reads {σ : Type} (c : VmmCalls σ) (img : Image) : Prop :=
  ∀ fd s s', (c.readn fd c.data 512#64).run s = .ok (512, s') →
    Image.SameBlock (fun off => c.memory s' (c.data + off)) img

/-- **`copy_guest_kern_gpa` reads no header outside the block**, whatever the calls return. -/
def CopyInside (img : Image) : Prop :=
  ∀ (σ : Type) (c : VmmCalls σ), c.Reads img →
    ∀ n k guest fname, Avoids .outside (Bounded.copyGuestKernGpa c n k guest fname)

section copy

variable {σ α : Type} {c : VmmCalls σ} {img data : Image} {n k : Nat} {guest : EnvId} {fd r : Int}
  {s s' : σ} {x : Vm σ α} {a : α}

theorem liftVm_avoids (x : Vm σ α) : Avoids .outside (liftVm x) := fun s h => by
  rw [StateT.run, liftVm] at h
  cases hrun : x.run s with
  | error e =>
    rw [hrun] at h
    cases e <;> cases h
  | ok r =>
    rw [hrun] at h
    cases h

theorem liftVm_run (h : x.run s = .ok (a, s')) : (liftVm x).run s = .ok (a, s') := by
  rw [StateT.run, liftVm, h]
  rfl

theorem run_of_liftVm (h : (liftVm x).run s = .ok (a, s')) : x.run s = .ok (a, s') := by
  rw [StateT.run, liftVm] at h
  cases hrun : x.run s with
  | error e =>
    rw [hrun] at h
    cases h
  | ok r =>
    rw [hrun] at h
    cases h
    rfl

/-- `ph < eph`, for the header `j`. -/
theorem header_lt {ph eph : Word} {j num : Nat} (hlt : (ph + BitVec.ofNat 64 (56 * j)) < eph)
    (heph : eph = ph + BitVec.ofNat 64 (56 * num)) (hj : j ≤ num) : j < num := by
  obtain rfl | h := Nat.eq_or_lt_of_le hj
  · rw [heph, lt_def] at hlt
    omega
  · exact h

theorem copySegments_inside (c : VmmCalls σ) (n k : Nat) (guest : EnvId) (fd r : Int)
    (hsame : data.SameBlock img) (htable : img.HeadersInside fun h => h.pType = 1#32) {j : Nat} (hk : j ≤ img.phnum)
    (hj : ∀ m < j, (img.header m).pType ≠ 1#32) :
    Avoids .outside (Bounded.copySegments c n guest fd data
      (c.data + data.phoff + BitVec.ofNat 64 (56 * img.phnum)) k
      (c.data + data.phoff + BitVec.ofNat 64 (56 * j)) r) := by
  induction k generalizing j with
  | zero => exact .throw (by decide)
  | succ k ih =>
    rw [Bounded.copySegments]
    split
    · rename_i hlt
      have hnum := header_lt hlt rfl hk
      have hin := htable j hnum hj
      intro s
      rw [proghdrIn_eq hsame hin, pure_bind, header_next]
      split
      · refine Avoids.bind_of_ok (liftVm_avoids _) (fun s1 r s2 hrun => ?_) s
        rw [if_pos (mapInGuest_negative (run_of_liftVm hrun))]
        exact Avoids.bind (liftVm_avoids _) (fun _ => .pure) s2
      · rename_i htype
        exact ih (by omega) (Nat.forall_lt_succ_right.mpr ⟨hj, htype⟩) s
    · exact (liftVm_avoids _).bind fun _ => .pure

theorem eph_eq (ph : Word) (img : Image) :
    ph + 56#64 * (img.half 56#64).setWidth 64 = ph + BitVec.ofNat 64 (56 * img.phnum) := by
  have hnum : (img.half 56#64).setWidth 64 = BitVec.ofNat 64 img.phnum :=
    (ofNat_toNat ..).symm
  rw [hnum, ofNat_mul]

/-- What `copy_guest_kern_gpa` takes for the block is what is at `data`. -/
theorem readHeader_reads (hread : c.Reads img) {fname : String}
    (hrun : (readHeader c fname).run s = .ok (.ok (fd, data), s')) : data.SameBlock img := by
  obtain ⟨fd', s1, -, hrun⟩ := bind_inv hrun
  split at hrun
  · cases hrun
  obtain ⟨m, s2, h2, hrun⟩ := bind_inv hrun
  split at hrun
  · obtain ⟨_, _, -, hrun⟩ := bind_inv hrun
    cases hrun
  rename_i hm
  rw [not_not.mp hm] at h2
  obtain ⟨s3, s4, hget, hrun⟩ := bind_inv hrun
  cases hget
  dsimp only at hrun
  split at hrun
  · obtain ⟨_, _, -, hrun⟩ := bind_inv hrun
    cases hrun
  · cases hrun
    exact hread _ _ _ h2

theorem copy_inside (hread : c.Reads img) (htable : img.HeadersInside fun h => h.pType = 1#32)
    (n k : Nat) (guest : EnvId) (fname : String) :
    Avoids .outside (Bounded.copyGuestKernGpa c n k guest fname) := by
  refine (liftVm_avoids _).bind_of_ok fun s o s1 hrun => ?_
  cases o with
  | error r => exact Avoids.pure _
  | ok h =>
    obtain ⟨fd, data⟩ := h
    have hsame := readHeader_reads hread (run_of_liftVm hrun)
    have hloop := copySegments_inside c n k guest fd 0 (j := 0) hsame htable (Nat.zero_le _) (fun m hm => absurd hm (Nat.not_lt_zero m))
    rw [Nat.mul_zero, BitVec.add_zero, ← hsame.phnum, ← eph_eq] at hloop
    exact hloop s1

/-- Every call succeeds, and the file starts with `img`; the headers are at the start of the address
space. -/
def openVmm (img : Image) : VmmCalls Unit where
  sysPageAlloc _ _ := return 0
  sysPageUnmap _ := return 0
  sysEptMap _ _ _ _ := return 0
  seek _ _ := return 0
  readn _ _ _ := return 512
  openFile _ := return 0
  close _ := return 0
  memory _ va := img (va + img.phoff)
  data := -img.phoff

theorem openVmm_image (img : Image) :
    (fun off => (openVmm img).memory () ((openVmm img).data + off) : Image) = img := by
  funext off
  show img (-img.phoff + off + img.phoff) = img off
  rw [BitVec.add_comm (-img.phoff), ← BitVec.sub_eq_add_neg, BitVec.sub_add_cancel]

theorem openVmm_reads (img : Image) : (openVmm img).Reads img := fun _ _ _ _ off _ =>
  congrFun (openVmm_image img) off

/-- **With calls that succeed, `copy_guest_kern_gpa` gets to the header `i`**, if there is no segment
before. -/
theorem copySegments_outside (n : Nat) (guest : EnvId) (fd r : Int) {i j : Nat}
    (h : img.FirstOutside (fun h => h.pType = 1#32) i) (hij : j ≤ i) (hk : i < j + k) :
    (Bounded.copySegments (openVmm img) n guest fd img
      ((openVmm img).data + img.phoff + BitVec.ofNat 64 (56 * img.phnum)) k
      ((openVmm img).data + img.phoff + BitVec.ofNat 64 (56 * j)) r).run () = .error .outside := by
  induction k generalizing j with
  | zero => omega
  | succ k ih =>
    have hzero : (openVmm img).data + img.phoff = 0#64 := add_left_neg img.phoff
    have hlt : (openVmm img).data + img.phoff + BitVec.ofNat 64 (56 * j) <
        (openVmm img).data + img.phoff + BitVec.ofNat 64 (56 * img.phnum) := by
      have hmax : img.phnum < 2 ^ 16 := (img.half 56#64).isLt
      have := h.num
      rw [hzero, BitVec.zero_add, BitVec.zero_add, lt_def, toNat_ofNat,
        toNat_ofNat, Nat.mod_eq_of_lt (by omega), Nat.mod_eq_of_lt (by omega)]
      omega
    rw [Bounded.copySegments, if_pos hlt]
    obtain rfl | hji := Nat.eq_or_lt_of_le hij
    · exact bind_error (proghdrIn_outside h ())
    · obtain ⟨hin, htype⟩ := h.before j hji
      rw [proghdrIn_eq (fun _ _ => rfl) hin, pure_bind, header_next, if_neg htype]
      exact ih (by omega) (by omega)

theorem copy_outside {i : Nat} (h : img.FirstOutside (fun h => h.pType = 1#32) i)
    (hmagic : img.magic = 0x464C457F#32) :
    (Bounded.copyGuestKernGpa (openVmm img) n img.phnum guest "").run () = .error .outside := by
  have hhead : (readHeader (openVmm img) "").run () = .ok (.ok (0, img), ()) := by
    rw [readHeader, bind_ok (show ((openVmm img).openFile "").run () = .ok (0, ()) from rfl),
      if_neg (by decide),
      bind_ok (show ((openVmm img).readn 0 _ _).run () = .ok (512, ()) from rfl),
      if_neg (by decide), bind_get, openVmm_image]
    rw [if_neg (not_not.mpr hmagic), run_pure]
  have hloop := copySegments_outside n guest 0 0 (k := img.phnum) h (Nat.zero_le i)
    (by rw [Nat.zero_add]; exact h.num)
  rw [Nat.mul_zero, BitVec.add_zero, ← eph_eq] at hloop
  rw [Bounded.copyGuestKernGpa, bind_ok (liftVm_run hhead)]
  exact hloop

/-- **`copy_guest_kern_gpa` reads no header outside the block exactly if none is there to be
reached.** -/
theorem copyInside_iff (hmagic : img.magic = 0x464C457F#32) :
    CopyInside img ↔ img.HeadersInside fun h => h.pType = 1#32 := by
  constructor
  · refine fun h => .of_first fun i hi => ?_
    exact h Unit (openVmm img) (openVmm_reads img) 0 img.phnum 0#32 "" () (copy_outside hi hmagic)
  · intro h σ c hread
    exact copy_inside hread h

/-! ### With the whole table in the block -/

theorem liftVm_bind {β : Type} (x : Vm σ α) (f : α → Vm σ β) :
    liftVm (x >>= f) = liftVm x >>= fun a => liftVm (f a) := by
  funext s
  show liftVm (x >>= f) s = (liftVm x >>= fun a => liftVm (f a)).run s
  cases hrun : x.run s with
  | error e =>
    have hlift : (liftVm x).run s = .error e.toSpawnStop := by
      rw [StateT.run, liftVm, hrun]
      rfl
    rw [bind_error hlift, liftVm, bind_error hrun]
    rfl
  | ok r =>
    rw [bind_ok (liftVm_run hrun), liftVm, bind_ok hrun]
    rfl

/-- The pointers of the loop go over the headers. -/
theorem Bounded.copySegments_eq (n : Nat) (guest : EnvId) (fd r : Int)
    (hin : data.phoff.toNat + 56 * data.phnum ≤ 512)
    (hdata : c.data.toNat + 512 < 2 ^ 64) {j m : Nat} (hm : j + m = data.phnum) (hk : m < k) :
    Bounded.copySegments c n guest fd data
        (c.data + data.phoff + BitVec.ofNat 64 (56 * data.phnum)) k
        (c.data + data.phoff + BitVec.ofNat 64 (56 * j)) r =
      liftVm (JosVmm.copySegments c n guest fd ((List.range' j m).map data.header) r) := by
  have hadd : ∀ i ≤ data.phnum, (c.data + data.phoff + BitVec.ofNat 64 (56 * i)).toNat =
      c.data.toNat + data.phoff.toNat + 56 * i := fun i hi => by
    rw [toNat_add, toNat_add, toNat_ofNat]
    omega
  have hlt : ∀ i ≤ data.phnum, c.data + data.phoff + BitVec.ofNat 64 (56 * i) <
      c.data + data.phoff + BitVec.ofNat 64 (56 * data.phnum) ↔ i < data.phnum := fun i hi => by
    rw [lt_def, hadd i hi, hadd _ (Nat.le_refl _)]
    omega
  induction m generalizing j k r with
  | zero =>
    obtain ⟨k, rfl⟩ := Nat.exists_eq_succ_of_ne_zero (Nat.ne_of_gt hk)
    have hend := (hlt j (by omega)).not.mpr (by omega)
    rw [Bounded.copySegments, if_neg hend, range'_zero, map_nil, JosVmm.copySegments, liftVm_bind]
    rfl
  | succ m ih =>
    obtain ⟨k, rfl⟩ := Nat.exists_eq_succ_of_ne_zero (Nat.ne_of_gt (Nat.zero_lt_of_lt hk))
    have hgo := (hlt j (by omega)).mpr (by omega)
    have hnext := fun r => ih (r := r) (j := j + 1) (k := k) (by omega) (by omega)
    rw [Bounded.copySegments, if_pos hgo, proghdrIn_eq (fun _ _ => rfl) (by omega), pure_bind,
      header_next, range'_succ, map_cons, JosVmm.copySegments]
    by_cases htype : (data.header j).pType = 1#32
    · rw [if_pos htype, if_pos htype, liftVm_bind]
      congr 1
      funext r'
      by_cases hr : r' < 0
      · rw [if_pos hr, if_pos hr, liftVm_bind]
        rfl
      · rw [if_neg hr, if_neg hr, hnext]
    · rw [if_neg htype, if_neg htype, hnext]

/-- **If the whole table is in the block**, the pointers do not matter. -/
theorem Bounded.copyGuestKernGpa_eq {fname : String} (hdata : c.data.toNat + 512 < 2 ^ 64)
    (hin : ∀ fd data s', (readHeader c fname).run s = .ok (.ok (fd, data), s') →
      data.phoff.toNat + 56 * data.phnum ≤ 512) (hk : 2 ^ 16 ≤ k) :
    (Bounded.copyGuestKernGpa c n k guest fname).run s =
      (liftVm (JosVmm.copyGuestKernGpa c n guest fname)).run s := by
  rw [Bounded.copyGuestKernGpa, JosVmm.copyGuestKernGpa, liftVm_bind]
  cases hrun : (liftVm (readHeader c fname)).run s with
  | error e => rw [bind_error hrun, bind_error hrun]
  | ok o =>
    obtain ⟨o, s'⟩ := o
    rw [bind_ok hrun, bind_ok hrun]
    cases o with
    | error r => rfl
    | ok h =>
      obtain ⟨fd, data⟩ := h
      have hnum : data.phnum < 2 ^ 16 := (data.half 56#64).isLt
      have hloop := Bounded.copySegments_eq n guest fd 0 (k := k) (j := 0)
        (hin fd data s' (run_of_liftVm hrun)) hdata (Nat.zero_add _) (by omega)
      rw [Nat.mul_zero, BitVec.add_zero, ← eph_eq, ← range_eq_range'] at hloop
      exact congrArg (fun x => x.run s') hloop

theorem smallVmm_header : Returns
    ((readHeader vmmCalls "/vmm/kernel").run (smallVmm smallProgram)) fun o _ =>
      o.toOption.any fun h => h.2.phoff.toNat + 56 * h.2.phnum ≤ 512 := by
  decide +kernel

/-- The one header of the small program is in the block. -/
theorem copyGuestKernGpa_eq_small :
    (Bounded.copyGuestKernGpa vmmCalls 3 65536 4096#32 "/vmm/kernel").run (smallVmm smallProgram) =
      (liftVm (copyGuestKernGpa vmmCalls 3 4096#32 "/vmm/kernel")).run (smallVmm smallProgram) := by
  obtain ⟨o, v, hread, hin⟩ := smallVmm_header.exists_ok
  refine Bounded.copyGuestKernGpa_eq (by decide) (fun fd data s' hrun => ?_) (Nat.le_refl _)
  cases hread.symm.trans hrun
  exact of_decide_eq_true hin

end copy

/-! ### Both -/

/-- A block of 512 bytes with the magic number. -/
structure ElfBlock where
  image : Image
  magic : image.magic = 0x464C457F#32

/-- **The headers that are read are in the block exactly if those that may be reached are.** -/
theorem headers_inside_iff (b : ElfBlock) :
    (SpawnInside b.image ↔ b.image.HeadersInside Endless) ∧
    (CopyInside b.image ↔ b.image.HeadersInside fun h => h.pType = 1#32) :=
  ⟨spawnInside_iff b.magic, copyInside_iff b.magic⟩

/-- A block whose one header is said to come after it. -/
def lateBlock : ElfBlock where
  image off := match off.toNat with
    | 0 => 0x7f#8
    | 1 => 0x45#8
    | 2 => 0x4c#8
    | 3 => 0x46#8
    | 33 => 2#8
    | 56 => 1#8
    | _ => 0#8
  magic := by decide

/-- **`e_phoff` is 512**: the first header is outside the block, and both programs read it. -/
theorem headers_outside :
    (spawn (openCalls lateBlock.image) 1 "" []).run () = .error .outside ∧
    (Bounded.copyGuestKernGpa (openVmm lateBlock.image) 1 1 0#32 "").run () = .error .outside ∧
    ¬ SpawnInside lateBlock.image ∧ ¬ CopyInside lateBlock.image := by
  have hspawn : Fails ((spawn (openCalls lateBlock.image) 1 "" []).run ()) .outside := by
    decide +kernel
  have hcopy : Fails ((Bounded.copyGuestKernGpa (openVmm lateBlock.image) 1 1 0#32 "").run ())
      .outside := by decide +kernel
  refine ⟨hspawn.eq_error, hcopy.eq_error, fun h => ?_, fun h => ?_⟩
  · exact h Unit _ (openCalls_inside _) (openCalls_reads _) 1 "" [] () hspawn.eq_error
  · exact h Unit _ (openVmm_reads _) 1 1 0#32 "" () hcopy.eq_error

end JosVmm
