import JosVmm.Fs.Image

/-!
# File server — the image is consistent

What a disk image is to be, read from the image itself: `dirFile` are the directories as they are
found from the superblock, and each file, each directory, the superblock and the bitmap owns its
blocks (`Owner.blocks`).  In a consistent image (`Consistent`) no two owners share a block, the bitmap
has the blocks of all owners in use and the blocks behind them free, and the directories and files are
those of the command line.

The image that `fsformat` makes is consistent if no directory is empty and no name is too long for
`f_name`, and only then (`fsformat_consistent`).  An empty directory gets the block of the next one
(`emptyDir_shares`).
-/

namespace JosVmm

open Support.Prog List File

/-- The `struct File` of a directory. -/
def dirFile (d : Bytes) : DirId → Bytes
  | .root => File.load d rootAddr
  | id => File.ent d (File.load d rootAddr) (entryOf id)

/-- What blocks belong to: a file is named by its directory, and its number in the order in which the
files were added. -/
inductive Owner where
  | superblock
  | bitmap
  | dir (id : DirId)
  | file (id : DirId) (k : Nat)
  deriving DecidableEq

namespace Owner

/-- The blocks of an owner. -/
def blocks (d : Bytes) (nblocks : Nat) : Owner → List Nat
  | superblock => [1]
  | bitmap => List.range' 2 ((nblocks + blkbitsize - 1) / blkbitsize)
  | dir id => File.blocks d (dirFile d id)
  | file id k => File.blocks d (File.ent d (dirFile d id) (base id + k))

/-- The owners of a disk with these files. -/
def Valid (files : DirId → List (List (BitVec 8) × List (BitVec 8))) : Owner → Prop
  | superblock | bitmap | dir _ => True
  | file id k => k < (files id).length

end Owner

/-- The entries of a directory, by name and type. -/
def entries (files : DirId → List (List (BitVec 8) × List (BitVec 8))) (id : DirId) :
    List (List (BitVec 8) × BitVec 32) :=
  (if id = .root then dirNames.map fun name => (name, ftypeDir) else []) ++
    (files id).map fun x => (x.1, ftypeReg)

/-- The `struct File` is what an entry of a directory is to be: all zeros, if there is no entry. -/
def IsEntry (f : Bytes) : Option (List (BitVec 8) × BitVec 32) → Prop
  | some (name, type) => File.HasName f name ∧ fType f = type
  | none => ∀ o, o < fileSize → f o = 0#8

/-- **The image is consistent**, with these files. -/
structure Consistent (s : Fmt) (files : DirId → List (List (BitVec 8) × List (BitVec 8))) :
    Prop where
  disjoint : ∀ o o' : Owner, o.Valid files → o'.Valid files → o ≠ o' →
    List.Disjoint (o.blocks s.disk s.nblocks) (o'.blocks s.disk s.nblocks)
  used : ∀ o : Owner, o.Valid files → ∀ b ∈ o.blocks s.disk s.nblocks, blockFree s.disk b = false
  free : ∀ b, s.diskpos / blksize ≤ b → b < s.nblocks → blockFree s.disk b = true
  contents : ∀ id k x, (files id)[k]? = some x →
    let f := File.ent s.disk (dirFile s.disk id) (base id + k)
    (List.range (fSize f).toNat).map (byteAt s.disk f) = x.2
  fits : ∀ id, (entries files id).length * fileSize ≤ (fSize (dirFile s.disk id)).toNat
  entries : ∀ id k, k < (fSize (dirFile s.disk id)).toNat / fileSize →
    IsEntry (File.ent s.disk (dirFile s.disk id) k) (entries files id)[k]?

/-- Each directory has a file, and the names are short. -/
def Formattable (files : DirId → List (List (BitVec 8) × List (BitVec 8))) : Prop :=
  (∀ id, id ≠ .root → files id ≠ []) ∧ ∀ id, ∀ x ∈ files id, x.1.length < maxnamelen

variable {s : Fmt} {d : Bytes} {p k first b : Nat} {dirs : DirId → Dir}
  {files : DirId → List (List (BitVec 8) × List (BitVec 8))}
  {host : List (BitVec 8) → Option (List (BitVec 8))} {args : List (List (BitVec 8))}
  {junk : DirId → Nat → Bytes} {id : DirId} {x : List (BitVec 8) × List (BitVec 8)}

/-! ### The image that is made -/

/-- The number of blocks that are allocated for a directory. -/
def dirBlocks (dirs : DirId → Dir) (id : DirId) : Nat := blocksFor ((dirs id).n * fileSize)

/-- The first block of each directory, when `first` is that of the first one. -/
def place (first : Nat) (dirs : DirId → Dir) : DirId → Nat
  | .bin => first
  | .sbin => first + dirBlocks dirs .bin
  | .vmm => first + dirBlocks dirs .bin + dirBlocks dirs .sbin
  | .root => first + dirBlocks dirs .bin + dirBlocks dirs .sbin + dirBlocks dirs .vmm

/-- The files are in the blocks below `first`, and the directories follow. -/
structure Laid (s : Fmt) (first : Nat) (dirs : DirId → Dir)
    (files : DirId → List (List (BitVec 8) × List (BitVec 8))) : Prop where
  three_le : 3 ≤ first
  files : HoldFiles s.disk first dirs files
  dir : ∀ id, DirOut s.disk (dirFile s.disk id) (dirs id) (place first dirs id)
  pos : s.diskpos = (place first dirs .root + dirBlocks dirs .root) * blksize
  lt : place first dirs .root + dirBlocks dirs .root < s.nblocks
  le : s.nblocks ≤ 10240
  bits : ∀ b < blkbitsize, blockFree s.disk b =
    decide (place first dirs .root + dirBlocks dirs .root ≤ b)

/-- The superblock and the bitmap are written last. -/
theorem Fmt.At.finish {f : Bytes} {s1 s2 : Fmt} (h : s.At p) (hb : p < blkbitsize)
    (hedit : (JosVmm.edit (blit · rootAddr fileSize f)).run s = .ok ((), s1))
    (hfinish : finishdisk.run s1 = .ok ((), s2)) :
    s2.diskpos = s.diskpos ∧ s2.nblocks = s.nblocks ∧ (∀ q, Agree q s.disk s2.disk) ∧
      SameFile f (File.load s2.disk rootAddr) ∧
      ∀ b < blkbitsize, blockFree s2.disk b = decide (p ≤ b) := by
  cases hedit
  cases hfinish
  have hroot : rootAddr + fileSize ≤ 2 * blksize := by decide
  have hpos : s.diskpos / blksize = p := by rw [h.pos, Nat.mul_div_cancel _ (by decide)]
  dsimp only
  rw [hpos]
  have hmap : ∀ x, 2 * blksize ≤ x → x < 3 * blksize →
      blit s.disk rootAddr fileSize f x = 0xFF#8 := fun x hlo hhi =>
    (blit_of_not (by omega)).trans (h.bitmap x hlo hhi)
  obtain ⟨hbits, hrest⟩ := clearBits_spec hmap hb.le
  refine ⟨rfl, rfl, fun q x hlo _ => ?_, fun o ho => ?_, hbits⟩
  · rw [hrest x (by omega), blit_of_not (by omega)]
  · rw [File.load, hrest _ (by omega)]
    exact blit_apply ho

/-- **What `fsformat` makes.** -/
theorem format_laid {nblocks : Nat} (hle : nblocks ≤ 10240) (hlo : 2 ≤ nblocks)
    (hrun : (format host args junk).run ⟨nblocks, fun _ => 0#8, 0⟩ = .ok ((), s)) :
    ∃ first dirs, Laid s first dirs (filesOf host args .root) := by
  rw [format] at hrun
  obtain ⟨_, s₀, hopen, hrun⟩ := bind_inv hrun
  obtain ⟨root1, s1, hadd1, hrun⟩ := bind_inv hrun
  obtain ⟨root2, s2, hadd2, hrun⟩ := bind_inv hrun
  obtain ⟨root3, s3, hadd3, hrun⟩ := bind_inv hrun
  obtain ⟨dirs0, s4, hwrite, hrun⟩ := bind_inv hrun
  obtain ⟨dirs1, s5, hbin, hrun⟩ := bind_inv hrun
  obtain ⟨dirs2, s6, hsbin, hrun⟩ := bind_inv hrun
  obtain ⟨dirs3, s7, hvmm, hrun⟩ := bind_inv hrun
  rw [bind_get] at hrun
  obtain ⟨f, s8, hroot, hrun⟩ := bind_inv hrun
  obtain ⟨_, s9, hedit, hfinish⟩ := bind_inv hrun
  obtain ⟨hat0, hn0⟩ := opendisk_at hle hlo hopen
  obtain ⟨rfl, hstart⟩ := HoldFiles.start (p := 3) hadd1 hadd2 hadd3
  obtain ⟨first, hfirst, hat4, hn4, -, hfiles4⟩ := hstart.writefiles hat0 hwrite
  obtain ⟨hat5, hsame5, hn5, hfiles5, hout5, hdirs5, -, hents5⟩ :=
    hfiles4.finishEntry hat4 (Nat.le_refl _) (by decide) hbin
  obtain ⟨hat6, hsame6, hn6, hfiles6, hout6, hdirs6, -, hents6⟩ :=
    hfiles5.finishEntry hat5 (by omega) (by decide) hsbin
  obtain ⟨hat7, hsame7, hn7, hfiles7, hout7, hdirs7, -, hents7⟩ :=
    hfiles6.finishEntry hat6 (by omega) (by decide) hvmm
  obtain ⟨hat8, hsame8, hn8, hout8, -⟩ := hat7.finishdir (hfiles7.room .root) hroot
  -- the other directories stay as they were when they were finished
  have hdbin : dirs3 .bin = dirs0 .bin :=
    (hdirs7 .bin nofun).trans ((hdirs6 .bin nofun).trans (hdirs5 .bin nofun))
  have hdsbin : dirs3 .sbin = dirs1 .sbin := (hdirs7 .sbin nofun).trans (hdirs6 .sbin nofun)
  have hdvmm : dirs3 .vmm = dirs2 .vmm := hdirs7 .vmm nofun
  rw [← hdbin] at hat5 hsame6 hout5 hat6 hout6 hat7 hsame7 hout7 hat8 hsame8 hout8
  rw [← hdsbin] at hat6 hout6 hat7 hsame7 hout7 hat8 hsame8 hout8
  rw [← hdvmm] at hat7 hout7 hat8 hsame8 hout8
  rw [← hents6 0 (by decide), ← hents7 0 (by decide)] at hout5
  rw [← hents7 1 (by decide)] at hout6
  have hb : first + dirBlocks dirs3 .bin + dirBlocks dirs3 .sbin + dirBlocks dirs3 .vmm +
      dirBlocks dirs3 .root < blkbitsize := hat8.lt.trans_le (hat8.le.trans (by decide))
  obtain ⟨hpos, hn, hagree, hload, hbits⟩ := hat8.finish hb hedit hfinish
  have hagree7 := hsame8.agree.trans (hagree _) (Nat.le_refl _)
  have hagree6 := hsame7.agree.trans hagree7 (Nat.le_add_right ..)
  have hagree5 := hsame6.agree.trans hagree6 (Nat.le_add_right ..)
  have hroom := hfiles7.room
  have hthree := hat4.three_le
  -- the root directory is found from the superblock, and the others in the root directory
  have houtRoot : DirOut s.disk (File.load s.disk rootAddr) (dirs3 .root)
      (place first dirs3 .root) :=
    hload.dirOut (hout8.agree (hroom .root) (hagree _) (hat7.three_le) (Nat.le_refl _))
  have hn3 : 3 ≤ (dirs3 .root).n := by
    rw [hfiles7.count .root]
    exact Nat.le_add_right ..
  refine ⟨first, dirs3, hthree, ?_, fun id => ?_, hpos.trans hat8.pos, hn ▸ hat8.lt, hn ▸ hat8.le, hbits⟩
  · refine hfiles7.agree fun x hlo hx => hagree7 x hlo (hx.trans_le (Nat.mul_le_mul_right _ ?_))
    omega
  · cases id with
    | root => exact houtRoot
    | bin =>
      exact (houtRoot.ent (show 0 < (dirs3 .root).n by omega)).dirOut
        (hout5.agree (hroom .bin) hagree5 hthree (Nat.le_refl _))
    | sbin =>
      exact (houtRoot.ent (show 1 < (dirs3 .root).n by omega)).dirOut
        (hout6.agree (hroom .sbin) hagree6 hat5.three_le (Nat.le_refl _))
    | vmm =>
      exact (houtRoot.ent (show 2 < (dirs3 .root).n by omega)).dirOut
        (hout7.agree (hroom .vmm) hagree7 hat6.three_le (Nat.le_refl _))

/-! ### Reading it -/

namespace Laid

section

variable (h : Laid s first dirs files)
include h

theorem mem_dir (id : DirId) :
    b ∈ File.blocks s.disk (dirFile s.disk id) ↔
      place first dirs id ≤ b ∧ b < place first dirs id + max 1 (dirBlocks dirs id) :=
  (h.dir id).mem_blocks (h.files.room id)

/-- An entry that was added is read back. -/
theorem ent 
    (hx : (files id)[k]? = some x) :
    SameFile ((dirs id).ents (base id + k)) (File.ent s.disk (dirFile s.disk id) (base id + k)) := by
  refine (h.dir id).ent ?_
  rw [h.files.count id]
  exact Nat.add_lt_add_left (List.getElem?_eq_some_iff.mp hx).1 _

theorem file_blocks (hx : (files id)[k]? = some x) :
    File.blocks s.disk (File.ent s.disk (dirFile s.disk id) (base id + k)) =
      File.blocks s.disk ((dirs id).ents (base id + k)) := (h.ent hx).blocks

theorem length_entries (id : DirId) : (entries files id).length = (dirs id).n := by
  rw [h.files.count id]
  cases id with
  | root => rw [entries, if_pos rfl, length_append, length_map, length_map]; rfl
  | bin | sbin | vmm => simp [entries, base]

/-- Each entry has its name, as far as it fits, and its type. -/
theorem entry {e : List (BitVec 8) × BitVec 32} (he : (entries files id)[k]? = some e) :
    NameBytes (File.ent s.disk (dirFile s.disk id) k) e.1 ∧
      fType (File.ent s.disk (dirFile s.disk id) k) = e.2 := by
  have hk : k < (dirs id).n := by
    rw [← h.length_entries id]
    exact (List.getElem?_eq_some_iff.mp he).1
  have hsame := (h.dir id).ent hk
  suffices hents : NameBytes ((dirs id).ents k) e.1 ∧ fType ((dirs id).ents k) = e.2 from
    ⟨hsame.nameBytes hents.1, hsame.fType.trans hents.2⟩
  -- it is a file, or one of the directories in the root directory
  have hfile : ∀ j x, (files id)[j]? = some x → k = base id + j → e = (x.1, ftypeReg) →
      NameBytes ((dirs id).ents k) e.1 ∧ fType ((dirs id).ents k) = e.2 := by
    rintro j x hx rfl rfl
    have hst := h.files.stored id j x hx
    exact ⟨hst.name, hst.type⟩
  rw [entries] at he
  by_cases hid : id = .root
  · subst hid
    rw [if_pos rfl] at he
    by_cases hlt : k < 3
    · rw [getElem?_append_left (by simpa [dirNames] using hlt), getElem?_map,
        Option.map_eq_some_iff] at he
      obtain ⟨name, hname, rfl⟩ := he
      exact h.files.heads k name hname
    · rw [getElem?_append_right (by simp [dirNames]; omega), getElem?_map,
        Option.map_eq_some_iff] at he
      obtain ⟨x, hx, rfl⟩ := he
      refine hfile (k - 3) x hx ?_ rfl
      rw [base]
      omega
  · rw [if_neg hid, nil_append, getElem?_map, Option.map_eq_some_iff] at he
    obtain ⟨x, hx, rfl⟩ := he
    refine hfile k x hx ?_ rfl
    cases id <;> simp_all [base]

theorem free (hlo : s.diskpos / blksize ≤ b) (hb : b < s.nblocks) : blockFree s.disk b = true := by
  have hle := h.le
  rw [h.pos, Nat.mul_div_cancel _ (by decide)] at hlo
  rw [h.bits b (by simp only [blkbitsize, blksize, pgsize]; omega)]
  exact decide_eq_true hlo

/-- The contents of a file. -/
theorem contents (hx : (files id)[k]? = some x) :
    (List.range (fSize (File.ent s.disk (dirFile s.disk id) (base id + k))).toNat).map
      (byteAt s.disk (File.ent s.disk (dirFile s.disk id) (base id + k))) = x.2 := by
  have hsame := h.ent hx
  have hst := h.files.stored id k x hx
  obtain ⟨lo, hc, hdata⟩ := hst.data
  rw [hsame.fSize, hst.size]
  refine ext_getElem (by simp) fun j hj hj' => ?_
  rw [getElem_map, getElem_range, hsame.byteAt, hc.byteAt (hst.size ▸ hj'), hdata j hj',
    getD_eq_getElem _ _ hj']

/-- The blocks from which an owner's are taken. -/
def span (first : Nat) (dirs : DirId → Dir) : Owner → Nat × Nat
  | .superblock => (1, 2)
  | .bitmap => (2, 3)
  | .dir id => (place first dirs id, place first dirs id + dirBlocks dirs id)
  | .file _ _ => (3, first)

theorem mem_span (hne : ∀ id, 0 < dirBlocks dirs id) {o : Owner} (ho : o.Valid files)
    (hb : b ∈ o.blocks s.disk s.nblocks) :
    (span first dirs o).1 ≤ b ∧ b < (span first dirs o).2 := by
  cases o with
  | superblock =>
    rw [Owner.blocks, mem_singleton] at hb
    subst hb
    exact ⟨Nat.le_refl 1, Nat.lt_succ_self 1⟩
  | bitmap =>
    have hone : (s.nblocks + blkbitsize - 1) / blkbitsize = 1 := by
      have h1 := h.le
      have h2 := h.lt
      simp only [blkbitsize, blksize, pgsize]
      omega
    rw [Owner.blocks, hone, mem_range'_1] at hb
    exact hb
  | dir id =>
    have hpos := hne id
    rw [Owner.blocks, h.mem_dir id, Nat.max_eq_right hpos] at hb
    exact hb
  | file id k =>
    obtain ⟨x, hx⟩ : ∃ x, (files id)[k]? = some x := ⟨_, getElem?_eq_getElem ho⟩
    rw [Owner.blocks, h.file_blocks hx] at hb
    exact (h.files.stored id k x hx).below b hb

theorem disjoint (hne : ∀ id, 0 < dirBlocks dirs id) {o o' : Owner} (ho : o.Valid files)
    (ho' : o'.Valid files) (hoo : o ≠ o') :
    List.Disjoint (o.blocks s.disk s.nblocks) (o'.blocks s.disk s.nblocks) := by
  intro b hb hb'
  have hs := h.mem_span hne ho hb
  have hs' := h.mem_span hne ho' hb'
  have hthree := h.three_le
  have hplace : ∀ id, first ≤ place first dirs id := by
    intro id
    cases id <;> simp only [place] <;> omega
  match o, o' with
  | .file id k, .file id' k' =>
    obtain ⟨x, hx⟩ : ∃ x, (files id)[k]? = some x := ⟨_, getElem?_eq_getElem ho⟩
    obtain ⟨x', hx'⟩ : ∃ x, (files id')[k']? = some x := ⟨_, getElem?_eq_getElem ho'⟩
    rw [Owner.blocks, h.file_blocks hx] at hb
    rw [Owner.blocks, h.file_blocks hx'] at hb'
    refine h.files.apart id k x id' k' x' hx hx' (fun heq => hoo ?_) hb hb'
    cases heq
    rfl
  | .dir id, .dir id' =>
    simp only [span] at hs hs'
    cases id <;> cases id' <;> first | exact hoo rfl | (simp only [place] at hs hs'; omega)
  | .dir id, .superblock | .dir id, .bitmap | .dir id, .file _ _ =>
    have := hplace id
    simp only [span] at hs hs'
    omega
  | .superblock, .dir id | .bitmap, .dir id | .file _ _, .dir id =>
    have := hplace id
    simp only [span] at hs hs'
    omega
  | .superblock, .superblock | .bitmap, .bitmap => exact hoo rfl
  | .superblock, .bitmap | .bitmap, .superblock | .superblock, .file _ _ | .bitmap, .file _ _
  | .file _ _, .superblock | .file _ _, .bitmap =>
    simp only [span] at hs hs'
    omega

end

end Laid

/-- No directory is empty, so each has a block of its own. -/
theorem Laid.dirBlocks_pos (h : Laid s first dirs files) (hne : ∀ id, id ≠ .root → files id ≠ [])
    (id : DirId) : 0 < dirBlocks dirs id := by
  have hn : 0 < (dirs id).n := by
    rw [h.files.count id]
    by_cases hid : id = .root
    · subst hid
      exact Nat.lt_of_lt_of_le (by decide) (Nat.le_add_right (base .root) _)
    · exact Nat.add_pos_right _ (List.length_pos_iff.mpr (hne id hid))
  simp only [dirBlocks, blocksFor, fileSize, blksize, pgsize]
  omega

theorem dirNames_short : ∀ name ∈ dirNames, name.length < maxnamelen := by decide

/-- **Sufficient**: no directory is empty and no name is too long. -/
theorem Laid.consistent (h : Laid s first dirs files) (hf : Formattable files) :
    Consistent s files := by
  obtain ⟨hne, hshort⟩ := hf
  have hpos := h.dirBlocks_pos hne
  refine ⟨fun o o' ho ho' hoo => h.disjoint hpos ho ho' hoo, fun o ho b hb => ?_,
    fun b hlo hb => h.free hlo hb, fun id k x hx => h.contents hx, fun id => ?_, fun id k hk => ?_⟩
  · -- all blocks are below the disk position
    have hs := h.mem_span hpos ho hb
    have hlt : b < place first dirs .root + dirBlocks dirs .root := by
      have hthree := h.three_le
      cases o with
      | superblock | bitmap | file =>
        simp only [Laid.span, place] at hs ⊢
        omega
      | dir id => cases id <;> simp only [Laid.span, place] at hs ⊢ <;> omega
    have hmax := hlt.trans (h.lt.trans_le (h.le.trans (show 10240 ≤ blkbitsize by decide)))
    rw [h.bits b hmax]
    exact decide_eq_false (Nat.not_le.mpr hlt)
  · rw [h.length_entries id]
    exact (h.dir id).fits
  · cases he : (entries files id)[k]? with
    | some e =>
      obtain ⟨hname, htype⟩ := h.entry he
      refine ⟨hname.hasName ?_, htype⟩
      have hmem := mem_of_getElem? he
      rw [entries, mem_append, mem_map] at hmem
      obtain hmem | ⟨x, hx, rfl⟩ := hmem
      · split at hmem
        · rw [mem_map] at hmem
          obtain ⟨name, hdir, rfl⟩ := hmem
          exact dirNames_short name hdir
        · cases hmem
      · exact hshort id x hx
    | none =>
      intro o ho
      have hge := List.getElem?_eq_none_iff.mp he
      rw [h.length_entries id] at hge
      have hn : 0 < (dirs id).n := by
        have := hpos id
        simp only [dirBlocks, blocksFor, fileSize, blksize, pgsize] at this
        omega
      exact (h.dir id).ent_zero hn hge hk ho

/-- The next directory to be finished. -/
def nextDir : DirId → DirId
  | .bin => .sbin
  | .sbin => .vmm
  | .vmm | .root => .root

/-- **Necessary**: an empty directory has the first block of the next one. -/
theorem Laid.formattable (h : Laid s first dirs files) (hc : Consistent s files) :
    Formattable files := by
  refine ⟨fun id hid hempty => ?_, fun id x hx => ?_⟩
  · have hn : (dirs id).n = 0 := by
      rw [h.files.count id, hempty]
      cases id <;> first | rfl | exact absurd rfl hid
    have hzero : dirBlocks dirs id = 0 := by
      rw [dirBlocks, hn]
      rfl
    have hnext : place first dirs (nextDir id) = place first dirs id := by
      cases id <;> simp_all [nextDir, place]
    have hne : Owner.dir id ≠ Owner.dir (nextDir id) := by
      cases id <;> simp_all [nextDir]
    refine hc.disjoint (.dir id) (.dir (nextDir id)) trivial trivial hne ((h.mem_dir id).mpr ?_)
      ((h.mem_dir (nextDir id)).mpr ⟨hnext.le, ?_⟩)
    · exact ⟨Nat.le_refl _, Nat.lt_add_of_pos_right (Nat.lt_of_lt_of_le Nat.one_pos (Nat.le_max_left ..))⟩
    · rw [hnext]
      exact Nat.lt_add_of_pos_right (Nat.lt_of_lt_of_le Nat.one_pos (Nat.le_max_left ..))
  · obtain ⟨k, hk⟩ := List.mem_iff_getElem?.mp hx
    have hlt := (List.getElem?_eq_some_iff.mp hk).1
    have he : (entries files id)[base id + k]? = some (x.1, ftypeReg) := by
      rw [entries, getElem?_append_right (by cases id <;> simp [base, dirNames]),
        getElem?_map, Option.map_eq_some_iff]
      refine ⟨x, ?_, rfl⟩
      rw [← hk]
      congr 1
      cases id <;> simp [base, dirNames]
    have hfit : base id + k < (fSize (dirFile s.disk id)).toNat / fileSize := by
      have hle := hc.fits id
      have hlen := (List.getElem?_eq_some_iff.mp he).1
      simp only [fileSize] at hle ⊢
      omega
    have hentry := hc.entries id _ hfit
    rw [he] at hentry
    exact hentry.1.1

theorem fsformat_laid {nblocks : Nat} (hrun : fsformat nblocks host args junk = .ok s) :
    ∃ first dirs, Laid s first dirs (filesOf host args .root) := by
  rw [fsformat] at hrun
  split at hrun
  · cases hrun
  · rename_i hnb
    split at hrun
    · rename_i hformat
      cases hrun
      exact format_laid (by omega) (by omega) hformat
    · cases hrun

/-- **The image is consistent** if and only if each directory has a file and each name is shorter
than `f_name`. -/
theorem fsformat_consistent {nblocks : Nat} (hrun : fsformat nblocks host args junk = .ok s) :
    Consistent s (filesOf host args .root) ↔ Formattable (filesOf host args .root) := by
  obtain ⟨first, dirs, h⟩ := fsformat_laid hrun
  exact ⟨h.formattable, h.consistent⟩

theorem exists_image {x : Except FmtPanic Fmt} (h : x.toOption.isSome = true) : ∃ s, x = .ok s := by
  cases x with
  | ok s => exact ⟨s, rfl⟩
  | error e => cases h

/-- An empty file in each of the directories. -/
theorem fsformat_consistent_three : ∃ s, fsformat 64 (fun _ => some [])
    [cstr "-b", cstr "ls", cstr "-sb", cstr "init", cstr "-g", cstr "kernel"] (fun _ _ _ => 0#8) =
      .ok s ∧ Consistent s (filesOf (fun _ => some [])
        [cstr "-b", cstr "ls", cstr "-sb", cstr "init", cstr "-g", cstr "kernel"] .root) := by
  obtain ⟨s, hs⟩ := exists_image (x := fsformat 64 (fun _ => some [])
    [cstr "-b", cstr "ls", cstr "-sb", cstr "init", cstr "-g", cstr "kernel"] (fun _ _ _ => 0#8))
    (by decide +kernel)
  refine ⟨s, hs, (fsformat_consistent hs).mpr ⟨fun id hid => ?_, fun id => ?_⟩⟩
  · cases id with
    | root => exact absurd rfl hid
    | bin | sbin | vmm => decide
  · cases id <;> decide

/-- Without any files, all directories have the one block of the root directory. -/
theorem emptyDir_shares : ∃ s, fsformat 64 (fun _ => none) [] (fun _ _ _ => 0#8) = .ok s ∧
    ¬ Consistent s (filesOf (fun _ => none) [] .root) := by
  obtain ⟨s, hs⟩ := exists_image (x := fsformat 64 (fun _ => none) [] (fun _ _ _ => 0#8))
    (by decide +kernel)
  obtain ⟨first, dirs, h⟩ := fsformat_laid hs
  exact ⟨s, hs, fun hc => (h.formattable hc).1 .bin nofun rfl⟩

end JosVmm
