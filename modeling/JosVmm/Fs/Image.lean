import JosVmm.Fs.Format
import Mathlib.Data.List.GetD

/-!
# File server — what the formatter makes

`fsformat` hands out blocks by moving the disk position: a state is `At p` when the position is the
start of block `p`, and each step moves it and leaves what lies below as it is (`SameBelow`).  So a
file that is written stays (`FileStored`), while the directories fill up in the formatter's own memory
(`HoldFiles`), and are put behind the files at the end (`DirOut`).

* `Fmt.At.writefile`, `HoldFiles.writefiles` — the files of the command line, one after the other;
* `Fmt.At.finishdir` — a directory gets a size of at least one block, and what blocks its entries need;
* `clearBits_spec` — the bitmap has in use what lies below the disk position.
-/

namespace JosVmm

open Function List Nat File
open Function (update_self update_of_ne)

open Support.Prog

variable {s s' : Fmt} {f f' d d' : Bytes} {n p lo k a b i q : Nat} {name content : List (BitVec 8)}
  {dir : Dir} {dirs : DirId → Dir} {files : DirId → List (List (BitVec 8) × List (BitVec 8))}

/-! ### Rounding -/

theorem roundupUint_toNat (hn : n ≤ 2 ^ 31) :
    (roundupUint (BitVec.ofNat 32 n)).toNat = blocksFor n * blksize := by
  cases n with
  | zero => decide
  | succ n =>
    have hsub : BitVec.ofNat 32 (n + 1) - 1#32 = BitVec.ofNat 32 n := by
      apply BitVec.eq_of_toNat_eq
      rw [BitVec.toNat_sub, BitVec.toNat_ofNat, BitVec.toNat_ofNat, BitVec.toNat_ofNat]
      omega
    rw [roundupUint, hsub, BitVec.toNat_sub, BitVec.toNat_add, BitVec.toNat_umod]
    simp only [BitVec.toNat_ofNat, blocksFor, blksize, pgsize, Nat.reducePow, Nat.reduceMod]
      at hn ⊢
    omega

theorem roundupInt_eq (n : Nat) : roundupInt n = (max 1 (blocksFor n) * blksize : Nat) := by
  rw [roundupInt]
  cases n with
  | zero => rfl
  | succ n =>
    have htmod : Int.tmod ((n + 1 : Nat) - 1) 4096 = (n % 4096 : Nat) := by
      rw [cast_succ, add_sub_cancel_right]
      rfl
    rw [htmod]
    simp only [blocksFor, blksize, pgsize]
    omega

/-! ### The disk position -/

/-- The next block is `p`.  The blocks from there on are zeros, and the bitmap has not been changed
yet. -/
structure Fmt.At (s : Fmt) (p : Nat) : Prop where
  pos : s.diskpos = p * blksize
  three_le : 3 ≤ p
  lt : p < s.nblocks
  le : s.nblocks ≤ 10240
  fresh : ∀ x, p * blksize ≤ x → s.disk x = 0#8
  bitmap : ∀ x, 2 * blksize ≤ x → x < 3 * blksize → s.disk x = 0xFF#8

/-- The image is the same below block `p`. -/
def SameBelow (p : Nat) (d d' : Bytes) : Prop := ∀ x, x < p * blksize → d' x = d x

theorem SameBelow.trans {d1 d2 d3 : Bytes} (h : SameBelow p d1 d2) (h' : SameBelow q d2 d3)
    (hpq : p ≤ q) : SameBelow p d1 d3 := fun x hx =>
  (h' x (hx.trans_le (Nat.mul_le_mul_right _ hpq))).trans (h x hx)

/-- **`alloc`** returns the next block. -/
theorem alloc_eq_ok (hn : n ≤ 2 ^ 31) (hrun : (alloc (BitVec.ofNat 32 n)).run s = .ok (a, s')) :
    a = s.diskpos ∧ s' = { s with diskpos := s.diskpos + blocksFor n * blksize } ∧
      (s.diskpos + blocksFor n * blksize) / blksize < s.nblocks := by
  rw [alloc, roundupUint_toNat hn, bind_get,
    bind_ok (show StateT.run (set _ : Fm PUnit) s = .ok ((), _) from rfl)] at hrun
  split at hrun
  · cases hrun
  · rename_i hlt
    cases hrun
    exact ⟨rfl, rfl, Nat.lt_of_not_le hlt⟩

theorem Fmt.At.alloc (h : s.At p) (hn : n ≤ 2 ^ 31)
    (hrun : (JosVmm.alloc (BitVec.ofNat 32 n)).run s = .ok (a, s')) :
    a = p * blksize ∧ s'.At (p + blocksFor n) ∧ s'.disk = s.disk ∧ s'.nblocks = s.nblocks := by
  obtain ⟨rfl, rfl, hlt⟩ := alloc_eq_ok hn hrun
  have hpos : s.diskpos + blocksFor n * blksize = (p + blocksFor n) * blksize := by
    rw [h.pos, Nat.add_mul]
  refine ⟨h.pos, ⟨hpos, h.three_le.trans (Nat.le_add_right ..), ?_, h.le, fun x hx => ?_, h.bitmap⟩,
    rfl, rfl⟩
  · rwa [hpos, Nat.mul_div_cancel _ (by decide)] at hlt
  · exact h.fresh x ((Nat.mul_le_mul_right _ (Nat.le_add_right ..)).trans hx)

/-- A change of the image that keeps to the blocks from `q` to `p`. -/
theorem Fmt.At.edit (h : s.At p) (hq : 3 ≤ q)
    (hg : ∀ x, ¬ (q * blksize ≤ x ∧ x < p * blksize) → d x = s.disk x) :
    ({ s with disk := d } : Fmt).At p := by
  refine ⟨h.pos, h.three_le, h.lt, h.le, fun x hx => ?_, fun x hlo hhi => ?_⟩
  · exact (hg x (by omega)).trans (h.fresh x hx)
  · refine (hg x fun hc => ?_).trans (h.bitmap x hlo hhi)
    have : 3 * blksize ≤ q * blksize := Nat.mul_le_mul_right _ hq
    omega

/-! ### Files -/

/-- The number of indirect blocks that a file of `n` bytes gets. -/
def indirects (n : Nat) : Nat := if ndirect ≤ blocksFor n then 1 else 0

/-- The `struct File` `f'` is `f`, for `n` bytes in the blocks from `lo` on, with the indirect block
`p`. -/
structure Finished (f f' d : Bytes) (n lo p : Nat) : Prop where
  size : (File.fSize f').toNat = n
  contiguous : File.Contiguous d f' lo
  indirect : ndirect ≤ blocksFor n → (fIndirect f').toNat = p
  rest : ∀ x, x < 128 ∨ 132 ≤ x ∧ x < 136 → f' x = f x

/-- The direct pointers that `finishfile` sets. -/
def withDirects (f : Bytes) (lo n : Nat) : Bytes :=
  storeWords (store32 f 128 (BitVec.ofNat 32 n)) 136
    (fun i => BitVec.ofNat 32 lo + BitVec.ofNat 32 i) (min (blocksFor n) ndirect)

theorem toNat_ofNat_add (h : a + b < 2 ^ 32) :
    (BitVec.ofNat 32 a + BitVec.ofNat 32 b).toNat = a + b := by
  rw [← BitVec.ofNat_add, BitVec.toNat_ofNat, mod_eq_of_lt h]

theorem withDirects_size (f : Bytes) (lo n : Nat) :
    File.fSize (withDirects f lo n) = BitVec.ofNat 32 n := by
  rw [File.fSize, withDirects, load32_storeWords_apart (by omega), load32_store32_self]

theorem withDirects_direct (hi : i < blocksFor n) (hd : i < ndirect)
    (hlo : lo + blocksFor n < 2 ^ 32) :
    (fDirect (withDirects f lo n) i).toNat = lo + i := by
  rw [fDirect, withDirects, load32_storeWords (by omega), toNat_ofNat_add (by omega)]

theorem withDirects_rest {x : Nat} (hx : x < 128 ∨ 132 ≤ x ∧ x < 136) :
    withDirects f lo n x = f x := by
  rw [withDirects, storeWords_of_not (by omega), store32_of_not (by omega)]

theorem blocksFor_le (hn : n ≤ maxfilesize) : blocksFor n ≤ 1034 := by
  simp only [maxfilesize, ndirect, nindirect, blocksFor, blksize, pgsize] at hn ⊢
  omega

/-- **`finishfile`** refers to the blocks from `lo` on, and takes the next block if it needs an
indirect one. -/
theorem Fmt.At.finishfile (h : s.At p) (hn : n ≤ maxfilesize) (hlo : lo ≤ p)
    (hrun : (JosVmm.finishfile f (BitVec.ofNat 32 lo) (BitVec.ofNat 32 n)).run s = .ok (f', s')) :
    s'.At (p + indirects n) ∧ SameBelow p s.disk s'.disk ∧ s'.nblocks = s.nblocks ∧
      Finished f f' s'.disk n lo p := by
  have hcount := blocksFor_le hn
  have hbound : lo + blocksFor n < 2 ^ 32 := by
    have h1 := h.lt
    have h2 := h.le
    omega
  have hn32 : n < 2 ^ 32 := lt_of_le_of_lt hn (by decide)
  have hround : (roundupUint (BitVec.ofNat 32 n)).toNat / blksize = blocksFor n := by
    rw [roundupUint_toNat (hn.trans (by decide)), Nat.mul_div_cancel _ (by decide)]
  have hsize : (BitVec.ofNat 32 n).toNat = n := by
    rw [BitVec.toNat_ofNat, mod_eq_of_lt hn32]
  rw [JosVmm.finishfile, hround] at hrun
  split at hrun
  · rename_i hind
    obtain ⟨ind, s1, halloc, hrest⟩ := bind_inv hrun
    obtain ⟨_, s2, hedit, hpure⟩ := bind_inv hrest
    obtain ⟨rfl, h1, hd1, hn1⟩ := h.alloc (by decide) halloc
    cases hedit
    cases hpure
    have hone : blocksFor blksize = 1 := rfl
    rw [hone] at h1
    rw [Nat.mul_div_cancel _ (by decide)]
    -- the words stay in the indirect block
    have hwords : ∀ x, ¬ (p * blksize ≤ x ∧ x < (p + 1) * blksize) →
        storeWords s1.disk (p * blksize) (fun i => BitVec.ofNat 32 lo + BitVec.ofNat 32 (ndirect + i))
          (blocksFor n - ndirect) x = s1.disk x := fun x hx => by
      refine storeWords_of_not fun hc => hx ?_
      simp only [ndirect, blksize, pgsize] at hc ⊢
      omega
    have hp32 : (BitVec.ofNat 32 p).toNat = p := by
      have h1 := h.lt
      have h2 := h.le
      rw [BitVec.toNat_ofNat, mod_eq_of_lt (by omega)]
    have hfsize : (File.fSize (store32 (withDirects f lo n) 176 (BitVec.ofNat 32 p))).toNat = n := by
      rw [File.fSize, load32_store32_apart (by omega)]
      exact (congrArg BitVec.toNat (withDirects_size f lo n)).trans hsize
    refine ⟨?_, fun x hx => ?_, hn1, ⟨hfsize, fun i hi => ?_, fun _ => ?_, fun x hx => ?_⟩⟩
    · rw [indirects, if_pos hind]
      exact h1.edit h.three_le hwords
    · exact (hwords x (by omega)).trans (congrFun hd1 x)
    · rw [File.nblocks] at hi
      change i < blocksFor (File.fSize (store32 (withDirects f lo n) 176 _)).toNat at hi
      rw [hfsize] at hi
      change File.blockAt _ (store32 (withDirects f lo n) 176 (BitVec.ofNat 32 p)) i = lo + i
      rw [File.blockAt]
      split
      · rename_i hd
        rw [fDirect, load32_store32_apart (by rw [ndirect] at hd; omega)]
        exact withDirects_direct hi hd hbound
      · rename_i hd
        rw [fIndirect, load32_store32_self, hp32, load32_storeWords (by omega),
          toNat_ofNat_add (by omega)]
        omega
    · rw [fIndirect, load32_store32_self, hp32]
    · rw [store32_of_not (by omega)]
      exact withDirects_rest hx
  · rename_i hind
    cases hrun
    have hfsize : (File.fSize (withDirects f lo n)).toNat = n :=
      (congrArg BitVec.toNat (withDirects_size f lo n)).trans hsize
    refine ⟨?_, fun _ _ => rfl, rfl, ⟨hfsize, fun i hi => ?_, fun h => absurd h hind,
      fun x hx => withDirects_rest hx⟩⟩
    · rw [indirects, if_neg hind]
      exact h
    · change i < blocksFor (File.fSize (withDirects f lo n)).toNat at hi
      rw [hfsize] at hi
      change File.blockAt _ (withDirects f lo n) i = lo + i
      rw [File.blockAt, if_pos (by omega)]
      exact withDirects_direct hi (by omega) hbound

/-- The bytes of `f_name` are those of the name, as far as they fit. -/
def NameBytes (f : Bytes) (name : List (BitVec 8)) : Prop :=
  ∀ i, i < maxnamelen → i ≤ name.length → f i = name.getD i 0#8

theorem NameBytes.hasName (h : NameBytes f name) (hlt : name.length < maxnamelen) :
    File.HasName f name := by
  refine ⟨hlt, fun i hi => ?_, ?_⟩
  · rw [h i (hi.trans hlt) hi.le, getD_eq_getElem name 0#8 hi]
  · rw [h _ hlt (Nat.le_refl _), getD_eq_default name 0#8 (Nat.le_refl _)]

/-- The file with this name and content is on the disk, in blocks below `p`. -/
structure FileStored (d : Bytes) (p : Nat) (f : Bytes) (name content : List (BitVec 8)) : Prop where
  name : NameBytes f name
  type : File.fType f = ftypeReg
  size : (File.fSize f).toNat = content.length
  small : content.length ≤ maxfilesize
  data : ∃ lo, File.Contiguous d f lo ∧ ∀ j, j < content.length →
    d (lo * blksize + j) = content.getD j 0#8
  below : ∀ b ∈ File.blocks d f, 3 ≤ b ∧ b < p

/-- The images agree on the blocks from 3 to `p`. -/
def Agree (p : Nat) (d d' : Bytes) : Prop := ∀ x, 3 * blksize ≤ x → x < p * blksize → d' x = d x

theorem SameBelow.agree (h : SameBelow p d d') : Agree p d d' := fun x _ hx => h x hx

theorem Agree.trans {d1 d2 d3 : Bytes} (h : Agree p d1 d2) (h' : Agree q d2 d3) (hpq : p ≤ q) :
    Agree p d1 d3 := fun x hlo hx =>
  (h' x hlo (hx.trans_le (Nat.mul_le_mul_right _ hpq))).trans (h x hlo hx)

theorem Agree.block {j : Nat} (h : Agree p d d') (hlo : 3 ≤ b) (hb : b < p) (hj : j < blksize) :
    d' (b * blksize + j) = d (b * blksize + j) := by
  refine h _ ?_ ?_
  · exact (Nat.mul_le_mul_right _ hlo).trans (Nat.le_add_right ..)
  · calc b * blksize + j < b * blksize + blksize := Nat.add_lt_add_left hj _
      _ = (b + 1) * blksize := (succ_mul ..).symm
      _ ≤ p * blksize := Nat.mul_le_mul_right _ hb

section

variable (h : Agree p d d') (hsmall : File.nblocks f ≤ 1034)
  (hb : ∀ b ∈ File.blocks d f, 3 ≤ b ∧ b < p)
include h hsmall hb

/-- The blocks of a file are found in its indirect block, which both images have. -/
theorem Agree.blockAt (hi : i < File.nblocks f) : File.blockAt d' f i = File.blockAt d f i := by
  rw [File.blockAt, File.blockAt]
  split
  · rfl
  · rename_i hd
    have hind : (fIndirect f).toNat ∈ File.blocks d f := by
      rw [File.blocks, if_pos (by omega)]
      simp
    obtain ⟨hlo, hhi⟩ := hb _ hind
    congr 1
    refine load32_congr fun j hj => ?_
    rw [Nat.add_assoc]
    refine h.block hlo hhi ?_
    simp only [ndirect, blksize, pgsize] at hd ⊢
    omega

theorem Agree.blocks : File.blocks d' f = File.blocks d f := by
  rw [File.blocks, File.blocks]
  congr 1
  exact map_congr_left fun i hi => h.blockAt hsmall hb (List.mem_range.mp hi)

end

theorem FileStored.nblocks_le (h : FileStored d p f name content) : File.nblocks f ≤ 1034 := by
  rw [File.nblocks, h.size]
  exact blocksFor_le h.small

/-- A file stays on the disk when its blocks do. -/
theorem FileStored.agree (h : FileStored d p f name content) (hd : Agree p d d') (hpq : p ≤ q) :
    FileStored d' q f name content where
  name := h.name
  type := h.type
  size := h.size
  small := h.small
  data := by
    obtain ⟨lo, hc, hdata⟩ := h.data
    refine ⟨lo, fun i hi => ?_, fun j hj => ?_⟩
    · rw [hd.blockAt h.nblocks_le h.below hi, hc i hi]
    · have hlt := lt_nblocks (h.size ▸ hj)
      obtain ⟨hlo, hhi⟩ := h.below (lo + j / blksize)
        (hc.mem_blocks.mpr (.inl ⟨Nat.le_add_right .., Nat.add_lt_add_left hlt _⟩))
      have hsplit : lo * blksize + j = (lo + j / blksize) * blksize + j % blksize := by
        rw [Nat.add_mul, Nat.add_assoc, Nat.mul_comm (j / blksize), div_add_mod]
      rw [← hdata j hj, hsplit]
      exact hd.block hlo hhi (mod_lt _ (by decide))
  below b hb := by
    rw [hd.blocks h.nblocks_le h.below] at hb
    obtain ⟨hlo, hhi⟩ := h.below b hb
    exact ⟨hlo, hhi.trans_le hpq⟩

theorem strcpy_name {m : Bytes} (name : List (BitVec 8)) (type : BitVec 32) :
    NameBytes (store32 (strcpy m 0 name) 132 type) name := by
  intro i hi hle
  rw [maxnamelen] at hi
  have hblit : blit m 0 (name.length + 1) (fun i => name.getD i 0#8) (0 + i) = name.getD i 0#8 :=
    blit_apply (by omega)
  rw [Nat.zero_add] at hblit
  rw [store32_of_not (by omega), strcpy, hblit]

theorem diradd_eq_ok {dir' : Dir} {type : BitVec 32}
    (hrun : (diradd dir type name).run s = .ok (dir', s')) :
    s' = s ∧ dir'.n = dir.n + 1 ∧ dir.n + 1 ≤ maxDirEnts ∧
      (NameBytes (dir'.ents dir.n) name ∧ File.fType (dir'.ents dir.n) = type) ∧
      ∀ k, k ≠ dir.n → dir'.ents k = dir.ents k := by
  rw [diradd] at hrun
  split at hrun
  · cases hrun
  · rename_i hroom
    cases hrun
    refine ⟨rfl, rfl, Nat.le_of_not_lt hroom, ?_, fun k hk => update_of_ne hk ..⟩
    dsimp only
    rw [update_self]
    exact ⟨strcpy_name name type, load32_store32_self ..⟩

theorem Finished.blocks_between (h : Finished f f' d n lo (lo + blocksFor n))
    (hb : b ∈ File.blocks d f') : lo ≤ b ∧ b < lo + blocksFor n + indirects n := by
  have hnb : File.nblocks f' = blocksFor n := by
    rw [File.nblocks, h.size]
  rw [h.contiguous.mem_blocks, hnb] at hb
  obtain ⟨hlo, hhi⟩ | ⟨hind, rfl⟩ := hb
  · exact ⟨hlo, hhi.trans_le (Nat.le_add_right ..)⟩
  · rw [h.indirect hind, indirects, if_pos hind]
    omega

theorem le_blocksFor (n : Nat) : n ≤ blocksFor n * blksize := by
  simp only [blocksFor, blksize, pgsize]
  omega

/-- Bytes go to blocks that were allocated for them. -/
theorem Fmt.At.fill (h : s.At (q + blocksFor n)) (hq : 3 ≤ q) (src : Nat → BitVec 8) :
    ({ s with disk := blit s.disk (q * blksize) n src } : Fmt).At (q + blocksFor n) ∧
      SameBelow q s.disk (blit s.disk (q * blksize) n src) := by
  have hle := le_blocksFor n
  refine ⟨h.edit hq fun x hx => blit_of_not fun hc => hx ?_, fun x hx => blit_of_not (by omega)⟩
  rw [Nat.add_mul]
  omega

/-- **`writefile`** stores the file in new blocks, and adds an entry for it. -/
theorem Fmt.At.writefile {host : List (BitVec 8) → Option (List (BitVec 8))} {dir' : Dir}
    (h : s.At p) (hrun : (JosVmm.writefile host dir name).run s = .ok (dir', s')) :
    ∃ content p', host name = some content ∧ p ≤ p' ∧ s'.At p' ∧ SameBelow p s.disk s'.disk ∧
      s'.nblocks = s.nblocks ∧ dir.n + 1 ≤ maxDirEnts ∧ dir'.n = dir.n + 1 ∧
      (∀ k, k ≠ dir.n → dir'.ents k = dir.ents k) ∧
      FileStored s'.disk p' (dir'.ents dir.n) (lastPart name) content ∧
      ∀ b ∈ File.blocks s'.disk (dir'.ents dir.n), p ≤ b := by
  rw [JosVmm.writefile] at hrun
  split at hrun
  · cases hrun
  split at hrun
  · cases hrun
  rename_i content hhost
  split at hrun
  · cases hrun
  rename_i hlarge
  have hsmall : content.length ≤ maxfilesize := by omega
  obtain ⟨d1, s1, hadd, hrun⟩ := bind_inv hrun
  obtain ⟨start, s2, halloc, hrun⟩ := bind_inv hrun
  obtain ⟨_, s3, hedit, hrun⟩ := bind_inv hrun
  obtain ⟨f, s4, hfinish, hpure⟩ := bind_inv hrun
  clear hrun
  obtain ⟨rfl, hn1, hroom, ⟨hname, htype⟩, hents⟩ := diradd_eq_ok hadd
  cases hpure
  obtain ⟨rfl, h2, hd2, hn2⟩ := h.alloc (hsmall.trans (by decide)) halloc
  cases hedit
  rw [Nat.mul_div_cancel _ (by decide)] at hfinish
  dsimp only at hfinish ⊢
  rw [update_self]
  obtain ⟨h3, hfill⟩ := h2.fill h.three_le fun i => content.getD i 0#8
  obtain ⟨h4, hsame, hn4, hfin⟩ := h3.finishfile hsmall (Nat.le_add_right ..) hfinish
  have hbelow : SameBelow p s2.disk s'.disk := hfill.trans hsame (Nat.le_add_right ..)
  rw [hd2] at hbelow
  refine ⟨content, _, hhost, ?_, h4, hbelow, hn4.trans hn2, hroom, hn1,
    fun k hk => ?_, ⟨fun i hi hle => ?_, ?_, hfin.size, hsmall, ⟨p, hfin.contiguous, fun j hj => ?_⟩,
      fun b hb => ?_⟩, fun b hb => (hfin.blocks_between hb).1⟩
  · omega
  · rw [update_of_ne hk, hents k hk]
  · rw [hfin.rest i (.inl hi), hname i hi hle]
  · rw [← htype]
    exact load32_congr fun i hi => hfin.rest _ (.inr (by omega))
  · have hle := le_blocksFor content.length
    rw [hsame _ (by rw [Nat.add_mul]; omega)]
    dsimp only
    exact blit_apply hj
  · obtain ⟨hlo, hhi⟩ := hfin.blocks_between hb
    exact ⟨h.three_le.trans hlo, hhi⟩

/-! ### Directories -/

/-- The directories that the root directory starts with. -/
def dirNames : List (List (BitVec 8)) := [cstr "bin", cstr "sbin", cstr "vmm"]

/-- The number of entries of a directory before its first file. -/
def base : DirId → Nat
  | .root => 3
  | .bin | .sbin | .vmm => 0

/-- The files that the arguments put into each directory: their names and contents. -/
def filesOf (host : List (BitVec 8) → Option (List (BitVec 8))) :
    List (List (BitVec 8)) → DirId → DirId → List (List (BitVec 8) × List (BitVec 8))
  | [], _ => fun _ => []
  | arg :: args, flag =>
    match optionOf arg with
    | some flag => filesOf host args flag
    | none => update (filesOf host args flag) flag
        ((lastPart arg, (host arg).getD []) :: filesOf host args flag flag)

/-- The entries of the directories are the files, on the disk, in blocks of their own. -/
structure HoldFiles (d : Bytes) (p : Nat) (dirs : DirId → Dir)
    (files : DirId → List (List (BitVec 8) × List (BitVec 8))) : Prop where
  count : ∀ id, (dirs id).n = base id + (files id).length
  room : ∀ id, (dirs id).n ≤ maxDirEnts
  stored : ∀ id k x, (files id)[k]? = some x → FileStored d p ((dirs id).ents (base id + k)) x.1 x.2
  apart : ∀ id k x id' k' x', (files id)[k]? = some x → (files id')[k']? = some x' →
    (id, k) ≠ (id', k') → List.Disjoint (File.blocks d ((dirs id).ents (base id + k)))
      (File.blocks d ((dirs id').ents (base id' + k')))
  heads : ∀ k name, dirNames[k]? = some name →
    NameBytes ((dirs .root).ents k) name ∧ File.fType ((dirs .root).ents k) = ftypeDir

theorem SameBelow.blocks (h : SameBelow p d d') (hs : FileStored d p f name content) :
    File.blocks d' f = File.blocks d f := h.agree.blocks hs.nblocks_le hs.below

/-- **A file is added** to one of the directories. -/
theorem HoldFiles.add {flag : DirId} (h : HoldFiles d p dirs files) (hd : SameBelow p d d')
    (hpq : p ≤ q) (hroom : (dirs flag).n + 1 ≤ maxDirEnts) (hn : dir.n = (dirs flag).n + 1)
    (hents : ∀ k, k ≠ (dirs flag).n → dir.ents k = (dirs flag).ents k)
    (hstored : FileStored d' q (dir.ents (dirs flag).n) name content)
    (hnew : ∀ b ∈ File.blocks d' (dir.ents (dirs flag).n), p ≤ b) :
    HoldFiles d' q (update dirs flag dir)
      (update files flag (files flag ++ [(name, content)])) := by
  -- an entry is one of the old ones, or the new one
  have hcases : ∀ id k x, (update files flag (files flag ++ [(name, content)]) id)[k]? =
      some x → ((files id)[k]? = some x ∧
        (update dirs flag dir id).ents (base id + k) = (dirs id).ents (base id + k)) ∨
      (id = flag ∧ k = (files flag).length ∧ x = (name, content) ∧
        (update dirs flag dir id).ents (base id + k) = dir.ents (dirs flag).n) := by
    intro id k x hx
    by_cases hid : id = flag
    · subst hid
      rw [update_self] at hx ⊢
      rcases Nat.lt_trichotomy k (files id).length with hlt | rfl | hgt
      · rw [getElem?_append_left hlt] at hx
        exact .inl ⟨hx, hents _ (by have := h.count id; omega)⟩
      · rw [getElem?_concat_length] at hx
        cases hx
        exact .inr ⟨rfl, rfl, rfl, by rw [h.count id]⟩
      · rw [getElem?_eq_none (by rw [length_append]; exact hgt)] at hx
        cases hx
    · rw [update_of_ne hid] at hx ⊢
      exact .inl ⟨hx, rfl⟩
  have hold : ∀ id k x, (files id)[k]? = some x →
      File.blocks d' ((dirs id).ents (base id + k)) = File.blocks d ((dirs id).ents (base id + k)) :=
    fun id k x hx => hd.blocks (h.stored id k x hx)
  -- the blocks of the new file are all new
  have hapart : ∀ id k x, (files id)[k]? = some x →
      List.Disjoint (File.blocks d' ((dirs id).ents (base id + k)))
        (File.blocks d' (dir.ents (dirs flag).n)) := by
    intro id k x hx b hb hb'
    rw [hold id k x hx] at hb
    have hlt := ((h.stored id k x hx).below b hb).2
    have hle := hnew b hb'
    omega
  refine ⟨fun id => ?_, fun id => ?_, fun id k x hx => ?_, fun id k x id' k' x' hx hx' hne => ?_,
    fun k name hk => ?_⟩
  · by_cases hid : id = flag
    · subst hid
      rw [update_self, update_self, hn, h.count id, length_append]
      rfl
    · rw [update_of_ne hid, update_of_ne hid]
      exact h.count id
  · by_cases hid : id = flag
    · subst hid
      rw [update_self, hn]
      exact hroom
    · rw [update_of_ne hid]
      exact h.room id
  · obtain ⟨hx, he⟩ | ⟨rfl, rfl, rfl, he⟩ := hcases id k x hx
    · rw [he]
      exact (h.stored id k x hx).agree hd.agree hpq
    · rw [he]
      exact hstored
  · obtain ⟨hx1, he⟩ | ⟨rfl, rfl, rfl, he⟩ := hcases id k x hx
    · obtain ⟨hx1', he'⟩ | ⟨rfl, rfl, rfl, he'⟩ := hcases id' k' x' hx'
      · rw [he, he', hold id k x hx1, hold id' k' x' hx1']
        exact h.apart id k x id' k' x' hx1 hx1' hne
      · rw [he, he']
        exact hapart id k x hx1
    · obtain ⟨hx1', he'⟩ | ⟨rfl, rfl, rfl, he'⟩ := hcases id' k' x' hx'
      · rw [he, he']
        exact (hapart id' k' x' hx1').symm
      · exact absurd rfl hne
  · have hlt : k < 3 := (List.getElem?_eq_some_iff.mp hk).1
    by_cases hid : DirId.root = flag
    · subst hid
      rw [update_self, hents k (by have := h.count .root; rw [base] at this; omega)]
      exact h.heads k name hk
    · rw [update_of_ne hid]
      exact h.heads k name hk

/-- **The files of the command line** are all stored. -/
theorem HoldFiles.writefiles {host : List (BitVec 8) → Option (List (BitVec 8))}
    {args : List (List (BitVec 8))} {flag : DirId} {dirs' : DirId → Dir}
    (h : HoldFiles s.disk p dirs files) (hs : s.At p)
    (hrun : (JosVmm.writefiles host args flag dirs).run s = .ok (dirs', s')) :
    ∃ p', p ≤ p' ∧ s'.At p' ∧ s'.nblocks = s.nblocks ∧ SameBelow p s.disk s'.disk ∧
      HoldFiles s'.disk p' dirs' fun id => files id ++ filesOf host args flag id := by
  induction args generalizing s p flag dirs files with
  | nil =>
    cases hrun
    refine ⟨p, Nat.le_refl p, hs, rfl, fun _ _ => rfl, ?_⟩
    simpa [filesOf] using h
  | cons arg args ih =>
    rw [JosVmm.writefiles] at hrun
    split at hrun
    · rename_i flag' hopt
      rw [filesOf, hopt]
      exact ih h hs hrun
    · rename_i hopt
      obtain ⟨dir, s1, hwrite, hrest⟩ := bind_inv hrun
      obtain ⟨content, p1, hhost, hp1, hs1, hd1, hn1, hroom, hn, hents, hst, hnew⟩ :=
        hs.writefile hwrite
      obtain ⟨p', hp', hs', hn', hd', h'⟩ :=
        ih (h.add hd1 hp1 hroom hn hents hst hnew) hs1 hrest
      refine ⟨p', hp1.trans hp', hs', hn'.trans hn1, hd1.trans hd' hp1, ?_⟩
      have hfiles : (fun id => update files flag (files flag ++ [(lastPart arg, content)]) id
          ++ filesOf host args flag id) = fun id => files id ++ filesOf host (arg :: args) flag id := by
        funext id
        rw [filesOf, hopt, hhost]
        dsimp only
        by_cases hid : id = flag
        · subst hid
          rw [update_self, update_self, append_assoc]
          rfl
        · rw [update_of_ne hid, update_of_ne hid]
      exact hfiles ▸ h'

/-- The directory is on the disk from block `lo` on, and `f` is its `struct File`. -/
structure DirOut (d f : Bytes) (dir : Dir) (lo : Nat) : Prop where
  size : (File.fSize f).toNat = max 1 (blocksFor (dir.n * fileSize)) * blksize
  contiguous : File.Contiguous d f lo
  data : ∀ x, x < blocksFor (dir.n * fileSize) * blksize → d (lo * blksize + x) =
    if x < dir.n * fileSize then dir.ents (x / fileSize) (x % fileSize) else 0#8

theorem blocksFor_mul (m : Nat) : blocksFor (m * blksize) = m := by
  simp only [blocksFor, blksize, pgsize]
  omega

theorem DirOut.nblocks (h : DirOut d f dir lo) :
    File.nblocks f = max 1 (blocksFor (dir.n * fileSize)) := by
  rw [File.nblocks, h.size, blocksFor_mul]

theorem blocksFor_dir (hn : dir.n ≤ maxDirEnts) : blocksFor (dir.n * fileSize) ≤ 8 := by
  simp only [maxDirEnts, blocksFor, fileSize, blksize, pgsize] at hn ⊢
  omega

/-- **`finishdir`** writes the entries to new blocks; the directory's size is at least that of one
block, also when no block was allocated. -/
theorem Fmt.At.finishdir (h : s.At p) (hn : dir.n ≤ maxDirEnts)
    (hrun : (JosVmm.finishdir dir f).run s = .ok (f', s')) :
    s'.At (p + blocksFor (dir.n * fileSize)) ∧ SameBelow p s.disk s'.disk ∧
      s'.nblocks = s.nblocks ∧ DirOut s'.disk f' dir p ∧
      ∀ x, x < 128 ∨ 132 ≤ x ∧ x < 136 → f' x = f x := by
  have hfew := blocksFor_dir hn
  have hsize : dir.n * fileSize ≤ 2 ^ 31 := by
    simp only [maxDirEnts, fileSize] at hn ⊢
    omega
  rw [JosVmm.finishdir] at hrun
  obtain ⟨start, s1, halloc, hrun⟩ := bind_inv hrun
  obtain ⟨_, s2, hedit, hfinish⟩ := bind_inv hrun
  obtain ⟨rfl, h1, hd1, hn1⟩ := h.alloc hsize halloc
  cases hedit
  rw [Nat.mul_div_cancel _ (by decide), roundupInt_eq, BitVec.ofInt_natCast] at hfinish
  obtain ⟨h2, hfill⟩ := h1.fill h.three_le fun o => dir.ents (o / fileSize) (o % fileSize)
  have hmax : max 1 (blocksFor (dir.n * fileSize)) * blksize ≤ maxfilesize := by
    simp only [maxfilesize, ndirect, nindirect, blksize, pgsize]
    omega
  obtain ⟨h3, hsame, hn3, hfin⟩ := h2.finishfile hmax (Nat.le_add_right ..) hfinish
  have hnone : indirects (max 1 (blocksFor (dir.n * fileSize)) * blksize) = 0 := by
    rw [indirects, blocksFor_mul, if_neg (by rw [ndirect]; omega)]
  rw [hnone, Nat.add_zero] at h3
  refine ⟨h3, hd1 ▸ hfill.trans hsame (Nat.le_add_right ..), hn3.trans hn1,
    ⟨hfin.size, hfin.contiguous, fun x hx => ?_⟩, hfin.rest⟩
  rw [hsame _ (by rw [Nat.add_mul]; omega)]
  dsimp only
  split
  · rename_i hlt
    exact blit_apply hlt
  · rename_i hge
    rw [blit_of_not (by omega), hd1]
    exact h.fresh _ (Nat.le_add_right ..)

/-! ### Structures of the same bytes -/

/-- Two `struct File`s of the same bytes. -/
def SameFile (f f' : Bytes) : Prop := ∀ o, o < fileSize → f' o = f o

namespace SameFile

section

variable (h : SameFile f f')
include h

theorem word (ha : a + 4 ≤ fileSize) : load32 f' a = load32 f a :=
  load32_congr fun i hi => h _ (by omega)

theorem fSize : File.fSize f' = File.fSize f := h.word (by decide)

theorem fType : File.fType f' = File.fType f := h.word (by decide)

theorem nblocks : File.nblocks f' = File.nblocks f := by
  rw [File.nblocks, File.nblocks, h.fSize]

theorem blockAt (i : Nat) : File.blockAt d f' i = File.blockAt d f i := by
  rw [File.blockAt, File.blockAt]
  split
  · rename_i hi
    rw [fDirect, fDirect, h.word (by simp only [ndirect, fileSize] at hi ⊢; omega)]
  · rw [fIndirect, fIndirect, h.word (by decide)]

theorem blocks : File.blocks d f' = File.blocks d f := by
  have hfun : File.blockAt d f' = File.blockAt d f := funext h.blockAt
  rw [File.blocks, File.blocks, h.nblocks, hfun, fIndirect, fIndirect, h.word (by decide)]

theorem byteAt (j : Nat) : File.byteAt d f' j = File.byteAt d f j := by
  rw [File.byteAt, File.byteAt, h.blockAt]

theorem dirOut (hd : DirOut d f dir lo) : DirOut d f' dir lo where
  size := by rw [h.fSize, hd.size]
  contiguous i hi := by rw [h.blockAt, hd.contiguous i (h.nblocks ▸ hi)]
  data := hd.data

theorem ent (k : Nat) : File.ent d f' k = File.ent d f k :=
  funext fun _ => h.byteAt _

theorem nameBytes (hn : NameBytes f name) : NameBytes f' name := fun i hi hle =>
  (h i (hi.trans (by decide))).trans (hn i hi hle)

end

end SameFile

theorem Dir.lt_fits {o : Nat} (hk : k < dir.n) (ho : o < fileSize) :
    fileSize * k + o < dir.n * fileSize := by
  simp only [fileSize] at ho ⊢
  omega

section

variable (h : DirOut d f dir lo)
include h

theorem DirOut.fits : dir.n * fileSize ≤ (File.fSize f).toNat := by
  rw [h.size]
  exact (le_blocksFor _).trans (Nat.mul_le_mul_right _ (Nat.le_max_right ..))

/-- **The entries of a directory** are read back. -/
theorem DirOut.ent (hk : k < dir.n) : SameFile (dir.ents k) (File.ent d f k) := by
  intro o ho
  have hlt := Dir.lt_fits hk ho
  have hdiv : (fileSize * k + o) / fileSize = k := by
    simp only [fileSize] at ho ⊢
    omega
  have hmod : (fileSize * k + o) % fileSize = o := by
    simp only [fileSize] at ho ⊢
    omega
  rw [File.ent, h.contiguous.byteAt (hlt.trans_le h.fits),
    h.data _ (hlt.trans_le (le_blocksFor _)), if_pos hlt, hdiv, hmod]

/-- Behind the entries there are zeros, if a block was allocated. -/
theorem DirOut.ent_zero {o : Nat} (hn : 0 < dir.n) (hk : dir.n ≤ k)
    (hsize : k < (File.fSize f).toNat / fileSize) (ho : o < fileSize) : File.ent d f k o = 0#8 := by
  have hpos : 1 ≤ blocksFor (dir.n * fileSize) := by
    simp only [blocksFor, fileSize, blksize, pgsize]
    omega
  have hlt : fileSize * k + o < (File.fSize f).toNat := by
    simp only [fileSize] at hsize ho ⊢
    omega
  have hge : ¬ fileSize * k + o < dir.n * fileSize := by
    simp only [fileSize]
    omega
  rw [File.ent, h.contiguous.byteAt hlt]
  rw [h.size, Nat.max_eq_right hpos] at hlt
  rw [h.data _ hlt, if_neg hge]

theorem DirOut.mem_blocks (hn : dir.n ≤ maxDirEnts) :
    b ∈ File.blocks d f ↔ lo ≤ b ∧ b < lo + max 1 (blocksFor (dir.n * fileSize)) := by
  have hfew := blocksFor_dir hn
  rw [h.contiguous.mem_blocks, h.nblocks, or_iff_left]
  rintro ⟨hind, -⟩
  rw [ndirect] at hind
  omega

theorem DirOut.agree (hn : dir.n ≤ maxDirEnts) (hd : Agree q d d') (hlo : 3 ≤ lo)
    (hq : lo + blocksFor (dir.n * fileSize) ≤ q) :
    DirOut d' f dir lo where
  size := h.size
  contiguous i hi := by
    have hfew := blocksFor_dir hn
    have hdirect : i < ndirect := by
      rw [h.nblocks] at hi
      rw [ndirect]
      omega
    rw [← h.contiguous i hi, File.blockAt, File.blockAt, if_pos hdirect, if_pos hdirect]
  data x hx := by
    rw [← h.data x hx]
    refine hd _ ((Nat.mul_le_mul_right _ hlo).trans (Nat.le_add_right ..)) ?_
    refine lt_of_lt_of_le ?_ (Nat.mul_le_mul_right _ hq)
    rw [Nat.add_mul]
    omega

end

/-! ### The whole disk -/

theorem getLsbD_clear (w : BitVec 32) {j : Nat} (hj : j < 32) :
    (w &&& ~~~(1#32 <<< i)).getLsbD j = (w.getLsbD j && decide (j ≠ i)) := by
  rw [BitVec.getLsbD_and, BitVec.getLsbD_not, BitVec.getLsbD_shiftLeft, BitVec.getLsbD_one]
  by_cases hlt : j < i
  · have hne : j ≠ i := by omega
    simp [hj, hlt, hne]
  · by_cases heq : j = i
    · subst heq
      simp [hj]
    · have hsub : j - i ≠ 0 := by omega
      simp [hj, hlt, heq, hsub]

theorem bitAddr_inside (hb : b < blkbitsize) :
    2 * blksize ≤ bitAddr b ∧ bitAddr b + 4 ≤ 3 * blksize := by
  simp only [bitAddr, blkbitsize, blksize, pgsize] at hb ⊢
  omega

/-- **The bitmap** after the loop of `finishdisk`. -/
theorem clearBits_spec (hd : ∀ x, 2 * blksize ≤ x → x < 3 * blksize → d x = 0xFF#8)
    (hn : n ≤ blkbitsize) : (∀ b < blkbitsize, blockFree (clearBits d n) b = decide (n ≤ b)) ∧
      ∀ x, ¬ (2 * blksize ≤ x ∧ x < 3 * blksize) → clearBits d n x = d x := by
  induction n with
  | zero =>
    refine ⟨fun b hb => ?_, fun _ _ => rfl⟩
    obtain ⟨hlo, hhi⟩ := bitAddr_inside hb
    have hword : load32 d (bitAddr b) = 0xFFFFFFFF#32 := by
      have hbyte : ∀ i < 4, d (bitAddr b + i) = 0xFF#8 := fun i hi =>
        hd _ (by omega) (by omega)
      rw [load32, hbyte 3 (by decide), hbyte 2 (by decide), hbyte 1 (by decide),
        show d (bitAddr b) = 0xFF#8 from hbyte 0 (by decide)]
      rfl
    have hmod : b % 32 < 32 := mod_lt _ (by decide)
    rw [clearBits, blockFree, hword, show (0xFFFFFFFF#32) = BitVec.allOnes 32 from rfl,
      BitVec.getLsbD_allOnes]
    simp [hmod]
  | succ n ih =>
    obtain ⟨hbits, hrest⟩ := ih (by omega)
    obtain ⟨hlo, hhi⟩ := bitAddr_inside (show n < blkbitsize by omega)
    refine ⟨fun b hb => ?_, fun x hx => ?_⟩
    · have hmod : b % 32 < 32 := mod_lt _ (by decide)
      have hb' := hbits b hb
      rw [blockFree] at hb'
      rw [clearBits, blockFree]
      by_cases hsame : b / 32 = n / 32
      · have haddr : bitAddr b = bitAddr n := by rw [bitAddr, bitAddr, hsame]
        rw [haddr] at hb' ⊢
        rw [load32_store32_self, getLsbD_clear _ hmod, hb', ← Bool.decide_and]
        exact decide_eq_decide.mpr (by omega)
      · have hap : bitAddr n + 4 ≤ bitAddr b ∨ bitAddr b + 4 ≤ bitAddr n := by
          simp only [bitAddr]
          omega
        rw [load32_store32_apart hap, hb']
        exact decide_eq_decide.mpr (by omega)
    · rw [clearBits, store32_of_not (by omega)]
      exact hrest x hx

theorem writeSuper_of_not {super nblocks x : Nat} (hx : ¬ (super ≤ x ∧ x < super + blksize)) :
    writeSuper d super nblocks x = d x := by
  have hlen : (cstr "/").length = 1 := rfl
  simp only [blksize, pgsize] at hx
  rw [writeSuper, strcpy, hlen, blit_of_not (by omega), store32_of_not (by omega),
    store32_of_not (by omega), store32_of_not (by omega)]

/-- **`opendisk`** leaves the three first blocks. -/
theorem opendisk_at {nblocks : Nat} (hle : nblocks ≤ 10240) (hlo : 2 ≤ nblocks)
    (hrun : opendisk.run ⟨nblocks, fun _ => 0#8, 0⟩ = .ok ((), s)) : s.At 3 ∧ s.nblocks = nblocks := by
  have hone : (nblocks + blkbitsize - 1) / blkbitsize = 1 := by
    simp only [blkbitsize, blksize, pgsize]
    omega
  rw [opendisk, bind_get] at hrun
  obtain ⟨a1, s1, h1, hrun⟩ := bind_inv hrun
  obtain ⟨a2, s2, h2, hrun⟩ := bind_inv hrun
  obtain ⟨_, s3, h3, hrun⟩ := bind_inv hrun
  obtain ⟨a4, s4, h4, h5⟩ := bind_inv hrun
  dsimp only at h4 h5
  rw [hone, Nat.one_mul] at h4 h5
  obtain ⟨rfl, rfl, -⟩ := alloc_eq_ok (by decide) h1
  obtain ⟨rfl, rfl, -⟩ := alloc_eq_ok (by decide) h2
  cases h3
  obtain ⟨rfl, rfl, hlt⟩ := alloc_eq_ok (by decide) h4
  cases h5
  clear hrun h1 h2 h4
  have hblk : blocksFor blksize * blksize = blksize := by decide
  dsimp only at hlt ⊢
  rw [hblk, Nat.zero_add, ← Nat.two_mul, ← succ_mul] at hlt ⊢
  rw [Nat.mul_div_cancel _ (by decide)] at hlt
  refine ⟨⟨rfl, Nat.le_refl 3, hlt, hle, fun x hx => ?_, fun x hx hx' => ?_⟩, rfl⟩
  · dsimp only
    rw [blit_of_not (by omega), writeSuper_of_not (by omega)]
  · dsimp only
    exact if_pos (by omega)

/-- The place of a directory in the root directory. -/
def entryOf : DirId → Nat
  | .bin => 0
  | .sbin => 1
  | .vmm => 2
  | .root => 3

theorem HoldFiles.agree (h : HoldFiles d p dirs files) (hd : Agree p d d') :
    HoldFiles d' p dirs files where
  count := h.count
  room := h.room
  stored id k x hx := (h.stored id k x hx).agree hd (Nat.le_refl p)
  apart id k x id' k' x' hx hx' hne := by
    have hs := h.stored id k x hx
    have hs' := h.stored id' k' x' hx'
    rw [hd.blocks hs.nblocks_le hs.below, hd.blocks hs'.nblocks_le hs'.below]
    exact h.apart id k x id' k' x' hx hx' hne
  heads := h.heads

/-- One of the first entries of the root directory gets another size and other blocks. -/
theorem HoldFiles.head (h : HoldFiles d p dirs files) (hk : k < 3)
    (hf : ∀ x, x < 128 ∨ 132 ≤ x ∧ x < 136 → f x = (dirs .root).ents k x) :
    HoldFiles d p (update dirs .root
      ⟨update (dirs .root).ents k f, (dirs .root).n⟩) files := by
  have hn : ∀ id, (update dirs .root
      ⟨update (dirs .root).ents k f, (dirs .root).n⟩ id).n = (dirs id).n := fun id => by
    by_cases hid : id = .root
    · subst hid
      rw [update_self]
    · rw [update_of_ne hid]
  have hents : ∀ id j, (update dirs .root
      ⟨update (dirs .root).ents k f, (dirs .root).n⟩ id).ents (base id + j) =
        (dirs id).ents (base id + j) := fun id j => by
    by_cases hid : id = .root
    · subst hid
      rw [update_self]
      exact update_of_ne (by rw [base]; omega) ..
    · rw [update_of_ne hid]
  refine ⟨fun id => (hn id).trans (h.count id), fun id => (hn id).trans_le (h.room id),
    fun id j x hx => ?_, fun id j x id' j' x' hx hx' hne => ?_, fun j name hj => ?_⟩
  · rw [hents]
    exact h.stored id j x hx
  · rw [hents, hents]
    exact h.apart id j x id' j' x' hx hx' hne
  · rw [update_self]
    by_cases hjk : j = k
    · subst hjk
      obtain ⟨hname, htype⟩ := h.heads j name hj
      dsimp only
      rw [update_self]
      refine ⟨fun i hi hle => (hf i (.inl hi)).trans (hname i hi hle), ?_⟩
      rw [← htype]
      exact load32_congr fun i hi => hf _ (.inr (by omega))
    · dsimp only
      rw [update_of_ne hjk]
      exact h.heads j name hj

/-- **A directory is finished** and its entry in the root directory refers to it. -/
theorem HoldFiles.finishEntry {dirs' : DirId → Dir} {id : DirId} (h : HoldFiles s.disk p dirs files)
    (hs : s.At q) (hpq : p ≤ q) (hk : k < 3)
    (hrun : (JosVmm.finishEntry dirs id k).run s = .ok (dirs', s')) :
    s'.At (q + blocksFor ((dirs id).n * fileSize)) ∧ SameBelow q s.disk s'.disk ∧
      s'.nblocks = s.nblocks ∧ HoldFiles s'.disk p dirs' files ∧
      DirOut s'.disk ((dirs' .root).ents k) (dirs id) q ∧ (∀ id, id ≠ .root → dirs' id = dirs id) ∧
      (dirs' .root).n = (dirs .root).n ∧ ∀ j, j ≠ k → (dirs' .root).ents j = (dirs .root).ents j := by
  obtain ⟨f, s1, hfinish, hpure⟩ := bind_inv hrun
  cases hpure
  obtain ⟨h1, hsame, hn, hout, hrest⟩ := hs.finishdir (h.room id) hfinish
  have hagree : Agree p s.disk s'.disk := fun x _ hx =>
    hsame x (hx.trans_le (Nat.mul_le_mul_right _ hpq))
  refine ⟨h1, hsame, hn, (h.agree hagree).head hk hrest, ?_, fun id hid => update_of_ne hid ..,
    ?_, fun j hj => ?_⟩
  · rw [update_self]
    dsimp only
    rw [update_self]
    exact hout
  · rw [update_self]
  · rw [update_self]
    exact update_of_ne hj ..

/-- The first entries of the root directory. -/
theorem HoldFiles.start {root1 root2 root3 : Dir} {junk : DirId → Nat → Bytes} {s1 s2 s3 : Fmt}
    (h1 : (diradd ⟨junk .root, 0⟩ ftypeDir (cstr "bin")).run s = .ok (root1, s1))
    (h2 : (diradd root1 ftypeDir (cstr "sbin")).run s1 = .ok (root2, s2))
    (h3 : (diradd root2 ftypeDir (cstr "vmm")).run s2 = .ok (root3, s3)) :
    s3 = s ∧ HoldFiles s.disk p (update (fun id => ⟨junk id, 0⟩) .root root3) fun _ => [] := by
  obtain ⟨rfl, hn1, -, hnew1, -⟩ := diradd_eq_ok h1
  obtain ⟨rfl, hn2, -, hnew2, hold2⟩ := diradd_eq_ok h2
  obtain ⟨rfl, hn3, hroom, hnew3, hold3⟩ := diradd_eq_ok h3
  rw [hn1] at hn2 hnew2 hold2
  rw [hn2] at hn3 hnew3 hold3 hroom
  dsimp only at hnew1 hnew2 hold2 hnew3 hold3
  refine ⟨rfl, fun id => ?_, fun id => ?_, nofun, nofun, fun k name hk => ?_⟩
  · cases id with
    | root => rw [update_self, hn3]; rfl
    | bin | sbin | vmm => rfl
  · cases id with
    | root => rw [update_self, hn3]; exact hroom
    | bin | sbin | vmm => exact Nat.zero_le _
  · rw [update_self]
    match k, hk with
    | 0, rfl =>
      rw [hold3 0 (by decide), hold2 0 (by decide)]
      exact hnew1
    | 1, rfl =>
      rw [hold3 1 (by decide)]
      exact hnew2
    | 2, rfl => exact hnew3

end JosVmm
