import JosVmm.User.Spawn

/-!
# User library — the segments of a program

What `map_segment` has done when it returns 0.  Each round gives the child one new page: with bytes
of the file, as many as `readn` finds, or a blank one (`Given`), and the rounds together give it the
pages from the one of `va` on (`Loaded`).

`map_segment` does not look at how many bytes `readn` has read, so for a file that ends too early it
returns 0 with zeros in the place of the missing bytes.  It adds `PGOFF(va)` to the size before it
looks for a page to map, so for a size of 0 it maps a page if `va` is in the middle of one.
`mapSegment_loads` says that it does what it should in all other cases, and only in these.
-/

namespace JosVmm
open Support.Prog Function List
open Function (update_self update_of_ne update_idem)

variable {σ : Type} {c : SpawnCalls σ} {short : Prop} {view : σ → SpawnWorld}
  {v v₁ v' : SpawnWorld} {s s' : σ} {S : SpawnSetup} {n p q g k m : Nat} {r fd : Int}
  {child envid : EnvId} {va va' memsz filesz : Word} {fileoffset perm i : BitVec 32}
  {want f : Nat → BitVec 8}

/-! ### One call after the other -/

/-- A call that has not failed has done what it should. -/
theorem Does.of_nonneg {f : SpawnWorld → Int × SpawnWorld} {x : Sm σ Int} (h : Does short view f x)
    (hrun : x.run s = .ok (r, s')) (hr : ¬ r < 0) : f (view s) = (r, view s') := by
  obtain ⟨s1, ⟨h1, h2⟩ | ⟨-, h1, -⟩⟩ := h s
  · rw [hrun] at h1
    cases h1
    exact Prod.ext rfl h2.symm
  · rw [hrun] at h1
    cases h1
    exact absurd (by decide) hr

/-- One that cannot run out of memory has in any case. -/
theorem Does.of_run {f : SpawnWorld → Int × SpawnWorld} {x : Sm σ Int} (h : Does False view f x)
    (hrun : x.run s = .ok (r, s')) : f (view s) = (r, view s') := by
  obtain ⟨s1, ⟨h1, h2⟩ | ⟨h, -⟩⟩ := h s
  · rw [hrun] at h1
    cases h1
    exact Prod.ext rfl h2.symm
  · exact h.elim

namespace SpawnWorld

theorem kin_zero (v : SpawnWorld) : v.kin 0#32 = some .self := if_pos rfl

theorem kin_child (v : SpawnWorld) : v.kin v.childId = some .child := by
  rw [kin, if_neg v.childId_ne, if_pos rfl]

theorem sysPageAlloc_inv {e : Kin} (h : v.sysPageAlloc envid va perm = (r, v')) (hr : ¬ r < 0)
    (he : v.kin envid = some e) :
    ∃ p l, va < utop ∧ pgoff va = 0#64 ∧ v.free = p :: l ∧
      v' = v.newPage e (va.toNat / 4096) p l perm := by
  rw [sysPageAlloc, he] at h
  dsimp only at h
  split at h
  · rename_i hva
    cases hfree : v.free with
    | nil =>
      rw [hfree] at h
      cases h
      exact absurd (by decide) hr
    | cons p l =>
      rw [hfree] at h
      cases h
      exact ⟨p, l, hva.1, hva.2.1, rfl, rfl⟩
  · cases h
    exact absurd (by decide) hr

theorem newPage_space (v : SpawnWorld) (e : Kin) (q p : Nat) (l : List Nat) (perm : BitVec 32) :
    (v.newPage e q p l perm).space e q = some (p, perm) := by
  simp only [newPage, setSpace, setPage]
  rw [update_self, update_self]

theorem newPage_pages (v : SpawnWorld) (e : Kin) (q p : Nat) (l : List Nat) (perm : BitVec 32) :
    (v.newPage e q p l perm).pages p = fun _ => 0#8 := setPage_pages ..

theorem sysPageUnmap_utemp (v : SpawnWorld) :
    v.sysPageUnmap 0#32 utempVa = (0, v.setSpace .self 0x400 none) := by
  rw [sysPageUnmap, kin_zero]
  exact if_pos (by decide)

theorem sysPageMap_inv {e e' : Kin} {srcenv dstenv : EnvId} {has : BitVec 32}
    (h : v.sysPageMap srcenv va dstenv va' perm = (r, v')) (hr : ¬ r < 0)
    (he : v.kin srcenv = some e) (he' : v.kin dstenv = some e')
    (hp : v.space e (va.toNat / 4096) = some (p, has)) :
    va' < utop ∧ pgoff va' = 0#64 ∧ v' = v.setSpace e' (va'.toNat / 4096) (some (p, perm)) := by
  rw [sysPageMap, he, he'] at h
  dsimp only at h
  split at h
  · rename_i hva
    rw [hp] at h
    dsimp only at h
    split at h
    · cases h
      exact absurd (by decide) hr
    · cases h
      exact ⟨hva.2.2.1, hva.2.2.2.1, rfl⟩
  · cases h
    exact absurd (by decide) hr

theorem seek_inv {offset : BitVec 32} (h : v.seek fd offset = (r, v')) (hr : ¬ r < 0) :
    v' = v.setOffset offset := by
  rw [seek] at h
  split at h
  · cases h
    rfl
  · cases h
    exact absurd (by decide) hr

/-- `readn` to a page at `UTEMP`. -/
theorem readn_inv {has : BitVec 32} {n : Word} (h : v.readn fd utempVa n = (r, v')) (hr : ¬ r < 0)
    (hp : v.space .self 0x400 = some (p, has)) (hw : has &&& 2#32 ≠ 0#32) (hn : n.toNat ≤ 4096) :
    ∃ o, v' = (v.setPage p (patch (v.pages p) 0 (v.nextBytes n.toNat))).setOffset o := by
  have hstore := store_page (o := 0) (l := v.nextBytes n.toNat) hp hw
    (show utempVa.toNat = 4096 * 0x400 + 0 by decide)
    (by rw [nextBytes, Image.bytes_length]; omega)
  rw [readn] at h
  split at h
  · dsimp only at h
    rw [hstore] at h
    cases h
    exact ⟨_, rfl⟩
  · cases h
    exact absurd (by decide) hr

end SpawnWorld

/-! ### Pages of the child -/

/-- Pages that the child has are not handed out again. -/
structure SpawnWorld.Ready (v : SpawnWorld) : Prop where
  nodup : v.free.Nodup
  mapped : ∀ q p perm, v.space .child q = some (p, perm) → p ∉ v.free

/-- The child has got a new page with the contents `f`. -/
structure Given (v v' : SpawnWorld) (q : Nat) (perm : BitVec 32) (f : Nat → BitVec 8) : Prop where
  page : ∃ p l, v.free = p :: l ∧ v'.free = l ∧ v'.pages = update v.pages p f ∧
    v'.space .child = update (v.space .child) q (some (p, perm))
  setup : v'.toSpawnSetup = v.toSpawnSetup

/-- The pages `g + k`, …, `g + m - 1` of the child are new, and hold what is wanted. -/
structure Loaded (want : Nat → BitVec 8) (perm : BitVec 32) (g k m : Nat) (v v' : SpawnWorld) :
    Prop where
  mapped : ∀ j, k ≤ j → j < m → ∃ p ∈ v.free, v'.space .child (g + j) = some (p, perm) ∧
    ∀ x < 4096, v'.pages p x = want (4096 * j + x)
  other : ∀ q, (∀ j, k ≤ j → j < m → q ≠ g + j) → v'.space .child q = v.space .child q
  kept : ∀ p, p ∉ v.free → v'.pages p = v.pages p

theorem Given.ready (h : v.Ready) (hg : Given v v' q perm f) : v'.Ready := by
  obtain ⟨p, l, hfree, hfree', -, hspace⟩ := hg.page
  have hnodup := h.nodup
  rw [hfree, nodup_cons] at hnodup
  refine ⟨hfree' ▸ hnodup.2, fun q' p' perm' hq' => ?_⟩
  rw [hfree']
  rw [hspace] at hq'
  by_cases hq : q' = q
  · rw [hq, update_self] at hq'
    cases hq'
    exact hnodup.1
  · rw [update_of_ne hq] at hq'
    have hnot := h.mapped q' p' perm' hq'
    rw [hfree] at hnot
    exact fun hmem => hnot (mem_cons_of_mem p hmem)

/-- One page, and then the others. -/
theorem Loaded.cons (h : v.Ready) (hk : k < m) (hg : Given v v₁ (g + k) perm f)
    (hf : ∀ x < 4096, f x = want (4096 * k + x)) (hl : Loaded want perm g (k + 1) m v₁ v') :
    Loaded want perm g k m v v' := by
  obtain ⟨p, l, hfree, hfree', hpages, hspace⟩ := hg.page
  have hnodup := h.nodup
  rw [hfree, nodup_cons] at hnodup
  refine ⟨fun j hkj hjm => ?_, fun q hq => ?_, fun p' hp' => ?_⟩
  · obtain rfl | hlt := Nat.eq_or_lt_of_le hkj
    · refine ⟨p, hfree ▸ mem_cons_self .., ?_, fun x hx => ?_⟩
      · rw [hl.other (g + k) (fun j hj _ => by omega), hspace, update_self]
      · rw [hl.kept p (hfree' ▸ hnodup.1), hpages, update_self, hf x hx]
    · obtain ⟨p', hp', hspace', hwant⟩ := hl.mapped j hlt hjm
      rw [hfree'] at hp'
      exact ⟨p', hfree ▸ mem_cons_of_mem p hp', hspace', hwant⟩
  · rw [hl.other q fun j hj hjm => hq j (by omega) hjm, hspace,
      update_of_ne (hq k (Nat.le_refl k) hk)]
  · rw [hfree, mem_cons, not_or] at hp'
    rw [hl.kept p' (hfree' ▸ hp'.2), hpages, update_of_ne hp'.1]

/-! ### The rounds -/

/-- What `map_segment` puts at the offset `y` of a segment that starts with a page: the byte of the
file, if `readn` finds one. -/
def segmentContent (S : SpawnSetup) (fileoffset : BitVec 32) (filesz : Word) (y : Nat) : BitVec 8 :=
  let o := (fileoffset + BitVec.ofNat 32 (y - y % 4096)).toNat + y % 4096
  if y < filesz.toNat ∧ o < S.fileSize then S.file (BitVec.ofNat 64 o) else 0#8

theorem given_blank {l : List Nat} (hfree : v.free = p :: l) :
    Given v (v.newPage .child q p l perm) q perm fun _ => 0#8 := by
  refine ⟨⟨p, l, hfree, rfl, rfl, ?_⟩, rfl⟩
  simp only [SpawnWorld.setSpace, SpawnWorld.newPage, SpawnWorld.setPage]
  rw [update_self]

/-- The page at `UTEMP` becomes one of the child. -/
theorem given_file {l : List Nat} {o o' : BitVec 32} (hfree : v.free = p :: l) :
    Given v ((((((v.newPage .self 0x400 p l 7#32).setOffset o).setPage p f).setOffset o').setSpace
      .child q (some (p, perm))).setSpace .self 0x400 none) q perm f := by
  refine ⟨⟨p, l, hfree, rfl, ?_, ?_⟩, rfl⟩
  · show update (update v.pages p _) p f = _
    rw [update_idem]
  · simp only [SpawnWorld.setSpace, SpawnWorld.newPage, SpawnWorld.setPage, SpawnWorld.setOffset]
    rw [update_of_ne (by decide), update_self, update_of_ne (by decide)]

/-- The bytes of the file that a page gets, and zeros. -/
theorem patch_nextBytes (v : SpawnWorld) (n x : Nat) :
    patch (fun _ => 0#8) 0 (v.nextBytes n) x = if x < n ∧ v.offset.toNat + x < v.fileSize then
      v.file (BitVec.ofNat 64 (v.offset.toNat + x)) else 0#8 := by
  rw [patch, if_pos (Nat.zero_le x), Nat.sub_zero, SpawnWorld.nextBytes]
  split
  · have haddr : v.offset.setWidth 64 + BitVec.ofNat 64 x =
        BitVec.ofNat 64 (v.offset.toNat + x) := by
      rw [BitVec.ofNat_add, BitVec.ofNat_toNat]
    rw [Image.bytes_getElem? (by omega), haddr]
    rfl
  · rw [getElem?_eq_none (by rw [Image.bytes_length]; omega)]
    rfl

/-- **A page from the file**: the child gets the bytes that `readn` finds. -/
theorem mapFilePage_given (hc : c.Documented short view) (hr : ¬ r < 0)
    (hrun : (mapFilePage c (view s).childId va fd filesz fileoffset perm).run s = .ok (r, s')) :
    va < utop ∧ Given (view s) (view s') (va.toNat / 4096) perm fun x =>
      if x < min 4096 filesz.toNat ∧ fileoffset.toNat + x < (view s).fileSize then
        (view s).file (BitVec.ofNat 64 (fileoffset.toNat + x)) else 0#8 := by
  rw [mapFilePage] at hrun
  obtain ⟨r1, s1, h1, hrun⟩ := bind_inv hrun
  split at hrun
  · cases hrun
    contradiction
  rename_i hr1
  obtain ⟨p, l, -, -, hfree, hv1⟩ := SpawnWorld.sysPageAlloc_inv
    ((hc.sysPageAlloc _ _ _).of_nonneg h1 hr1) hr1 (SpawnWorld.kin_zero _)
  have hv1 : view s1 = (view s).newPage .self 0x400 p l 7#32 := hv1
  obtain ⟨r2, s2, h2, hrun⟩ := bind_inv hrun
  split at hrun
  · cases hrun
    contradiction
  rename_i hr2
  have hv2 := SpawnWorld.seek_inv ((hc.seek _ _).of_run h2) hr2
  rw [hv1] at hv2
  have hspace2 : (view s2).space .self 0x400 = some (p, 7#32) := by
    rw [hv2]
    exact (view s).newPage_space .self 0x400 p l 7#32
  have hpages2 : (view s2).pages p = fun _ => 0#8 := by
    rw [hv2]
    exact (view s).newPage_pages .self 0x400 p l 7#32
  obtain ⟨r3, s3, h3, hrun⟩ := bind_inv hrun
  split at hrun
  · cases hrun
    contradiction
  rename_i hr3
  have hm : (minWord 4096#64 filesz).toNat = min 4096 filesz.toNat := minWord_toNat ..
  obtain ⟨o, hv3⟩ := SpawnWorld.readn_inv ((hc.readn _ _ _).of_run h3) hr3 hspace2 (by decide)
    (by rw [hm]; exact Nat.min_le_left ..)
  rw [hm, hpages2, funext (patch_nextBytes (view s2) _), hv2] at hv3
  obtain ⟨r4, s4, h4, hrun⟩ := bind_inv hrun
  split at hrun
  · cases hrun
  rename_i hr4
  have hspace3 : (view s3).space .self (utempVa.toNat / 4096) = some (p, 7#32) := by
    rw [hv3]
    exact (view s).newPage_space .self 0x400 p l 7#32
  have hkin : (view s3).kin (view s).childId = some .child := by
    have hid : (view s3).childId = (view s).childId := by rw [hv3]; rfl
    rw [← hid, SpawnWorld.kin_child]
  obtain ⟨hutop, -, hv4⟩ := SpawnWorld.sysPageMap_inv
    ((hc.sysPageMap _ _ _ _ _).of_nonneg h4 hr4) hr4 (SpawnWorld.kin_zero _) hkin hspace3
  obtain ⟨r5, s5, h5, hrun⟩ := bind_inv hrun
  have hv5 := congrArg Prod.snd ((hc.sysPageUnmap _ _).of_run h5)
  rw [SpawnWorld.sysPageUnmap_utemp, hv4, hv3] at hv5
  dsimp only at hv5
  cases hrun
  refine ⟨hutop, ?_⟩
  rw [← hv5]
  exact given_file hfree

/-- **One round of `map_segment`** that does not fail gives the child a page. -/
theorem mapPages_round (hc : c.Documented short view) (hS : (view s).toSpawnSetup = S)
    (hi : i.toNat = 4096 * k) (hik : 4096 * k < 2 ^ 31) (hlt : 4096 * k < memsz.toNat)
    (hrun : (mapPages c S.childId va memsz fd filesz fileoffset perm (n + 1) i).run s =
      .ok (0, s')) :
    ∃ s1 f, Given (view s) (view s1) ((va + i.signExtend 64).toNat / 4096) perm f ∧
      (∀ x < 4096, f x = segmentContent S fileoffset filesz (4096 * k + x)) ∧
      va + i.signExtend 64 < utop ∧
      (mapPages c S.childId va memsz fd filesz fileoffset perm n (i + 4096#32)).run s1 =
        .ok (0, s') := by
  subst hS
  have hx : (i.signExtend 64).toNat = 4096 * k := by rw [signExtend_toNat (by omega), hi]
  rw [mapPages, if_pos (by rw [BitVec.lt_def, hx]; exact hlt)] at hrun
  obtain ⟨r1, s1, h1, hrun⟩ := bind_inv hrun
  split at hrun
  · cases hrun
    omega
  rename_i hr1
  rw [segmentPage] at h1
  split at h1
  · rename_i hblank
    rw [BitVec.le_def, hx] at hblank
    obtain ⟨p, l, hutop, -, hfree, hv1⟩ := SpawnWorld.sysPageAlloc_inv
      ((hc.sysPageAlloc _ _ _).of_nonneg h1 hr1) hr1 (SpawnWorld.kin_child _)
    refine ⟨s1, _, hv1 ▸ given_blank hfree, fun x hx => ?_, hutop, hrun⟩
    rw [segmentContent, if_neg (by omega)]
  · rename_i hfile
    rw [BitVec.le_def, hx, Nat.not_le] at hfile
    obtain ⟨hutop, hg⟩ := mapFilePage_given hc hr1 h1
    refine ⟨s1, _, hg, fun x hx => ?_, hutop, hrun⟩
    have hrest : (filesz - i.signExtend 64).toNat = filesz.toNat - 4096 * k := by
      rw [BitVec.toNat_sub_of_le (by rw [BitVec.le_def]; omega)]
      omega
    have hik : BitVec.ofNat 32 (4096 * k) = i := by
      rw [← hi, BitVec.ofNat_toNat, BitVec.setWidth_eq]
    rw [segmentContent, show (4096 * k + x) % 4096 = x by omega, Nat.add_sub_cancel, hik, hrest]
    refine if_congr ?_ rfl rfl
    omega

/-- The loop ends once `i` has reached the size, also where `i` has become negative. -/
theorem mapPages_done (hi : i.toNat = 4096 * k) (hle : 4096 * k ≤ 2 ^ 31)
    (hmem : memsz.toNat < 2 ^ 31) (hge : memsz.toNat ≤ 4096 * k) :
    (mapPages c child va memsz fd filesz fileoffset perm (n + 1) i).run s = .ok (0, s) := by
  have hnot : ¬ i.signExtend 64 < memsz := by
    rw [BitVec.lt_def]
    obtain hlt | heq := Nat.lt_or_eq_of_le hle
    · rw [signExtend_toNat (by omega)]
      omega
    · have hi : i = 0x80000000#32 := BitVec.eq_of_toNat_eq (by rw [hi, heq]; rfl)
      have hx : ((0x80000000#32).signExtend 64).toNat = 2 ^ 64 - 2 ^ 31 := by decide
      rw [hi, hx]
      omega
  rw [mapPages, if_neg hnot]
  rfl

/-- **The loop of `map_segment`** gives the child the pages of the segment. -/
theorem mapPages_loaded (hc : c.Documented short view) (hS : (view s).toSpawnSetup = S)
    (hva : va.toNat % 4096 = 0) (hi : i.toNat = 4096 * k) (hle : 4096 * k ≤ 2 ^ 31)
    (hmem : memsz.toNat < 2 ^ 31) (hadd : va.toNat + 4096 * k < 2 ^ 64) (hv : (view s).Ready)
    (hrun : (mapPages c S.childId va memsz fd filesz fileoffset perm n i).run s = .ok (0, s')) :
    Loaded (segmentContent S fileoffset filesz) perm (va.toNat / 4096) k
      ((memsz.toNat + 4095) / 4096) (view s) (view s') := by
  induction n generalizing i s k with
  | zero => cases hrun
  | succ n ih =>
    by_cases hlt : 4096 * k < memsz.toNat
    · obtain ⟨s1, f, hg, hf, hutop, hrun⟩ := mapPages_round hc hS hi (by omega) hlt hrun
      have haddr : (va + i.signExtend 64).toNat = va.toNat + 4096 * k := by
        rw [roundAddr_toNat (by omega) (by omega), hi]
      rw [BitVec.lt_def, haddr] at hutop
      have hutop : va.toNat + 4096 * k < 0x8000800000 := hutop
      rw [haddr, show (va.toNat + 4096 * k) / 4096 = va.toNat / 4096 + k by omega] at hg
      have hnext : (i + 4096#32).toNat = 4096 * (k + 1) := by
        rw [BitVec.toNat_add, hi]
        simp only [BitVec.toNat_ofNat]
        omega
      refine Loaded.cons hv (by omega) hg hf ?_
      exact ih (hg.setup.trans hS) hnext (by omega) (by omega) (hg.ready hv) hrun
    · rw [mapPages_done hi hle hmem (by omega)] at hrun
      cases hrun
      exact ⟨fun j hk hm => absurd hm (by omega), fun _ _ => rfl, fun _ _ => rfl⟩

/-! ### The segment -/

/-- The page `q` has an address of `[va, va + memsz)`. -/
def Intersects (va memsz : Word) (q : Nat) : Prop := ∃ x < memsz.toNat, (va.toNat + x) / 4096 = q

/-- **The segment is mapped**: the bytes of the file, then zeros, in exactly the pages that it
intersects. -/
structure SegmentMapped (v v' : SpawnWorld) (va memsz filesz : Word) (fileoffset perm : BitVec 32) :
    Prop where
  file : ∀ x < filesz.toNat, fileoffset.toNat + x < v.fileSize ∧
    v'.childByte (va.toNat + x) = some (v.file (BitVec.ofNat 64 (fileoffset.toNat + x)))
  zeros : ∀ x, filesz.toNat ≤ x → x < memsz.toNat → v'.childByte (va.toNat + x) = some 0#8
  mapped : ∀ q, Intersects va memsz q → ∃ p, v'.space .child q = some (p, perm)
  other : ∀ q, ¬ Intersects va memsz q → v'.space .child q = v.space .child q

/-- What the child finds in the pages of the segment. -/
theorem Loaded.childByte (h : Loaded want perm g 0 m v v') {y : Nat} (hy : y < 4096 * m) :
    v'.childByte (4096 * g + y) = some (want y) := by
  obtain ⟨p, -, hspace, hwant⟩ := h.mapped (y / 4096) (Nat.zero_le _) (by omega)
  rw [SpawnWorld.childByte, show (4096 * g + y) / 4096 = g + y / 4096 by omega, hspace,
    Option.map_some, show (4096 * g + y) % 4096 = y % 4096 by omega, hwant _ (by omega),
    Nat.div_add_mod]

/-- The bytes that are read are those of the file from `fileoffset` on, if the file has them. -/
theorem segmentContent_eq {y : Nat} (hy : y < filesz.toNat)
    (hfits : fileoffset.toNat + filesz.toNat ≤ S.fileSize) :
    segmentContent S fileoffset filesz y = S.file (BitVec.ofNat 64 (fileoffset.toNat + y)) := by
  have hsize := S.fileSize_lt
  have ho : (fileoffset + BitVec.ofNat 32 (y - y % 4096)).toNat + y % 4096 =
      fileoffset.toNat + y := by
    rw [BitVec.toNat_add, BitVec.toNat_ofNat]
    omega
  rw [segmentContent, ho]
  exact if_pos ⟨hy, by omega⟩

theorem segmentContent_zero {y : Nat} (hy : filesz.toNat ≤ y) :
    segmentContent S fileoffset filesz y = 0#8 :=
  if_neg (by omega)

/-- The pages of a segment that is not empty, or starts with a page. -/
theorem intersects_iff {va memsz : Word} (hne : 0 < memsz.toNat ∨ va.toNat % 4096 = 0) :
    Intersects va memsz q ↔
      ∃ j < (memsz.toNat + va.toNat % 4096 + 4095) / 4096, q = va.toNat / 4096 + j := by
  constructor
  · rintro ⟨x, hx, rfl⟩
    exact ⟨(va.toNat % 4096 + x) / 4096, by omega, by omega⟩
  · rintro ⟨j, hj, rfl⟩
    exact ⟨4096 * j - va.toNat % 4096, by omega, by omega⟩

/-- **What `map_segment` has done when it returns 0**: the segment is mapped as it should be, if and
only if it is not empty or starts with a page, and the file has all of its bytes. -/
theorem mapSegment_loads (hc : c.Documented short view) (hv : (view s).Ready)
    (hmem : memsz.toNat < 2 ^ 31 - 4096) (hle : filesz.toNat ≤ memsz.toNat)
    (hoff : va.toNat % 4096 = fileoffset.toNat % 4096)
    (hrun : (mapSegment c n (view s).childId va memsz fd filesz fileoffset perm).run s =
      .ok (0, s')) :
    SegmentMapped (view s) (view s') va memsz filesz fileoffset perm ↔
      (0 < memsz.toNat ∨ va.toNat % 4096 = 0) ∧
      (filesz.toNat = 0 ∨ fileoffset.toNat + filesz.toNat ≤ (view s).fileSize) := by
  have hpg : (pgoff va).toNat = va.toNat % 4096 := pgoff_toNat va
  have hstart : (va - pgoff va).toNat = 4096 * (va.toNat / 4096) := by
    rw [BitVec.toNat_sub_of_le (by rw [BitVec.le_def, hpg]; omega), hpg]
    omega
  have hmemsz : (memsz + pgoff va).toNat = memsz.toNat + va.toNat % 4096 := by
    rw [BitVec.toNat_add, hpg]
    omega
  have hfilesz : (filesz + pgoff va).toNat = filesz.toNat + va.toNat % 4096 := by
    rw [BitVec.toNat_add, hpg]
    omega
  have hfile : (fileoffset - (pgoff va).setWidth 32).toNat =
      fileoffset.toNat - va.toNat % 4096 := by
    have hw : ((pgoff va).setWidth 32).toNat = va.toNat % 4096 := by
      rw [BitVec.toNat_setWidth, hpg]
      omega
    rw [BitVec.toNat_sub_of_le (by rw [BitVec.le_def, hw]; omega), hw]
  have hl := mapPages_loaded hc rfl (by omega) (k := 0) rfl (by omega) (by omega) (by omega) hv hrun
  rw [hstart, hmemsz, Nat.mul_div_cancel_left _ (by decide)] at hl
  have hbyte : ∀ x < memsz.toNat, (view s').childByte (va.toNat + x) =
      some (segmentContent (view s).toSpawnSetup (fileoffset - (pgoff va).setWidth 32)
        (filesz + pgoff va) (va.toNat % 4096 + x)) := by
    intro x hx
    rw [← hl.childByte (by omega)]
    congr 1
    omega
  constructor
  · intro h
    constructor
    · by_contra hempty
      obtain ⟨hzero, hne⟩ := not_or.mp hempty
      -- the page of `va` is new, but no byte of the segment is in it
      obtain ⟨p, hp, hspace, -⟩ := hl.mapped 0 (Nat.le_refl 0) (by omega)
      rw [h.other _ fun ⟨x, hx, _⟩ => by omega] at hspace
      exact hv.mapped _ _ _ hspace hp
    · by_contra hshort
      obtain ⟨hne, hlt⟩ := not_or.mp hshort
      obtain ⟨hin, -⟩ := h.file (filesz.toNat - 1) (by omega)
      omega
  · rintro ⟨hne, hfits⟩
    refine ⟨fun x hx => ⟨by omega, ?_⟩, fun x hge hx => ?_, fun q hq => ?_, fun q hq => ?_⟩
    · rw [hbyte x (by omega), segmentContent_eq (by omega) (by omega), hfile]
      congr 3
      omega
    · rw [hbyte x hx, segmentContent_zero (by omega)]
    · obtain ⟨j, hj, rfl⟩ := (intersects_iff hne).mp hq
      obtain ⟨p, -, hspace, -⟩ := hl.mapped j (Nat.zero_le j) hj
      exact ⟨p, hspace⟩
    · refine hl.other q fun j _ hj => ?_
      rintro rfl
      exact hq ((intersects_iff hne).mpr ⟨j, hj, rfl⟩)

/-- A child without pages, and a file of `size` bytes. -/
def smallSpawn (size : Nat) (h : size < 2 ^ 31) : SpawnWorld where
  childId := 4097#32
  childId_ne := by decide
  fd := 0
  file off := off.setWidth 8 + 1#8
  fileSize := size
  fileSize_lt := h
  pages _ _ := 0#8
  space _ _ := none
  free := [1, 2, 3]
  offset := 0#32

theorem smallSpawn_ready (size : Nat) (h : size < 2 ^ 31) : (smallSpawn size h).Ready :=
  ⟨show [1, 2, 3].Nodup by decide, nofun⟩

/-- A segment of five bytes, three of them from the file. -/
theorem mapSegment_loads_small : ∃ v',
    (mapSegment spawnCalls 2 4097#32 0x800000#64 5#64 0 3#64 0#32 7#32).run
      (smallSpawn 3 (by decide)) = .ok (0, v') ∧
    SegmentMapped (smallSpawn 3 (by decide)) v' 0x800000#64 5#64 3#64 0#32 7#32 := by
  have h : Returns ((mapSegment spawnCalls 2 4097#32 0x800000#64 5#64 0 3#64 0#32 7#32).run
      (smallSpawn 3 (by decide))) (fun r _ => r = 0) := by decide +kernel
  obtain ⟨r, v', hrun, rfl⟩ := h.exists_ok
  exact ⟨v', hrun, (mapSegment_loads (spawnCalls_documented False) (smallSpawn_ready 3 (by decide))
    (by decide) (by decide) (by decide) hrun).mpr ⟨.inl (by decide), .inr (by decide)⟩⟩

/-- **The file has two bytes of three**, and `map_segment` returns 0 with a zero in the child; **the
segment is empty**, and it maps a page. -/
theorem mapSegment_unnoticed :
    (∃ v', (mapSegment spawnCalls 2 4097#32 0x800000#64 5#64 0 3#64 0#32 7#32).run
        (smallSpawn 2 (by decide)) = .ok (0, v') ∧ v'.childByte 0x800002 = some 0#8 ∧
      ¬ SegmentMapped (smallSpawn 2 (by decide)) v' 0x800000#64 5#64 3#64 0#32 7#32) ∧
    ∃ v', (mapSegment spawnCalls 2 4097#32 0x800001#64 0#64 0 0#64 1#32 7#32).run
        (smallSpawn 2 (by decide)) = .ok (0, v') ∧ v'.space .child 0x800 = some (1, 7#32) ∧
      ¬ SegmentMapped (smallSpawn 2 (by decide)) v' 0x800001#64 0#64 0#64 1#32 7#32 := by
  have h₁ : Returns ((mapSegment spawnCalls 2 4097#32 0x800000#64 5#64 0 3#64 0#32 7#32).run
      (smallSpawn 2 (by decide))) (fun r v' => r = 0 ∧ v'.childByte 0x800002 = some 0#8) := by
    decide +kernel
  have h₂ : Returns ((mapSegment spawnCalls 2 4097#32 0x800001#64 0#64 0 0#64 1#32 7#32).run
      (smallSpawn 2 (by decide))) (fun r v' => r = 0 ∧ v'.space .child 0x800 = some (1, 7#32)) := by
    decide +kernel
  obtain ⟨r₁, v₁, hrun₁, rfl, hbyte⟩ := h₁.exists_ok
  obtain ⟨r₂, v₂, hrun₂, rfl, hspace⟩ := h₂.exists_ok
  refine ⟨⟨v₁, hrun₁, hbyte, fun h => ?_⟩, v₂, hrun₂, hspace, fun h => ?_⟩
  · exact absurd (h.file 2 (by decide)).1 (by decide)
  · have hother := h.other 0x800 fun ⟨x, hx, _⟩ => Nat.not_lt_zero x hx
    rw [hspace] at hother
    cases hother

end JosVmm
