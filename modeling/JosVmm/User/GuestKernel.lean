import JosVmm.User.Vmm
import JosVmm.Loader.Image

/-!
# User programs — loading a guest

What `map_in_guest` and `copy_guest_kern_gpa` do, and what they return.

* `mapInGuest_copies` — the guest's memory gets the bytes of the file and zeros, but what is
  returned is `-E_NO_SYS`;
* `mapInGuest_unaligned` — an address in the middle of a page is not rounded, and `map_in_guest`
  panics;
* `guestKernel_never_loaded` — whatever the calls do, `map_in_guest` never returns 0, and
  `copy_guest_kern_gpa` does so only if there is nothing to load.
-/

namespace JosVmm
open Support Support.Prog Support.Paged Function List BitVec
open Function (update_self update_of_ne update_eq_self update_idem)

variable {σ : Type} {c : VmmCalls σ} {view : σ → Vmm} {v v' v'' : Vmm} {n p : Nat} {L : List Nat}
  {guest : EnvId} {gpa memsz filesz : Word} {fd r : Int} {fileoffset i : BitVec 32} {s s' : σ}
  {want : Nat → BitVec 8}

/-! ### A page -/

/-- The contents `f` of a page with the bytes `l` from `o` on. -/
def patch (f : Nat → BitVec 8) (o : Nat) (l : List (BitVec 8)) (x : Nat) : BitVec 8 :=
  if o ≤ x then (l[x - o]?).getD (f x) else f x

theorem patch_cons (f : Nat → BitVec 8) (o : Nat) (b : BitVec 8) (l : List (BitVec 8)) :
    patch (update f o b) (o + 1) l = patch f o (b :: l) := by
  funext x
  rw [patch, patch]
  rcases Nat.lt_trichotomy x o with h | rfl | h
  · rw [if_neg (by omega), if_neg (by omega), update_of_ne (by omega)]
  · rw [if_neg (by omega), if_pos (Nat.le_refl _), Nat.sub_self, update_self]
    rfl
  · rw [if_pos (by omega), if_pos (by omega), update_of_ne (by omega),
      show x - o = x - (o + 1) + 1 by omega, getElem?_cons_succ]

theorem patch_nil (f : Nat → BitVec 8) (o : Nat) : patch f o [] = f := by
  funext x
  rw [patch]
  split <;> rfl

theorem Vmm.setPage_pages (v : Vmm) (p : Nat) (f : Nat → BitVec 8) : (v.setPage p f).pages p = f :=
  update_self ..

theorem Vmm.setPage_setPage (v : Vmm) (p : Nat) (f f' : Nat → BitVec 8) :
    (v.setPage p f).setPage p f' = v.setPage p f' := by
  rw [setPage, setPage, setPage, update_idem]

/-- What is written to one page. -/
theorem write_page {q : Word} {o : Nat} {l : List (BitVec 8)} (hq : q.toNat % 4096 = 0)
    (hp : v.space q = some p) (hl : o + l.length ≤ 4096) (htop : q.toNat + 4096 ≤ 2 ^ 63) :
    v.write l (q + BitVec.ofNat 64 o) = v.setPage p (patch (v.pages p) o l) := by
  induction l generalizing v o with
  | nil =>
    rw [patch_nil, Vmm.setPage, update_eq_self]
    rfl
  | cons b l ih =>
    rw [length_cons] at hl
    have ho : (q + BitVec.ofNat 64 o).toNat = q.toNat + o := by
      rw [toNat_add, toNat_ofNat]
      omega
    have hround : roundDownPg (q + BitVec.ofNat 64 o) = q := by
      refine eq_of_toNat_eq ?_
      rw [roundDownPg_toNat, ho]
      omega
    have hnext : q + BitVec.ofNat 64 o + 1#64 = q + BitVec.ofNat 64 (o + 1) := by
      rw [BitVec.add_assoc, ← ofNat_add]
    have hset : v.setByte (q + BitVec.ofNat 64 o) b =
        v.setPage p (update (v.pages p) o b) := by
      rw [Vmm.setByte, hround, hp, pgoff_toNat, ho, show (q.toNat + o) % 4096 = o by omega]
    have hp' : (v.setPage p (update (v.pages p) o b)).space q = some p := hp
    rw [Vmm.write, hset, hnext, ih hp' (by omega), Vmm.setPage_pages, Vmm.setPage_setPage,
      patch_cons]

/-! ### Filling the guest -/

/-- Pages that the guest has are not handed out again. -/
structure Vmm.Ready (v : Vmm) : Prop where
  nodup : v.free.Nodup
  mapped : ∀ g p, v.guest g = some p → p ∉ v.free

/-- `m` pages of the guest from `a` on are new, and hold what is wanted from `j` on. -/
structure Filled (want : Nat → BitVec 8) (v : Vmm) (a j m : Nat) (v' : Vmm) : Prop where
  mem : v'.guestMem = overlay v.guestMem a ((List.range (4096 * m)).map fun x => want (j + x))
  ready : v'.Ready
  free : v.free.length = v'.free.length + m
  setup : v'.toVmmSetup = v.toVmmSetup

theorem Filled.refl (h : v.Ready) (a j : Nat) : Filled want v a j 0 v :=
  ⟨overlay_nil.symm, h, rfl, rfl⟩

theorem Filled.trans {a j m₁ m₂ : Nat} (h1 : Filled want v a j m₁ v')
    (h2 : Filled want v' (a + 4096 * m₁) (j + 4096 * m₁) m₂ v'') :
    Filled want v a j (m₁ + m₂) v'' where
  mem := by
    rw [h2.mem, h1.mem, Nat.mul_add, range_add, map_append, overlay_append,
      length_map, length_range, map_map]
    congr 2
    funext x
    rw [Function.comp_apply, Nat.add_assoc]
  ready := h2.ready
  free := by rw [h1.free, h2.free]; omega
  setup := h2.setup.trans h1.setup

/-- One page with the contents `f`. -/
def Vmm.fill (v : Vmm) (p : Nat) (L : List Nat) (f : Nat → BitVec 8) (g : Nat)
    (offset : BitVec 32) : Vmm :=
  { v with
    pages := update v.pages p f
    space := update v.space utempVa none
    free := L
    guest := update v.guest g (some p)
    offset := offset }

theorem Vmm.Ready.fill (h : v.Ready) (hv : v.free = p :: L) {f : Nat → BitVec 8} {a j : Nat}
    {offset : BitVec 32} (ha : a % 4096 = 0) (hf : ∀ x < 4096, f x = want (j + x)) :
    Filled want v a j 1 (v.fill p L f (a / 4096) offset) where
  mem := by
    funext x
    rw [overlay, Vmm.guestMem]
    simp only [length_map, length_range, Vmm.fill]
    by_cases hg : x / 4096 = a / 4096
    · rw [hg, update_self, if_pos (by omega), Option.map_some, update_self,
        hf _ (Nat.mod_lt _ (by decide)), getElem?_map, getElem?_range (by omega), Option.map_some]
      congr 2
      omega
    · rw [update_of_ne hg, if_neg (by omega), Vmm.guestMem]
      cases hp' : v.guest (x / 4096) with
      | none => rfl
      | some p' =>
        have hne : p' ≠ p := by
          rintro rfl
          exact h.mapped _ _ hp' (hv ▸ mem_cons_self ..)
        rw [Option.map_some, Option.map_some, update_of_ne hne]
  ready := by
    have hnd := h.nodup
    rw [hv, nodup_cons] at hnd
    refine ⟨hnd.2, fun g' p' hp' => ?_⟩
    change update v.guest (a / 4096) (some p) g' = some p' at hp'
    by_cases hg : g' = a / 4096
    · rw [hg, update_self] at hp'
      exact Option.some.inj hp' ▸ hnd.1
    · rw [update_of_ne hg] at hp'
      exact fun hc => h.mapped g' p' hp' (hv ▸ mem_cons_of_mem _ hc)
  free := by rw [hv]; rfl
  setup := rfl

/-! ### One call after the other -/

theorem Acts.run {f : Vmm → Int × Vmm} {x : Vm σ Int} (h : Acts view f x) (hs : view s = v)
    (hf : f v = (r, v')) : ∃ s', x.run s = .ok (r, s') ∧ view s' = v' := by
  obtain ⟨s', hrun, hview⟩ := h s
  rw [hs, hf] at hrun hview
  exact ⟨s', hrun, hview⟩

/-- The page `p` of the list is at `UTEMP`. -/
def Vmm.taken (v : Vmm) (p : Nat) (L : List Nat) : Vmm :=
  { (v.setPage p fun _ => 0#8).setSpace utempVa (some p) with free := L }

theorem Vmm.taken_space (v : Vmm) (p : Nat) (L : List Nat) : (v.taken p L).space utempVa = some p :=
  show update v.space utempVa (some p) utempVa = some p from update_self ..

theorem Vmm.taken_pages (v : Vmm) (p : Nat) (L : List Nat) : (v.taken p L).pages p = fun _ => 0#8 :=
  setPage_pages ..

theorem sysPageAlloc_eq (hv : v.free = p :: L) :
    v.sysPageAlloc utempVa 7#32 = (0, v.taken p L) := by
  rw [Vmm.sysPageAlloc, if_pos (by decide), hv]
  rfl

theorem sysPageUnmap_eq : v.sysPageUnmap utempVa = (0, v.setSpace utempVa none) :=
  if_pos (by decide)

theorem sysEptMap_eq {pa : Word} (hspace : v.space utempVa = some p) (hguest : v.guestId = guest)
    (hpa : pa.toNat % 4096 = 0) (hin : pa < v.physSz) :
    v.sysEptMap utempVa guest pa 7#32 = (0, v.setGuest (pa.toNat / 4096) p) := by
  have hoff : pgoff pa = 0 := by
    refine eq_of_toNat_eq ?_
    rw [pgoff_toNat, hpa]
    rfl
  rw [Vmm.sysEptMap, if_neg (not_not.mpr hguest.symm),
    if_pos ⟨by decide, by decide, hoff, hin, by decide⟩, hspace]

theorem seek_eq {o : BitVec 32} : v.seek v.fd o = (0, v.setOffset o) := if_pos rfl

theorem readn_eq {m : Word} (hspace : v.space utempVa = some p) (hm : m.toNat ≤ 4096)
    (hfile : v.offset.toNat + m.toNat ≤ v.fileSize) :
    v.readn v.fd utempVa m = ((m.toNat : Int), (v.setPage p (patch (v.pages p) 0
      (v.file.bytes (v.offset.setWidth 64) m.toNat))).setOffset
        (v.offset + BitVec.ofNat 32 m.toNat)) := by
  have hwrite := write_page (o := 0) (l := v.file.bytes (v.offset.setWidth 64) m.toNat)
    (show utempVa.toNat % 4096 = 0 by decide) hspace (by rw [Image.bytes_length]; omega) (by decide)
  rw [show utempVa + BitVec.ofNat 64 0 = utempVa by decide] at hwrite
  rw [Vmm.readn, if_pos rfl, Vmm.nextBytes, Nat.min_eq_left (by omega)]
  dsimp only
  rw [hwrite, Image.bytes_length]

/-- A page that has been taken, filled and mapped is the guest's. -/
theorem taken_fill {f : Nat → BitVec 8} {g : Nat} {o o' : BitVec 32} :
    (((((v.taken p L).setOffset o).setPage p f).setOffset o').setGuest g p).setSpace utempVa none =
      v.fill p L f g o' := by
  simp only [Vmm.taken, Vmm.setPage, Vmm.setSpace, Vmm.setGuest, Vmm.setOffset, Vmm.fill,
    update_idem]

theorem taken_fill_zero {g : Nat} :
    ((v.taken p L).setGuest g p).setSpace utempVa none =
      v.fill p L (fun _ => 0#8) g v.offset := by
  simp only [Vmm.taken, Vmm.setPage, Vmm.setSpace, Vmm.setGuest, Vmm.fill, update_idem]

/-! ### The loops -/

theorem roundAddr_toNat (hi : i.toNat < 2 ^ 31) (htop : gpa.toNat + i.toNat < 2 ^ 64) :
    (gpa + i.signExtend 64).toNat = gpa.toNat + i.toNat := by
  rw [toNat_add, signExtend_toNat hi, Nat.mod_eq_of_lt htop]

/-- The page at `UTEMP` becomes the guest's page at `gpa + i`: each round ends so. -/
theorem giveToGuest (hc : c.Documented view) (hs : view s = v) (hspace : v.space utempVa = some p)
    (hguest : v.guestId = guest) (hi : i.toNat < 2 ^ 31)
    (hpage : (gpa.toNat + i.toNat) % 4096 = 0) (hin : gpa.toNat + i.toNat < v.physSz.toNat) :
    ∃ s1 s2, (c.sysEptMap utempVa guest (gpa + i.signExtend 64) 7#32).run s = .ok (0, s1) ∧
      (c.sysPageUnmap utempVa).run s1 = .ok (0, s2) ∧
      view s2 = (v.setGuest ((gpa.toNat + i.toNat) / 4096) p).setSpace utempVa none := by
  have hpa := roundAddr_toNat hi (Nat.lt_trans hin v.physSz.isLt)
  obtain ⟨s1, h1, e1⟩ := (hc.sysEptMap utempVa guest (gpa + i.signExtend 64) 7#32).run hs
    (sysEptMap_eq hspace hguest (by rw [hpa]; exact hpage)
      (BitVec.lt_def.mpr (by rw [hpa]; exact hin)))
  obtain ⟨s2, h2, e2⟩ := (hc.sysPageUnmap utempVa).run e1 sysPageUnmap_eq
  rw [hpa] at e2
  exact ⟨s1, s2, h1, h2, e2⟩

theorem minWord_toNat (a b : Word) : (minWord a b).toNat = min a.toNat b.toNat := by
  rw [minWord]
  split <;> rename_i h <;> rw [le_def] at h <;> omega

/-- The bytes that `map_in_guest` should put into the guest: `filesz` of the file, and zeros. -/
def segmentByte (file : Image) (fileoffset : BitVec 32) (filesz : Word) (x : Nat) : BitVec 8 :=
  if x < filesz.toNat then file (fileoffset.setWidth 64 + BitVec.ofNat 64 x) else 0#8

/-- One round of the first loop. -/
theorem mapFile_round {S : VmmSetup} (hc : c.Documented view) (h : (view s).Ready)
    (hS : (view s).toVmmSetup = S) (hv : (view s).free = p :: L) (hguest : S.guestId = guest)
    (hi : i.toNat < 2 ^ 31) (hlt : i.toNat < filesz.toNat)
    (hpage : (gpa.toNat + i.toNat) % 4096 = 0) (hin : gpa.toNat + i.toNat < S.physSz.toNat)
    (hoff : fileoffset.toNat + filesz.toNat < 2 ^ 31)
    (hfile : fileoffset.toNat + filesz.toNat ≤ S.fileSize) :
    ∃ s', (mapFile c guest gpa S.fd filesz fileoffset (n + 1) i).run s =
        (mapFile c guest gpa S.fd filesz fileoffset n (i + 4096#32)).run s' ∧
      Filled (segmentByte S.file fileoffset filesz) (view s) (gpa.toNat + i.toNat) i.toNat 1
        (view s') := by
  subst hS
  have hx : (i.signExtend 64).toNat = i.toNat := signExtend_toNat hi
  have hm : (minWord 4096#64 (filesz - i.signExtend 64)).toNat =
      min 4096 (filesz.toNat - i.toNat) := by
    have hrest : (filesz - i.signExtend 64).toNat = filesz.toNat - i.toNat := by
      rw [toNat_sub, hx]
      omega
    rw [minWord_toNat, hrest]
    rfl
  have hseek : (fileoffset + i).toNat = fileoffset.toNat + i.toNat := by
    rw [toNat_add]
    omega
  obtain ⟨s1, h1, e1⟩ := (hc.sysPageAlloc utempVa 7#32).run rfl (sysPageAlloc_eq hv)
  obtain ⟨s2, h2, e2⟩ := (hc.seek (view s).fd (fileoffset + i)).run e1 seek_eq
  have hfile2 : (fileoffset + i).toNat + (minWord 4096#64 (filesz - i.signExtend 64)).toNat ≤
      (view s).fileSize := by omega
  obtain ⟨s3, h3, e3⟩ := (hc.readn (view s).fd utempVa _).run e2
    (readn_eq (Vmm.taken_space (view s) p L) (by rw [hm]; exact Nat.min_le_left ..) hfile2)
  obtain ⟨s4, s5, h4, h5, e5⟩ :=
    giveToGuest hc e3 (Vmm.taken_space (view s) p L) hguest hi hpage hin
  rw [taken_fill] at e5
  refine ⟨s5, ?_, ?_⟩
  · rw [mapFile, if_pos (by rw [lt_def, hx]; exact hlt), bind_ok h1, if_neg (by decide), bind_ok h2,
      if_neg (by decide), bind_ok h3, if_neg (by omega), bind_ok h4, if_neg (by decide), bind_ok h5]
  · rw [e5]
    refine h.fill hv hpage fun x hx => ?_
    show patch ((view s).taken p L |>.pages p) 0 ((view s).file.bytes
      ((fileoffset + i).setWidth 64) _) x = segmentByte _ _ _ (i.toNat + x)
    rw [Vmm.taken_pages, patch, if_pos (Nat.zero_le x), Nat.sub_zero, segmentByte, hm]
    by_cases hlast : i.toNat + x < filesz.toNat
    · have haddr : (fileoffset + i).setWidth 64 + BitVec.ofNat 64 x =
          fileoffset.setWidth 64 + BitVec.ofNat 64 (i.toNat + x) := by
        refine eq_of_toNat_eq ?_
        rw [toNat_add, toNat_add, toNat_setWidth, toNat_setWidth, toNat_ofNat, toNat_ofNat, hseek]
        omega
      rw [if_pos hlast, Image.bytes_getElem? (by omega), haddr]
      rfl
    · rw [if_neg hlast, getElem?_eq_none (by rw [Image.bytes_length]; omega)]
      rfl

/-- One round of the second loop. -/
theorem mapZeros_round (hc : c.Documented view) (h : (view s).Ready) (hv : (view s).free = p :: L)
    (hguest : (view s).guestId = guest) (hi : i.toNat < 2 ^ 31) (hlt : i.toNat < memsz.toNat)
    (hpage : (gpa.toNat + i.toNat) % 4096 = 0) (hin : gpa.toNat + i.toNat < (view s).physSz.toNat)
    (hwant : ∀ x, i.toNat ≤ x → want x = 0#8) :
    ∃ s', (mapZeros c guest gpa memsz (n + 1) i).run s =
        (mapZeros c guest gpa memsz n (i + 4096#32)).run s' ∧
      Filled want (view s) (gpa.toNat + i.toNat) i.toNat 1 (view s') := by
  have hx : (i.signExtend 64).toNat = i.toNat := signExtend_toNat hi
  obtain ⟨s1, h1, e1⟩ := (hc.sysPageAlloc utempVa 7#32).run rfl (sysPageAlloc_eq hv)
  obtain ⟨s2, s3, h2, h3, e3⟩ :=
    giveToGuest hc e1 (Vmm.taken_space (view s) p L) hguest hi hpage hin
  rw [taken_fill_zero] at e3
  refine ⟨s3, ?_, ?_⟩
  · rw [mapZeros, if_pos (by rw [lt_def, hx]; exact hlt), bind_ok h1, if_neg (by decide),
      bind_ok h2, if_neg (by decide), bind_ok h3]
  · rw [e3]
    exact h.fill hv hpage fun x _ => (hwant _ (Nat.le_add_right ..)).symm

/-- A loop that fills one page in each round, up to `size`, fills the pages from `i` on. -/
theorem pageLoop_run (loop : Nat → BitVec 32 → Vm σ (Except Int (BitVec 32))) (S : VmmSetup)
    (want : Nat → BitVec 8) (size a lo k : Nat) (hsize : size + 4096 ≤ 2 ^ 31)
    (hstop : ∀ n (i : BitVec 32) s, i.toNat < 2 ^ 31 → size ≤ i.toNat →
      (loop (n + 1) i).run s = .ok (.ok i, s))
    (hround : ∀ n (i : BitVec 32) s p L, (view s).Ready → (view s).toVmmSetup = S →
      (view s).free = p :: L → i.toNat % 4096 = 0 → lo ≤ i.toNat → i.toNat < size →
      ∃ s', (loop (n + 1) i).run s = (loop n (i + 4096#32)).run s' ∧
        Filled want (view s) (a + i.toNat) i.toNat 1 (view s'))
    (hk : (size - i.toNat + 4095) / 4096 = k) (hn : k < n) (h : (view s).Ready)
    (hS : (view s).toVmmSetup = S) (hpage : i.toNat % 4096 = 0) (hlo : lo ≤ i.toNat)
    (hi : i.toNat ≤ size + 4095) (hfree : k ≤ (view s).free.length) :
    ∃ s' i', (loop n i).run s = .ok (.ok i', s') ∧ i'.toNat = i.toNat + 4096 * k ∧
      Filled want (view s) (a + i.toNat) i.toNat k (view s') := by
  obtain ⟨n, rfl⟩ : ∃ m, n = m + 1 := ⟨n - 1, by omega⟩
  induction k generalizing n i s with
  | zero => exact ⟨s, i, hstop n i s (by omega) (by omega), rfl, Filled.refl h _ _⟩
  | succ k ih =>
    obtain ⟨p, L, hv⟩ := exists_cons_of_length_pos (Nat.zero_lt_of_lt hfree)
    have hnext : (i + 4096#32).toNat = i.toNat + 4096 := by
      simp
      omega
    obtain ⟨s1, hrun, hf⟩ := hround n i s p L h hS hv hpage hlo (by omega)
    have hfree1 := hf.free
    obtain ⟨m, rfl⟩ : ∃ m, n = m + 1 := ⟨n - 1, by omega⟩
    obtain ⟨s', i', hrest, hend, hf'⟩ := ih (i := i + 4096#32) (by rw [hnext]; omega) hf.ready
      (hf.setup.trans hS) (by rw [hnext]; omega) (by rw [hnext]; omega) (by rw [hnext]; omega)
      (by omega) m (by omega)
    rw [hnext] at hf'
    refine ⟨s', i', hrun.trans hrest, by rw [hend, hnext]; omega, ?_⟩
    rw [Nat.add_comm k 1]
    refine hf.trans ?_
    rw [Nat.mul_one, Nat.add_assoc]
    exact hf'

/-- **`map_in_guest` copies what it should**, at an address where a page starts, and returns
`-E_NO_SYS`. -/
theorem mapInGuest_copies (hc : c.Documented view) (h : (view s).Ready)
    (hguest : (view s).guestId = guest) (hfd : (view s).fd = fd) (hpage : gpa.toNat % 4096 = 0)
    (hle : filesz.toNat ≤ memsz.toNat) (hsize : memsz.toNat + 4096 ≤ 2 ^ 31)
    (hin : gpa.toNat + memsz.toNat ≤ (view s).physSz.toNat)
    (hoff : fileoffset.toNat + filesz.toNat < 2 ^ 31)
    (hfile : fileoffset.toNat + filesz.toNat ≤ (view s).fileSize)
    (hfree : (memsz.toNat + 4095) / 4096 ≤ (view s).free.length)
    (hn : (memsz.toNat + 4095) / 4096 < n) :
    ∃ s', (mapInGuest c n guest gpa memsz fd filesz fileoffset).run s = .ok (-eNoSys, s') ∧
      (∀ i < filesz.toNat, (view s').guestMem (gpa.toNat + i) =
        some ((view s).file (fileoffset.setWidth 64 + BitVec.ofNat 64 i))) ∧
      ∀ i, filesz.toNat ≤ i → i < memsz.toNat → (view s').guestMem (gpa.toNat + i) = some 0#8 := by
  have h0 : (0#32).toNat = 0 := rfl
  -- the pages with bytes of the file
  obtain ⟨s1, i1, hrun1, hi1, hf1⟩ := pageLoop_run (mapFile c guest gpa fd filesz fileoffset)
    (view s).toVmmSetup (segmentByte (view s).file fileoffset filesz) filesz.toNat gpa.toNat 0
    ((filesz.toNat + 4095) / 4096) (i := 0#32) (n := n) (s := s) (by omega)
    (fun n i s hi hge => by
      rw [mapFile, if_neg (by rw [lt_def, signExtend_toNat hi]; omega)]
      rfl)
    (fun n i s' p L h' hS hv hi _ hlt => by
      subst hfd
      exact mapFile_round hc h' hS hv hguest (by omega) hlt (by omega) (by omega) hoff hfile)
    (by rw [h0, Nat.sub_zero]) (by omega) h rfl rfl (Nat.zero_le _) (Nat.zero_le _) (by omega)
  have hfree1 := hf1.free
  rw [h0, Nat.zero_add] at hi1
  -- and those without
  obtain ⟨s', i', hrun', -, hf'⟩ := pageLoop_run (mapZeros c guest gpa memsz)
    (view s).toVmmSetup (segmentByte (view s).file fileoffset filesz) memsz.toNat gpa.toNat
    filesz.toNat ((memsz.toNat - i1.toNat + 4095) / 4096) (i := i1) (n := n) (s := s1) (by omega)
    (fun n i s hi hge => by
      rw [mapZeros, if_neg (by rw [lt_def, signExtend_toNat hi]; omega)]
      rfl)
    (fun n i s' p L h' hS hv hi hlo hlt => by
      have hguest' : (view s').guestId = guest := (congrArg (·.guestId) hS).trans hguest
      have hphys : (view s').physSz = (view s).physSz := congrArg (·.physSz) hS
      exact mapZeros_round hc h' hv hguest' (by omega) hlt (by omega) (by rw [hphys]; omega)
        fun x hx => if_neg (by omega))
    rfl (by omega) hf1.ready hf1.setup (by omega) (by omega) (by omega) (by omega)
  refine ⟨s', ?_, ?_⟩
  · rw [mapInGuest, bind_ok hrun1]
    rw [bind_ok hrun']
    rfl
  · have hall : Filled (segmentByte (view s).file fileoffset filesz) (view s) gpa.toNat 0
        ((filesz.toNat + 4095) / 4096 + (memsz.toNat - i1.toNat + 4095) / 4096) (view s') := by
      refine Filled.trans hf1 ?_
      rw [Nat.zero_add, ← hi1]
      exact hf'
    have hbyte : ∀ i < memsz.toNat, (view s').guestMem (gpa.toNat + i) =
        some (segmentByte (view s).file fileoffset filesz i) := by
      intro i hi
      have hlt : i < 4096 * ((filesz.toNat + 4095) / 4096 +
          (memsz.toNat - i1.toNat + 4095) / 4096) := by omega
      rw [hall.mem, overlay_of_lt (by rw [length_map, length_range]; exact hlt),
        getElem?_map, getElem?_range hlt, Option.map_some, Nat.zero_add]
    refine ⟨fun i hi => ?_, fun i hge hi => ?_⟩
    · rw [hbyte i (by omega), segmentByte, if_pos hi]
    · rw [hbyte i hi, segmentByte, if_neg (by omega)]

/-- A loop leaves the function with an error only. -/
theorem mapFile_negative
    (hrun : (mapFile c guest gpa fd filesz fileoffset n i).run s = .ok (.error r, s')) : r < 0 := by
  induction n generalizing i s with
  | zero => cases hrun
  | succ n ih =>
    rw [mapFile] at hrun
    split at hrun
    · obtain ⟨r1, s1, -, hrun⟩ := bind_inv hrun
      split at hrun
      · cases hrun
        assumption
      obtain ⟨r2, s2, -, hrun⟩ := bind_inv hrun
      split at hrun
      · cases hrun
        assumption
      obtain ⟨r3, s3, -, hrun⟩ := bind_inv hrun
      split at hrun
      · cases hrun
        assumption
      obtain ⟨r4, s4, -, hrun⟩ := bind_inv hrun
      split at hrun
      · cases hrun
      obtain ⟨_, s5, -, hrun⟩ := bind_inv hrun
      exact ih hrun
    · cases hrun

theorem mapZeros_negative
    (hrun : (mapZeros c guest gpa memsz n i).run s = .ok (.error r, s')) : r < 0 := by
  induction n generalizing i s with
  | zero => cases hrun
  | succ n ih =>
    rw [mapZeros] at hrun
    split at hrun
    · obtain ⟨r1, s1, -, hrun⟩ := bind_inv hrun
      split at hrun
      · cases hrun
        assumption
      obtain ⟨r2, s2, -, hrun⟩ := bind_inv hrun
      split at hrun
      · cases hrun
      obtain ⟨_, s3, -, hrun⟩ := bind_inv hrun
      exact ih hrun
    · cases hrun

/-- **`map_in_guest` returns errors only.** -/
theorem mapInGuest_negative
    (hrun : (mapInGuest c n guest gpa memsz fd filesz fileoffset).run s = .ok (r, s')) : r < 0 := by
  rw [mapInGuest] at hrun
  obtain ⟨o, s1, h1, hrun⟩ := bind_inv hrun
  cases o with
  | error r1 =>
    cases hrun
    exact mapFile_negative h1
  | ok i =>
    obtain ⟨o, s2, h2, hrun⟩ := bind_inv hrun
    cases o with
    | error r2 =>
      cases hrun
      exact mapZeros_negative h2
    | ok _ =>
      cases hrun
      decide

/-- The loop over the headers returns `-E_NO_SYS` at the first segment. -/
theorem copySegments_run {l : List Proghdr} {r0 : Int}
    (hrun : (copySegments c n guest fd l r0).run s = .ok (r, s')) :
    r = if loadable l = [] then r0 else -eNoSys := by
  induction l generalizing s with
  | nil =>
    obtain ⟨_, _, -, hrun⟩ := bind_inv hrun
    cases hrun
    rfl
  | cons ph l ih =>
    rw [copySegments] at hrun
    split at hrun
    · rename_i hload
      rw [if_neg (by rw [loadable, filter_cons_of_pos (by simpa using hload)]; simp)]
      obtain ⟨r1, s1, h1, hrun⟩ := bind_inv hrun
      rw [if_pos (mapInGuest_negative h1)] at hrun
      obtain ⟨_, _, -, hrun⟩ := bind_inv hrun
      cases hrun
      rfl
    · rename_i hload
      rw [loadable, filter_cons_of_neg (by simpa using hload)]
      exact ih hrun

theorem readHeader_negative {fname : String}
    (hrun : (readHeader c fname).run s = .ok (.error r, s')) : r < 0 := by
  rw [readHeader] at hrun
  obtain ⟨fd, s1, -, hrun⟩ := bind_inv hrun
  split at hrun
  · cases hrun
    decide
  obtain ⟨m, s2, -, hrun⟩ := bind_inv hrun
  split at hrun
  · obtain ⟨_, _, -, hrun⟩ := bind_inv hrun
    cases hrun
    decide
  obtain ⟨_, s3, -, hrun⟩ := bind_inv hrun
  dsimp only at hrun
  split at hrun
  · obtain ⟨_, _, -, hrun⟩ := bind_inv hrun
    cases hrun
    decide
  · cases hrun

/-- **No part of a guest's kernel is ever reported to be loaded**, whatever the calls do:
`map_in_guest` never returns 0, and `copy_guest_kern_gpa` returns 0 only for a file whose headers
have no segment to load. -/
theorem guestKernel_never_loaded {σ : Type} (c : VmmCalls σ) (n : Nat) (guest : EnvId) (s : σ) :
    (∀ gpa memsz fd filesz fileoffset s',
      (mapInGuest c n guest gpa memsz fd filesz fileoffset).run s ≠ .ok (0, s')) ∧
    ∀ fname s', (copyGuestKernGpa c n guest fname).run s = .ok (0, s') →
      ∃ fd data s₁, (readHeader c fname).run s = .ok (.ok (fd, data), s₁) ∧
        loadable data.proghdrs = [] := by
  refine ⟨fun gpa memsz fd filesz fileoffset s' hrun => ?_, fun fname s' hrun => ?_⟩
  · exact absurd (mapInGuest_negative hrun) (by decide)
  · rw [copyGuestKernGpa] at hrun
    obtain ⟨o, s₁, h₁, hrun⟩ := bind_inv hrun
    match o with
    | .error r =>
      cases hrun
      exact absurd (readHeader_negative h₁) (by decide)
    | .ok (fd, data) =>
      refine ⟨fd, data, s₁, h₁, ?_⟩
      have hr := copySegments_run hrun
      by_contra hne
      rw [if_neg hne] at hr
      exact absurd hr (by decide)

/-- A guest with 16 pages, and a file of one block. -/
def smallVmm (file : Image) : Vmm where
  guestId := 4096#32
  physSz := 0x10000#64
  fname := "/vmm/kernel"
  fd := 0
  file := file
  fileSize := 512
  pages _ _ := 0#8
  space va := if va = 0xef7fd000#64 then some 9 else none
  free := [1, 2, 3]
  guest _ := none
  offset := 0#32

/-- The three bytes of the program are in the guest, with a zero after them, and `-E_NO_SYS` is
returned. -/
theorem guestKernel_refused :
    Returns ((mapInGuest vmmCalls 3 4096#32 0x6000#64 5#64 0 3#64 120#32).run
      (smallVmm smallProgram)) (fun r v => r = -eNoSys ∧ (List.range 4).map
        (fun i => v.guestMem (0x6000 + i)) = [some 1#8, some 2#8, some 3#8, some 0#8]) ∧
    Returns ((copyGuestKernGpa vmmCalls 3 4096#32 "/vmm/kernel").run (smallVmm smallProgram))
      (fun r v => r = -eNoSys ∧ v.guestMem 0x6000 = some 1#8) := by
  decide +kernel

/-- The last byte of the segment, and the zeros after it. -/
theorem mapInGuest_copies_small : ∃ v,
    (mapInGuest vmmCalls 2 4096#32 0x6000#64 5#64 0 3#64 120#32).run (smallVmm smallProgram) =
      .ok (-eNoSys, v) ∧ v.guestMem 0x6002 = some 3#8 ∧ v.guestMem 0x6004 = some 0#8 := by
  obtain ⟨v, hrun, hfile, hzero⟩ := mapInGuest_copies (n := 2) vmmCalls_documented
    (show (smallVmm smallProgram).Ready from ⟨by decide, fun _ _ h => by cases h⟩) rfl rfl
    (show (0x6000#64).toNat % 4096 = 0 by decide) (show (3#64).toNat ≤ (5#64).toNat by decide)
    (by decide) (by decide) (show (120#32).toNat + 3 < 2 ^ 31 by decide) (by decide) (by decide)
    (by decide)
  exact ⟨v, hrun, hfile 2 (by decide), hzero 4 (by decide) (by decide)⟩

end JosVmm
