import JosVmm.Loader.Region
import JosVmm.Guests.Runs

/-!
# Loading — the segments of a program

`load_icode` places pieces in the memory of an environment: the loadable segments with their zeroed
rest, a page for the stack, and the debug sections, one after the other from `USTABDATA` on
(`Image.pieces`).  Each piece gets new pages, so what counts is that no later piece touches a page
of an earlier one.

* `loadImage_tries` — what `load_icode` does to memory is to place the pieces, in their order;
* `loadIcode_loads` — segments that keep to their own pages are all there in the end.
-/

namespace JosVmm
open Support Support.Radix Support.Prog Support.Paged List Image

variable {r : Nat} {s s' : Pmap} {L L' : List Nat} {img : Image} {ph : Proghdr} {sh : Secthdr}
  {a va : Word} {m : Mem (BitVec 8)}

/-! ### The pieces -/

/-- The headers with `p_type == ELF_PROG_LOAD`. -/
def loadable (l : List Proghdr) : List Proghdr := l.filter fun ph => ph.pType = 1#32

namespace Image

def segments (img : Image) : List Proghdr := loadable img.proghdrs

/-- A segment: its bytes of the file, and zeros. -/
def segmentPiece (img : Image) (ph : Proghdr) : Piece (BitVec 8) where
  addr := ph.pVa.toNat
  size := ph.pMemsz.toNat
  data := img.bytes ph.pOffset ph.pFilesz.toNat ++
    List.replicate (ph.pMemsz.toNat - ph.pFilesz.toNat) 0#8

/-- The page of the stack; nothing is copied there. -/
def stackPiece : Piece (BitVec 8) := ⟨(ustacktop - 4096#64).toNat, 4096, []⟩

/-- A debug section at the address `a`. -/
def debugPiece (img : Image) (a : Word) (sh : Secthdr) : Piece (BitVec 8) :=
  ⟨a.toNat, sh.shSize.toNat, img.bytes sh.shOffset sh.shSize.toNat⟩

/-- The debug sections among `l`, packed from `a` on. -/
def debugPieces (img : Image) (a : Word) : List Secthdr → List (Piece (BitVec 8))
  | [] => []
  | sh :: l =>
    if img.isDebug sh then img.debugPiece a sh :: img.debugPieces (a + sh.shSize) l
    else img.debugPieces a l

/-- The bytes of the debug sections among `l`. -/
def debugBytes (img : Image) (l : List Secthdr) : Nat :=
  ((l.filter img.isDebug).map fun sh => sh.shSize.toNat).sum

/-- All that `load_icode` places, in its order. -/
def pieces (img : Image) : List (Piece (BitVec 8)) :=
  img.segments.map img.segmentPiece ++ stackPiece :: img.debugPieces ustabdata img.sections

end Image

/-- Pages, counted for each piece. -/
def pagesOf (l : List (Piece (BitVec 8))) : Nat :=
  (l.map fun p => pagesIn p.addr (p.addr + p.size)).sum

theorem Image.bytes_length (off : Word) (n : Nat) : (img.bytes off n).length = n := by
  rw [bytes, length_map, length_range]

theorem Image.bytes_getElem? {off : Word} {n i : Nat} (hi : i < n) :
    (img.bytes off n)[i]? = some (img (off + BitVec.ofNat 64 i)) := by
  rw [bytes, getElem?_map, getElem?_range hi]
  rfl

/-- The data of a segment ends where the segment does. -/
theorem segmentPiece_length (h : ph.pFilesz ≤ ph.pMemsz) :
    (img.segmentPiece ph).data.length = ph.pMemsz.toNat := by
  rw [BitVec.le_def] at h
  rw [Image.segmentPiece, length_append, bytes_length, length_replicate]
  omega

theorem debugBytes_cons (hsh : img.isDebug sh) (l : List Secthdr) :
    img.debugBytes (sh :: l) = sh.shSize.toNat + img.debugBytes l := by
  rw [Image.debugBytes, filter_cons_of_pos hsh, map_cons, sum_cons]
  rfl

theorem debugBytes_cons_of_not (hsh : ¬ img.isDebug sh) (l : List Secthdr) :
    img.debugBytes (sh :: l) = img.debugBytes l := by
  rw [Image.debugBytes, filter_cons_of_neg hsh]
  rfl

/-- The debug pieces are in the debug area, and are filled with data. -/
theorem debugPieces_within {l : List Secthdr} (htop : a.toNat + img.debugBytes l < 2 ^ 64) :
    ∀ p ∈ img.debugPieces a l, a.toNat ≤ p.addr ∧ p.addr + p.size ≤ a.toNat + img.debugBytes l ∧
      p.data.length = p.size := by
  induction l generalizing a with
  | nil => nofun
  | cons sh l ih =>
    intro p hp
    rw [Image.debugPieces] at hp
    by_cases hsh : img.isDebug sh
    · rw [debugBytes_cons hsh] at htop ⊢
      have hnext : (a + sh.shSize).toNat = a.toNat + sh.shSize.toNat := by
        rw [BitVec.toNat_add]
        omega
      rw [if_pos hsh] at hp
      rcases List.mem_cons.mp hp with rfl | hp
      · refine ⟨Nat.le_refl _, ?_, bytes_length ..⟩
        dsimp only [Image.debugPiece]
        omega
      · obtain ⟨h1, h2, h3⟩ := ih (by rw [hnext]; omega) p hp
        exact ⟨by omega, by omega, h3⟩
    · rw [debugBytes_cons_of_not hsh] at htop ⊢
      rw [if_neg hsh] at hp
      exact ih htop p hp

/-! ### Placing them -/

/-- A range is mapped anew and then written. -/
theorem place_tries {p : Piece (BitVec 8)} {len : Word} {x : Pm Unit} (h : UserSpace r s L)
    (hva : va.toNat = p.addr) (hlen : len.toNat = p.size) (htop : p.addr + p.size ≤ utop.toNat)
    (hx : ∀ s' L', UserSpace r s' L' → Renews 4096 (s.userMem r) (s'.userMem r) p.addr p.size →
      Tries r 0 s' L' x fun _ m => m = overlay (s'.userMem r) p.addr p.data) :
    Tries r (4 * pagesIn p.addr (p.addr + p.size)) s L
      (do regionAlloc (some (r * 512)) va len; x) fun _ m => Place 4096 (s.userMem r) m p := by
  have halloc := regionAlloc_tries h (show va.toNat + len.toNat ≤ utop.toNat by omega)
  rw [hva, hlen] at halloc
  refine halloc.bind (k := 0) fun _ s1 L1 h1 _ hm1 => ?_
  refine (hx s1 L1 h1 hm1).mono (Nat.le_refl _) fun _ m hm => ?_
  exact ⟨_, hm1, hm⟩

/-- What has just been mapped can be written. -/
theorem renewed_writable {p : Piece (BitVec 8)} {m0 : Mem (BitVec 8)}
    (h : Renews 4096 m0 m p.addr p.size) {i : Nat} (hi : i < p.size) : m (p.addr + i) ≠ none :=
  h.mapped _ (touches_of_mem ⟨Nat.le_add_right .., Nat.add_lt_add_left hi _⟩)

/-- **A segment.** -/
theorem loadSegment_tries (h : UserSpace r s L) (hload : ph.pType = 1#32)
    (hfile : ph.pFilesz ≤ ph.pMemsz) (htop : ph.pVa.toNat + ph.pMemsz.toNat ≤ utop.toNat) :
    Tries r (4 * pagesIn ph.pVa.toNat (ph.pVa.toNat + ph.pMemsz.toNat)) s L
      (loadSegment (some (r * 512)) img ph) fun _ m =>
        Place 4096 (s.userMem r) m (img.segmentPiece ph) := by
  have hfile' := BitVec.le_def.mp hfile
  have hsub : (ph.pMemsz - ph.pFilesz).toNat = ph.pMemsz.toNat - ph.pFilesz.toNat := by
    rw [BitVec.toNat_sub]
    omega
  have hadd : (ph.pVa + ph.pFilesz).toNat = ph.pVa.toNat + ph.pFilesz.toNat := by
    rw [BitVec.toNat_add]
    omega
  rw [loadSegment, if_pos hload]
  refine place_tries (p := img.segmentPiece ph) h rfl rfl htop fun s1 L1 h1 hm1 => ?_
  have hbelow : ph.pVa.toNat + (img.bytes ph.pOffset ph.pFilesz.toNat).length ≤ utop.toNat := by
    rw [bytes_length]
    omega
  have hfirst := writeUser_tries h1 hbelow
    (fun i hi => renewed_writable hm1 (by
      rw [bytes_length] at hi
      exact Nat.lt_of_lt_of_le hi hfile'))
  refine hfirst.bind (k := 0) fun _ s2 L2 h2 _ hm2 => ?_
  show Tries r 0 s2 L2 _ fun _ m => m = overlay (s1.userMem r) ph.pVa.toNat
    (img.bytes ph.pOffset ph.pFilesz.toNat ++ _)
  rw [overlay_append, ← hm2, bytes_length, ← hsub, ← hadd]
  -- the rest of the segment is zeroed, if there is one
  by_cases hlt : ph.pFilesz < ph.pMemsz
  · rw [if_pos hlt]
    refine writeUser_tries h2 (by rw [length_replicate]; omega) fun i hi => ?_
    rw [length_replicate] at hi
    rw [hm2, hadd, Nat.add_assoc]
    refine overlay_ne_none (renewed_writable hm1 ?_)
    show _ < ph.pMemsz.toNat
    omega
  · have hge := BitVec.le_def.mp (BitVec.not_lt.mp hlt)
    rw [if_neg hlt, hsub, Nat.sub_eq_zero_of_le hge]
    exact Tries.pure h2 overlay_nil.symm

theorem pagesOf_cons (p : Piece (BitVec 8)) (l : List (Piece (BitVec 8))) :
    4 * pagesOf (p :: l) = 4 * pagesIn p.addr (p.addr + p.size) + 4 * pagesOf l := by
  rw [pagesOf, map_cons, sum_cons, Nat.mul_add]
  rfl

theorem pagesOf_append (l l' : List (Piece (BitVec 8))) :
    4 * pagesOf (l ++ l') = 4 * pagesOf l + 4 * pagesOf l' := by
  rw [pagesOf, map_append, sum_append, Nat.mul_add]
  rfl

section

variable (h : UserSpace r s L)
include h

/-- **All the segments**, in their order. -/
theorem loadSegments_tries {l : List Proghdr} 
    (hl : ∀ ph ∈ l, ph.pType = 1#32 →
      ph.pFilesz ≤ ph.pMemsz ∧ ph.pVa.toNat + ph.pMemsz.toNat ≤ utop.toNat) :
    Tries r (4 * pagesOf ((loadable l).map img.segmentPiece)) s L
      (l.forM (loadSegment (some (r * 512)) img)) fun _ m =>
        Places 4096 (s.userMem r) ((loadable l).map img.segmentPiece) m := by
  induction l generalizing s L with
  | nil => exact Tries.pure h .nil
  | cons ph l ih =>
    rw [forM_eq_forM, forM_cons]
    have hrest := fun ph hph => hl ph (mem_cons_of_mem _ hph)
    by_cases hload : ph.pType = 1#32
    · obtain ⟨hfile, htop⟩ := hl ph (mem_cons_self ..) hload
      rw [loadable, filter_cons_of_pos (by simpa using hload), map_cons, pagesOf_cons]
      refine (loadSegment_tries h hload hfile htop).bind fun _ s1 L1 h1 _ hm1 => ?_
      exact (ih h1 hrest).mono (Nat.le_refl _) fun _ m hm => .cons hm1 hm
    · rw [loadable, filter_cons_of_neg (by simpa using hload), loadSegment, if_neg hload]
      exact ih h hrest

/-- The page of the stack. -/
theorem stack_tries :
    Tries r (4 * pagesIn Image.stackPiece.addr (Image.stackPiece.addr + Image.stackPiece.size)) s L
      (regionAlloc (some (r * 512)) (ustacktop - 4096#64) 4096#64) fun _ m =>
        Place 4096 (s.userMem r) m Image.stackPiece := by
  refine (regionAlloc_tries h (by decide)).mono (Nat.le_refl _) fun _ m hm => ?_
  exact ⟨m, hm, overlay_nil.symm⟩

/-- **The debug sections**, from `a` on. -/
theorem loadDebugs_tries {l : List Secthdr} (htop : a.toNat + img.debugBytes l ≤ utop.toNat) :
    Tries r (4 * pagesOf (img.debugPieces a l)) s L
      (l.foldlM (loadDebug (some (r * 512)) img) a) fun _ m =>
        Places 4096 (s.userMem r) (img.debugPieces a l) m := by
  induction l generalizing a s L with
  | nil => exact Tries.pure h .nil
  | cons sh l ih =>
    rw [foldlM_cons, loadDebug, Image.debugPieces]
    by_cases hsh : img.isDebug sh
    · rw [debugBytes_cons hsh] at htop
      have hnext : (a + sh.shSize).toNat = a.toNat + sh.shSize.toNat := by
        rw [BitVec.toNat_add]
        omega
      rw [if_pos hsh, if_pos hsh, pagesOf_cons]
      have hplace := place_tries (p := img.debugPiece a sh)
        (x := writeUser (some (r * 512)) (img.bytes sh.shOffset sh.shSize.toNat) a) h rfl rfl
        (by show a.toNat + sh.shSize.toNat ≤ _; omega) fun s1 L1 h1 hm1 =>
          writeUser_tries h1 (by rw [bytes_length]; omega) fun i hi =>
            renewed_writable hm1 (by rw [bytes_length] at hi; exact hi)
      have hone : Tries r (4 * pagesIn a.toNat (a.toNat + sh.shSize.toNat)) s L
          (do regionAlloc (some (r * 512)) a sh.shSize
              writeUser (some (r * 512)) (img.bytes sh.shOffset sh.shSize.toNat) a
              return a + sh.shSize) fun a' m =>
            a' = a + sh.shSize ∧ Place 4096 (s.userMem r) m (img.debugPiece a sh) := by
        have := hplace.bind (f := fun _ => pure (a + sh.shSize)) (k := 0)
          fun _ s1 L1 h1 _ hm1 => Tries.pure h1 (Q := fun a' m => a' = a + sh.shSize ∧
            Place 4096 (s.userMem r) m (img.debugPiece a sh)) ⟨rfl, hm1⟩
        rw [bind_assoc] at this
        exact this
      refine hone.bind fun a' s1 L1 h1 _ ⟨ha', hm1⟩ => ?_
      rw [ha']
      exact (ih h1 (by rw [hnext]; omega)).mono (Nat.le_refl _) fun _ m hm => .cons hm1 hm
    · rw [debugBytes_cons_of_not hsh] at htop
      rw [if_neg hsh, if_neg hsh]
      exact ih h htop

/-- What the loader asks of an image: segments and debug sections are below `UTOP`, and no segment
has more bytes in the file than in memory. -/
structure Image.InBounds (img : Image) : Prop where
  file : ∀ ph ∈ img.segments, ph.pFilesz ≤ ph.pMemsz
  below : ∀ ph ∈ img.segments, ph.pVa.toNat + ph.pMemsz.toNat ≤ utop.toNat
  debug : ustabdata.toNat + img.debugBytes img.sections ≤ utop.toNat

/-- **What `load_icode` does to memory**: the pieces are placed, one after the other. -/
theorem loadImage_tries (himg : img.InBounds) :
    Tries r (4 * pagesOf img.pieces) s L (loadImage (some (r * 512)) img) fun _ m =>
      Places 4096 (s.userMem r) img.pieces m := by
  have hbounds : ∀ ph ∈ img.proghdrs, ph.pType = 1#32 →
      ph.pFilesz ≤ ph.pMemsz ∧ ph.pVa.toNat + ph.pMemsz.toNat ≤ utop.toNat := by
    intro ph hph hload
    have hmem : ph ∈ img.segments := List.mem_filter.mpr ⟨hph, by simpa using hload⟩
    exact ⟨himg.file ph hmem, himg.below ph hmem⟩
  rw [loadImage, paddr, pure_bind, Image.pieces, pagesOf_append, pagesOf_cons]
  refine (loadSegments_tries h hbounds).bind fun _ s1 L1 h1 _ hm1 => ?_
  refine (stack_tries h1).bind fun _ s2 L2 h2 _ hm2 => ?_
  refine ((loadDebugs_tries h2 himg.debug).bind (k := 0) fun _ s3 L3 h3 _ hm3 => ?_)
  exact Tries.pure h3 (hm1.append (.cons hm2 hm3))

end

/-! ### The pages of a segment -/

/-- The user may write the page, at each level. -/
def PtEntries.Writable (e : PtEntries) : Prop :=
  e.pml4e &&& pteW ≠ 0 ∧ e.pdpe &&& pteW ≠ 0 ∧ e.pde &&& pteW ≠ 0 ∧ e.pte &&& pteW ≠ 0

/-- The page of `va` is open to the user, and no other address below `UTOP` is mapped to it. -/
structure Pmap.OwnPage (s : Pmap) (r : Nat) (va : Word) (e : PtEntries) : Prop where
  walk : s.walk r va = some e
  user : e.User
  writable : e.Writable
  counted : s.ppRef (ppn (pteAddr e.pte)) = 1#16
  once : ∀ va' < utop, ∀ e', s.walk r va' = some e' → pteAddr e'.pte = pteAddr e.pte →
    va'.toNat / 4096 = va.toNat / 4096

/-- What the tables map is in the view. -/
theorem view_of_walk {e : PtEntries} (hva : va < utop) (h : s.walk r va = some e) :
    view rawReading (userTree r) s r (vpn va) = some e.pte := by
  cases hv : view rawReading (userTree r) s r (vpn va) with
  | none =>
    rw [walk_of_view_none (userNode hva) hv] at h
    cases h
  | some w =>
    obtain ⟨t₁, t₂, u, -, hw⟩ := walk_of_view hv
    rw [hw] at h
    rw [← Option.some.inj h]

theorem UserSpace.ownPage (h : UserSpace r s L) (hva : va < utop)
    (hb : s.userMem r va.toNat ≠ none) : ∃ e, s.OwnPage r va e := by
  rw [userMem_toNat hva] at hb
  obtain ⟨p, hp⟩ := exists_page hva hb
  obtain ⟨w, hw, hpw⟩ := Option.map_eq_some_iff.mp ((view_host_raw (vpn va)).symm.trans hp)
  obtain ⟨hflags, t₁, t₂, u, hpath, g1, g2, g3⟩ := h.opened va hva w hw
  obtain ⟨t1', t2', u', hpath', hwalk⟩ := walk_of_view hw
  obtain ⟨rfl, rfl, rfl⟩ := hpath.unique hpath'
  refine ⟨_, hwalk, ⟨flag_of_userFlags g1 ?_, flag_of_userFlags g2 ?_, flag_of_userFlags g3 ?_,
    flag_of_userFlags hflags ?_⟩, ⟨flag_of_userFlags g1 ?_, flag_of_userFlags g2 ?_,
    flag_of_userFlags g3 ?_, flag_of_userFlags hflags ?_⟩, ?_, fun va' hva' e' he' hpte => ?_⟩
  iterate 8 decide
  · show s.ppRef (ppn (pteAddr w)) = 1#16
    rw [hpw]
    exact (h.own va hva p hp).2.2.1
  · rw [← user_vpn_eq_iff hva' hva]
    refine h.once va' hva' va hva p ?_ hp
    rw [view_host_raw, view_of_walk hva' he', Option.map_some, hpte]
    exact congrArg some hpw

/-- A space in which nothing is mapped yet. -/
theorem UserSpace.fresh (h : Wf (userTree r) s L)
    (hempty : ∀ va < utop, s.walk r va = none) : UserSpace r s L := by
  have hnone : ∀ va < utop, view rawReading (userTree r) s r (vpn va) = none := by
    intro va hva
    cases hv : view rawReading (userTree r) s r (vpn va) with
    | none => rfl
    | some w =>
      obtain ⟨_, _, _, -, hw⟩ := walk_of_view hv
      rw [hempty va hva] at hw
      cases hw
  have hpage : ∀ va < utop, view hostReading (userTree r) s r (vpn va) = none := fun va hva => by
    rw [view_host_raw, hnone va hva]
    rfl
  refine ⟨h, fun va hva p hp => ?_, fun va hva va' _ p hp _ => ?_, fun va hva w hw => ?_⟩
  · rw [hpage va hva] at hp
    cases hp
  · rw [hpage va hva] at hp
    cases hp
  · rw [hnone va hva] at hw
    cases hw

/-! ### All segments -/

/-- The address `x` is in a page of the segment. -/
def Proghdr.Touches (ph : Proghdr) (x : Nat) : Prop :=
  Paged.Touches 4096 ph.pVa.toNat ph.pMemsz.toNat x

/-- **The images of which no segment is lost**: segments are below `UTOP` and have no more bytes in
the file than in memory, and none of them touches a page of another one, of the debug sections or
of the stack. -/
structure Image.WellPlaced (img : Image) : Prop where
  file : ∀ ph ∈ img.segments, ph.pFilesz ≤ ph.pMemsz
  below : ∀ ph ∈ img.segments, ph.pVa.toNat + ph.pMemsz.toNat ≤ utop.toNat
  apart : img.segments.Pairwise fun ph ph' => ∀ x, ph.Touches x → ¬ ph'.Touches x
  debug : ∀ ph ∈ img.segments, ∀ x, ph.Touches x →
    ¬ Paged.Touches 4096 ustabdata.toNat (img.debugBytes img.sections) x
  stack : ∀ ph ∈ img.segments, ∀ x, ph.Touches x →
    ¬ Paged.Touches 4096 (ustacktop.toNat - 4096) 4096 x

/-- The segment is in memory: the bytes of the file, zeros after them, and pages of its own. -/
structure SegmentLoaded (s : Pmap) (r : Nat) (img : Image) (ph : Proghdr) : Prop where
  file : ∀ i < ph.pFilesz.toNat,
    s.userByte r (ph.pVa + BitVec.ofNat 64 i) = some (img (ph.pOffset + BitVec.ofNat 64 i))
  zero : ∀ i, ph.pFilesz.toNat ≤ i → i < ph.pMemsz.toNat →
    s.userByte r (ph.pVa + BitVec.ofNat 64 i) = some 0#8
  pages : ∀ va : Word, ph.Touches va.toNat → ∃ e, s.OwnPage r va e

/-- The debug sections fit below `UTOP` if they fit in memory. -/
theorem debug_below (hdebug : img.debugBytes img.sections ≤ s.npages * 4096) :
    ustabdata.toNat + img.debugBytes img.sections ≤ utop.toNat := by
  have hnp := s.npages_le
  simp only [maxNpages] at hnp
  rw [utop_toNat, show ustabdata.toNat = 0x200000 from rfl]
  omega

theorem segmentPiece_fits (h : ph.pFilesz ≤ ph.pMemsz) : (img.segmentPiece ph).Fits :=
  Nat.le_of_eq (segmentPiece_length h)

/-- **Each segment holds its data in the end.** -/
theorem segment_holds {m' : Mem (BitVec 8)} (himg : img.WellPlaced) (hb : img.InBounds)
    (hm : Places 4096 m img.pieces m') (hph : ph ∈ img.segments) :
    Holds m' ph.pVa.toNat (img.segmentPiece ph).data := by
  obtain ⟨l₁, l₂, hl⟩ := append_of_mem hph
  have htop : ustabdata.toNat + img.debugBytes img.sections < 2 ^ 64 := by
    have := hb.debug
    omega
  have hl2 : ∀ ph' ∈ l₂, ph' ∈ img.segments := fun ph' h => by
    rw [hl]
    exact mem_append_right _ (mem_cons_of_mem _ h)
  have hapart := himg.apart
  rw [hl, pairwise_append] at hapart
  rw [Image.pieces, hl, map_append, map_cons, append_assoc, cons_append] at hm
  -- what is placed after the segment is of one of three kinds
  have hafter : ∀ q ∈ l₂.map img.segmentPiece ++ Image.stackPiece ::
      img.debugPieces ustabdata img.sections, q.Fits ∧
        ∀ x, ph.Touches x → ¬ Paged.Touches 4096 q.addr q.size x := by
    intro q hq
    rcases List.mem_append.mp hq with hq | hq
    · obtain ⟨ph', hph', rfl⟩ := List.mem_map.mp hq
      exact ⟨segmentPiece_fits (himg.file ph' (hl2 ph' hph')),
        (List.pairwise_cons.mp hapart.2.1).1 ph' hph'⟩
    · rcases List.mem_cons.mp hq with rfl | hq
      · exact ⟨Nat.zero_le _, himg.stack ph hph⟩
      · obtain ⟨h1, h2, h3⟩ := debugPieces_within htop q hq
        exact ⟨Nat.le_of_eq h3, fun x hx hc => himg.debug ph hph x hx (hc.mono h1 h2)⟩
  refine hm.holds (fun q hq => (hafter q hq).1) fun q hq i hi => (hafter q hq).2 _ ?_
  rw [segmentPiece_length (himg.file ph hph)] at hi
  exact touches_of_mem ⟨Nat.le_add_right .., Nat.add_lt_add_left hi _⟩

theorem segment_loaded (himg : img.WellPlaced) (hb : img.InBounds) (h : UserSpace r s L)
    (hm : Places 4096 m img.pieces (s.userMem r)) (hph : ph ∈ img.segments) :
    SegmentLoaded s r img ph := by
  have hfile := himg.file ph hph
  have hbelow := himg.below ph hph
  have hlen : (img.segmentPiece ph).data.length = ph.pMemsz.toNat := segmentPiece_length hfile
  have hdata := segment_holds himg hb hm hph
  have hadd : ∀ i < ph.pMemsz.toNat, (ph.pVa + BitVec.ofNat 64 i).toNat = ph.pVa.toNat + i := by
    intro i hi
    rw [BitVec.toNat_add, BitVec.toNat_ofNat]
    omega
  have hbyte : ∀ i < ph.pMemsz.toNat, s.userByte r (ph.pVa + BitVec.ofNat 64 i) =
      (img.segmentPiece ph).data[i]? := by
    intro i hi
    rw [← hdata i (hlen.symm ▸ hi), ← hadd i hi, userMem_toNat]
    rw [BitVec.lt_def, hadd i hi]
    omega
  refine ⟨fun i hi => ?_, fun i h1 h2 => ?_, fun va hva => ?_⟩
  · rw [hbyte i (Nat.lt_of_lt_of_le hi (BitVec.le_def.mp hfile)), Image.segmentPiece,
      getElem?_append_left (by rw [bytes_length]; exact hi), bytes_getElem? hi]
  · rw [hbyte i h2, Image.segmentPiece, getElem?_append_right (by
      rw [bytes_length]; exact h1), getElem?_replicate, bytes_length,
      if_pos (by omega)]
  · have hmapped : s.userMem r va.toNat ≠ none := by
      refine hm.mapped (p := img.segmentPiece ph) ?_ hva
      exact mem_append_left _ (mem_map_of_mem hph)
    refine h.ownPage (BitVec.lt_def.mpr (Nat.lt_of_not_le fun hge => hmapped ?_)) hmapped
    exact userMem_out hge

/-! ### `load_icode` -/

theorem loadIcode_magic {e : EnvIx} {k k' : Kernel}
    (hrun : (loadIcode e img).run k = .ok ((), k')) : img.magic = 0x464C457F#32 := by
  rw [loadIcode] at hrun
  split at hrun
  · assumption
  · cases hrun

/-- `load_icode` places the pieces and sets the entry point and the stack pointer, or there is not
enough memory: four pages for each page that a piece touches are enough. -/
theorem loadIcode_places {e : EnvIx} {k : Kernel} (hb : img.InBounds)
    (hmagic : img.magic = 0x464C457F#32) (hroot : (k.envs e).envPml4e = some (r * 512))
    (h : UserSpace r k.pm L) :
    (∃ s' L', (loadIcode e img).run k = .ok ((), (k.withPm s').setEnv e
        { k.envs e with envTf.tfRip := img.entry, envTf.tfRsp := ustacktop }) ∧
      UserSpace r s' L' ∧ Places 4096 (k.pm.userMem r) img.pieces (s'.userMem r)) ∨
    ((loadIcode e img).run k = .error .noMemory ∧ L.length < 4 * pagesOf img.pieces) := by
  rw [loadIcode, if_pos hmagic, bind_ok getEnv_run, hroot]
  rcases loadImage_tries h hb with ⟨_, s', L', hrun, h', -, -, hm⟩ | ⟨hrun, hlt⟩
  · refine .inl ⟨s', L', ?_, h', hm⟩
    rw [bind_ok (onPmap_ok hrun)]
    exact modifyEnv_run _
  · exact .inr ⟨bind_error (onPmap_error hrun), hlt⟩

/-- **`load_icode` loads every segment** of an image whose segments keep to their own pages, or
there is not enough memory. -/
theorem loadIcode_loads {e : EnvIx} {k : Kernel} (himg : img.WellPlaced)
    (hmagic : img.magic = 0x464C457F#32) (hroot : (k.envs e).envPml4e = some (r * 512))
    (h : UserSpace r k.pm L) (hdebug : img.debugBytes img.sections ≤ k.pm.npages * 4096) :
    (∃ k', (loadIcode e img).run k = .ok ((), k') ∧
      (∀ ph ∈ img.segments, SegmentLoaded k'.pm r img ph) ∧
      k'.envs e = { k.envs e with envTf.tfRip := img.entry, envTf.tfRsp := ustacktop }) ∨
    ((loadIcode e img).run k = .error .noMemory ∧ L.length < 4 * pagesOf img.pieces) := by
  have hb : img.InBounds := ⟨himg.file, himg.below, debug_below hdebug⟩
  rcases loadIcode_places hb hmagic hroot h with ⟨s', L', hrun, h', hm⟩ | hno
  · refine .inl ⟨_, hrun, fun ph hph => segment_loaded himg hb h' hm hph, ?_⟩
    rw [Kernel.setEnv_envs, Function.update_self]
  · exact .inr hno

/-! ### A machine and an image -/

/-- The `n` bytes of `v`, the lowest first. -/
def littleEndian (n v : Nat) : List (BitVec 8) :=
  (List.range n).map fun i => BitVec.ofNat 8 (v / 256 ^ i)

/-- A file with an ELF header for `phnum` program headers and `shnum` section headers, of which
`rest` is made. -/
def elfFile (entry phnum shnum shstrndx : Nat) (rest : List (BitVec 8)) : Image := fun a =>
  (littleEndian 24 0x464C457F ++ littleEndian 8 entry ++ littleEndian 8 64 ++
    littleEndian 8 (64 + 56 * phnum) ++ littleEndian 8 0 ++ littleEndian 2 phnum ++
    littleEndian 2 0 ++ littleEndian 2 shnum ++ littleEndian 2 shstrndx ++ rest).getD a.toNat 0#8

/-- A `struct Proghdr` with `p_type == ELF_PROG_LOAD`. -/
def loadHeader (offset va pa filesz memsz : Nat) : List (BitVec 8) :=
  littleEndian 8 1 ++ littleEndian 8 offset ++ littleEndian 8 va ++ littleEndian 8 pa ++
    littleEndian 8 filesz ++ littleEndian 16 memsz

/-- One segment of three bytes, of which the last one is in another page, and two zeros. -/
def smallProgram : Image :=
  elfFile 0x800ffe 1 0 0 (loadHeader 120 0x800ffe 0x6000 3 5 ++ [1#8, 2#8, 3#8])

theorem smallProgram_segments :
    smallProgram.segments = [⟨1#32, 120#64, 0x800ffe#64, 0x6000#64, 3#64, 5#64⟩] := by
  decide +kernel

theorem smallProgram_sections : smallProgram.sections = [] := by decide +kernel

theorem smallProgram_wellPlaced : smallProgram.WellPlaced := by
  have hmem : ∀ ph ∈ smallProgram.segments,
      ph = ⟨1#32, 120#64, 0x800ffe#64, 0x6000#64, 3#64, 5#64⟩ := fun ph hph => by
      exact List.mem_singleton.mp hph
  refine ⟨fun ph hph => ?_, fun ph hph => ?_, ?_, fun ph hph x hx => ?_, fun ph hph x hx => ?_⟩
  · rw [hmem ph hph]; decide
  · rw [hmem ph hph]; decide
  · rw [smallProgram_segments]
    exact pairwise_singleton ..
  · rw [smallProgram_sections]
    exact not_touches_zero
  · rw [hmem ph hph] at hx
    obtain ⟨y, h1, h2, hy⟩ := hx
    rintro ⟨z, h3, h4, hz⟩
    rw [show ustacktop.toNat = 0xef7fe000 from rfl] at h3 h4
    change y < 0x800ffe + 5 at h2
    omega

/-- The small machine, with an empty address space for the first environment. -/
def loaderMachine : Kernel :=
  (smallMachine (faultAt 2 0)).setEnv 0
    { (smallMachine (faultAt 2 0)).envs 0 with envPml4e := some (301 * 512) }

theorem loaderMachine_space :
    UserSpace 301 loaderMachine.pm (BootInfo.free ⟨160, 320, 300⟩ 512) := by
  have hz : ∀ i : Fin 512, loaderMachine.pm.mem (slot 301 i) = 0 := fun i => by
    rw [loaderMachine, Kernel.setEnv_pm, smallMachine_mem]
  have hfree : FreeList loaderMachine.pm (BootInfo.free ⟨160, 320, 300⟩ 512) := by
    rw [loaderMachine, Kernel.setEnv_pm]
    exact smallMachine_freeList _
  have hlt : 301 < loaderMachine.pm.npages := by decide +kernel
  refine UserSpace.fresh (Wf.zeroed hfree hlt (by decide +kernel) hz) fun va _ => ?_
  rw [Pmap.walk, hz, dec_zero]
  rfl

/-- The segment is loaded on the small machine. -/
theorem loadIcode_loads_small : ∃ k', (loadIcode 0 smallProgram).run loaderMachine = .ok ((), k') ∧
    (∀ ph ∈ smallProgram.segments, SegmentLoaded k'.pm 301 smallProgram ph) ∧
    smallProgram.segments ≠ [] := by
  rcases loadIcode_loads (e := 0) smallProgram_wellPlaced (by decide +kernel) rfl
    loaderMachine_space (by rw [smallProgram_sections]; exact Nat.zero_le _) with
    ⟨k', hrun, hload, -⟩ | ⟨-, hlt⟩
  · refine ⟨k', hrun, hload, ?_⟩
    exact cons_ne_nil _ _
  · exact absurd hlt (by decide +kernel)

end JosVmm
