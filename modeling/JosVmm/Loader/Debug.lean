import JosVmm.Loader.Image

/-!
# Loading — the debug sections

`load_icode` copies the debug sections one after the other from `USTABDATA` on, and
`find_debug_sections` goes through the same headers later to find them.  Both compute the same
addresses (`findDebugSections_eq`, `loadDebugs_address`).  But sections are packed without regard to
pages, and `region_alloc` maps a fresh page for each page of a section: a section that starts in the
middle of a page takes away what the section before it has there.

* `debugSections_found` — sections that end with a page are found, with all their bytes;
* `packedSections_lost` — of two short sections the first one is lost.
-/

namespace JosVmm
open Support Support.Radix Support.Prog Support.Paged Function List Image

variable {r : Nat} {s s' : Pmap} {L : List Nat} {img : Image} {sh : Secthdr} {a a' : Word}
  {d d' : DebugSect} {l l₁ l₂ : List Secthdr} {info : SectionInfo}

/-! ### Names -/

/-- The section has the name of the entry `d`. -/
def Image.Named (img : Image) (d : DebugSect) (sh : Secthdr) : Prop :=
  img.nameIs (img.nameOf sh) d.dsName = true

instance : Decidable (img.Named d sh) := inferInstanceAs (Decidable (_ = true))

/-- The start of a name; no two of the five agree in it. -/
def DebugSect.start (d : DebugSect) : List (BitVec 8) :=
  (d.dsName.toList.map fun c => BitVec.ofNat 8 c.toNat).take 8

theorem Image.bytes_take {off : Word} {n m : Nat} (h : m ≤ n) :
    (img.bytes off n).take m = img.bytes off m := by
  rw [bytes, ← map_take, take_range, Nat.min_eq_left h]
  rfl

theorem named_start (h : img.Named d sh) : img.bytes (img.nameOf sh) 8 = d.start := by
  have hname := of_decide_eq_true h
  have hlen : 8 ≤ d.dsName.length := by cases d <;> decide
  rw [← bytes_take (Nat.le_succ_of_le hlen), hname, DebugSect.start, take_append_of_le_length]
  rw [length_map, String.length_toList]
  exact hlen

/-- A section has one name. -/
theorem named_unique (h : img.Named d sh) (h' : img.Named d' sh) : d = d' := by
  have heq := (named_start h).symm.trans (named_start h')
  revert heq
  cases d <;> cases d' <;> decide

theorem isDebug_iff : img.isDebug sh = true ↔ ∃ d, img.Named d sh := by
  simp only [isDebug, any_cons, any_nil, Bool.or_false, Bool.or_eq_true]
  constructor
  · rintro (h | h | h | h | h)
    · exact ⟨.debugInfo, h⟩
    · exact ⟨.debugAbbrev, h⟩
    · exact ⟨.debugLine, h⟩
    · exact ⟨.debugFrame, h⟩
    · exact ⟨.debugStr, h⟩
  · rintro ⟨d, h⟩
    cases d with
    | debugInfo => exact .inl h
    | debugAbbrev => exact .inr (.inl h)
    | debugLine => exact .inr (.inr (.inl h))
    | debugFrame => exact .inr (.inr (.inr (.inl h)))
    | debugStr => exact .inr (.inr (.inr (.inr h)))

/-! ### Addresses -/

/-- `debug_address` after the sections `l`, from `a` on. -/
def Image.debugAddress (img : Image) (a : Word) (l : List Secthdr) : Word :=
  l.foldl (fun a sh => if img.isDebug sh then a + sh.shSize else a) a

/-- The address that `load_icode` has come to. -/
theorem loadDebugs_address {pml4e : Option Ptr}
    (hrun : (l.foldlM (loadDebug pml4e img) a).run s = .ok (a', s')) :
    a' = img.debugAddress a l := by
  induction l generalizing a s with
  | nil =>
    cases hrun
    rfl
  | cons sh l ih =>
    obtain ⟨a1, s1, h1, hrest⟩ := bind_inv hrun
    rw [ih hrest, debugAddress, debugAddress, foldl_cons]
    congr 1
    rw [loadDebug] at h1
    split at h1
    · obtain ⟨_, s2, -, h2⟩ := bind_inv h1
      obtain ⟨_, s3, -, h3⟩ := bind_inv h2
      cases h3
      rw [if_pos ‹_›]
    · cases h1
      rw [if_neg ‹_›]

/-- One round of `find_debug_sections` at a section with a name. -/
theorem findDebugSection_named (h : img.Named d sh) (st : Word × SectionInfo) :
    findDebugSection img st sh = (st.1 + sh.shSize, update st.2 d
      (if d = .debugFrame then ⟨sh.shAddr, sh.shAddr, sh.shSize⟩
        else ⟨st.1, st.1, sh.shSize⟩)) := by
  have hother : ∀ d', d' ≠ d → ¬ img.nameIs (img.nameOf sh) d'.dsName = true :=
    fun d' hne h' => hne (named_unique h' h)
  have h1 := hother .debugInfo
  have h2 := hother .debugAbbrev
  have h3 := hother .debugLine
  have h4 := hother .debugFrame
  rw [Image.Named] at h
  cases d <;> simp only [DebugSect.dsName] at h h1 h2 h3 h4 <;> simp [findDebugSection, *]

theorem findDebugSection_other (h : ¬ img.isDebug sh = true) (st : Word × SectionInfo) :
    findDebugSection img st sh = st := by
  have hno : ∀ d : DebugSect, ¬ img.nameIs (img.nameOf sh) d.dsName = true :=
    fun d hd => h (isDebug_iff.mpr ⟨d, hd⟩)
  have h1 := hno .debugInfo
  have h2 := hno .debugAbbrev
  have h3 := hno .debugLine
  have h4 := hno .debugFrame
  have h5 := hno .debugStr
  simp only [DebugSect.dsName] at h1 h2 h3 h4 h5
  rw [findDebugSection, if_neg h1, if_neg h2, if_neg h3, if_neg h4, if_neg h5]

/-- The address that `find_debug_sections` has come to. -/
theorem findDebugSections_address (st : Word × SectionInfo) :
    (l.foldl (findDebugSection img) st).1 = img.debugAddress st.1 l := by
  induction l generalizing st with
  | nil => rfl
  | cons sh l ih =>
    rw [foldl_cons, ih, debugAddress, debugAddress, foldl_cons]
    congr 1
    by_cases hsh : img.isDebug sh
    · obtain ⟨d, hd⟩ := isDebug_iff.mp hsh
      rw [findDebugSection_named hd, if_pos hsh]
    · rw [findDebugSection_other hsh, if_neg hsh]

theorem findDebugSections_keeps (h : ∀ sh ∈ l, ¬ img.Named d sh) (st : Word × SectionInfo) :
    (l.foldl (findDebugSection img) st).2 d = st.2 d := by
  induction l generalizing st with
  | nil => rfl
  | cons sh l ih =>
    rw [foldl_cons, ih fun sh hsh => h sh (mem_cons_of_mem _ hsh)]
    by_cases hsh : img.isDebug sh
    · obtain ⟨d', hd'⟩ := isDebug_iff.mp hsh
      rw [findDebugSection_named hd']
      refine update_of_ne ?_ _ _
      rintro rfl
      exact h sh (mem_cons_self ..) hd'
    · rw [findDebugSection_other hsh]

/-- The headers are `l₁`, then the section `sh` with the name of `d`, then `l₂` without another one
of that name.  It is one of the four that are found where they have been copied to. -/
structure Image.Listed (img : Image) (d : DebugSect) (l₁ : List Secthdr) (sh : Secthdr)
    (l₂ : List Secthdr) : Prop where
  sections : img.sections = l₁ ++ sh :: l₂
  named : img.Named d sh
  last : ∀ sh' ∈ l₂, ¬ img.Named d sh'
  copied : d ≠ .debugFrame

/-- **Where a section is found**: at the address that `debug_address` has before it. -/
theorem findDebugSections_eq (h : img.Listed d l₁ sh l₂) :
    findDebugSections img info d = ⟨img.debugAddress ustabdata l₁, img.debugAddress ustabdata l₁,
      sh.shSize⟩ := by
  rw [findDebugSections, h.sections, foldl_append, foldl_cons,
    findDebugSections_keeps h.last, findDebugSection_named h.named]
  dsimp only
  rw [update_self, if_neg h.copied, findDebugSections_address]

/-! ### What is copied there -/

theorem debugBytes_append (l₁ l₂ : List Secthdr) :
    img.debugBytes (l₁ ++ l₂) = img.debugBytes l₁ + img.debugBytes l₂ := by
  rw [debugBytes, filter_append, map_append, sum_append]
  rfl

theorem debugAddress_toNat (h : a.toNat + img.debugBytes l < 2 ^ 64) :
    (img.debugAddress a l).toNat = a.toNat + img.debugBytes l := by
  induction l generalizing a with
  | nil => rfl
  | cons sh l ih =>
    rw [debugAddress, foldl_cons]
    by_cases hsh : img.isDebug sh
    · rw [debugBytes_cons hsh] at h ⊢
      have hnext : (a + sh.shSize).toNat = a.toNat + sh.shSize.toNat := by
        rw [BitVec.toNat_add]
        omega
      rw [if_pos hsh, ← Nat.add_assoc, ← hnext]
      exact ih (by rw [hnext]; omega)
    · rw [debugBytes_cons_of_not hsh] at h ⊢
      rw [if_neg hsh]
      exact ih h

/-- The pieces before a section, the section, and those after it. -/
theorem debugPieces_append (hsh : img.isDebug sh) :
    img.debugPieces a (l₁ ++ sh :: l₂) = img.debugPieces a l₁ ++
      img.debugPiece (img.debugAddress a l₁) sh ::
        img.debugPieces (img.debugAddress a l₁ + sh.shSize) l₂ := by
  induction l₁ generalizing a with
  | nil => exact if_pos hsh
  | cons sh' l₁ ih =>
    rw [cons_append, debugPieces, debugPieces, debugAddress, foldl_cons]
    by_cases hsh' : img.isDebug sh'
    · rw [if_pos hsh', if_pos hsh', if_pos hsh', ih]
      rfl
    · rw [if_neg hsh', if_neg hsh', if_neg hsh', ih]
      rfl

/-- A piece that is not empty is a section that is not empty. -/
theorem exists_section {p : Piece (BitVec 8)} (hp : p ∈ img.debugPieces a l) (hsize : p.size ≠ 0) :
    ∃ sh ∈ l, img.isDebug sh ∧ sh.shSize ≠ 0 := by
  induction l generalizing a with
  | nil => cases hp
  | cons sh l ih =>
    have hrest : ∀ a, p ∈ img.debugPieces a l → ∃ sh' ∈ sh :: l, img.isDebug sh' ∧
        sh'.shSize ≠ 0 := fun a hp => by
      obtain ⟨sh', hsh', h'⟩ := ih hp
      exact ⟨sh', mem_cons_of_mem _ hsh', h'⟩
    rw [debugPieces] at hp
    split at hp
    · rcases List.mem_cons.mp hp with rfl | hp
      · refine ⟨sh, mem_cons_self .., ‹_›, fun h0 => hsize ?_⟩
        rw [debugPiece, h0]
        rfl
      · exact hrest _ hp
    · exact hrest _ hp

/-- **The images of which no debug section is lost**: a section that is followed by another one
ends where a page ends.  (The sections start at `USTABDATA`, where a page starts.) -/
def Image.DebugAligned (img : Image) : Prop :=
  ∀ d l₁ sh l₂, img.Listed d l₁ sh l₂ → sh.shSize ≠ 0 →
    (∃ sh' ∈ l₂, img.isDebug sh' ∧ sh'.shSize ≠ 0) → img.debugBytes (l₁ ++ [sh]) % 4096 = 0

/-- Each of the four sections is found at the address that `load_icode` had come to when it copied
the section, and all of its bytes are there. -/
def DebugFound (img : Image) (s : Pmap) (r : Nat) : Prop :=
  ∀ d l₁ sh l₂, img.Listed d l₁ sh l₂ → ∀ info,
    (∀ s₀ a s₁, (l₁.foldlM (loadDebug (some (r * 512)) img) ustabdata).run s₀ = .ok (a, s₁) →
      findDebugSections img info d = ⟨a, a, sh.shSize⟩) ∧
    ∀ i < sh.shSize.toNat, s.userByte r ((findDebugSections img info d).dsAddr +
      BitVec.ofNat 64 i) = some (img (sh.shOffset + BitVec.ofNat 64 i))

/-- A section stays in place if it ends with a page. -/
theorem section_holds {m m' : Mem (BitVec 8)} (hb : img.InBounds) (haligned : img.DebugAligned)
    (hm : Places 4096 m img.pieces m') (hl : img.Listed d l₁ sh l₂) :
    Holds m' (img.debugAddress ustabdata l₁).toNat (img.bytes sh.shOffset sh.shSize.toNat) := by
  have hsh : img.isDebug sh := isDebug_iff.mpr ⟨d, hl.named⟩
  have htop := hb.debug
  rw [utop_toNat, hl.sections, debugBytes_append, debugBytes_cons hsh] at htop
  have hstart : (img.debugAddress ustabdata l₁).toNat =
      ustabdata.toNat + img.debugBytes l₁ := debugAddress_toNat (by omega)
  have hend : (img.debugAddress ustabdata l₁ + sh.shSize).toNat =
      ustabdata.toNat + img.debugBytes l₁ + sh.shSize.toNat := by
    rw [BitVec.toNat_add, hstart]
    omega
  rw [pieces, hl.sections, debugPieces_append hsh, ← cons_append, ← append_assoc] at hm
  have hroom : (img.debugAddress ustabdata l₁ + sh.shSize).toNat + img.debugBytes l₂ < 2 ^ 64 := by
    omega
  have hafter := debugPieces_within hroom
  refine hm.holds (fun q hq => Nat.le_of_eq (hafter q hq).2.2) fun q hq i hi ht => ?_
  obtain ⟨hge, -⟩ := hafter q hq
  change i < (img.bytes _ _).length at hi
  rw [bytes_length] at hi
  change Touches 4096 q.addr q.size ((img.debugAddress ustabdata l₁).toNat + i) at ht
  by_cases hsize : q.size = 0
  · rw [hsize] at ht
    exact not_touches_zero ht
  · -- the section ends with a page, and the piece is on later ones
    have hmod := haligned d l₁ sh l₂ hl (fun h0 => by rw [h0] at hi; exact absurd hi (by simp))
      (exists_section hq hsize)
    rw [debugBytes_append, debugBytes_cons hsh] at hmod
    change (_ + (_ + 0)) % 4096 = 0 at hmod
    obtain ⟨y, hy, -, hpage⟩ := ht
    have h0 : ustabdata.toNat = 512 * 4096 := rfl
    omega

/-- **The debug sections are found, with all their bytes**, after `load_icode` has loaded an image
whose debug sections end with a page. -/
theorem debugSections_found {e : EnvIx} {k k' : Kernel}
    (hfile : ∀ ph ∈ img.segments, ph.pFilesz ≤ ph.pMemsz)
    (hbelow : ∀ ph ∈ img.segments, ph.pVa.toNat + ph.pMemsz.toNat ≤ utop.toNat)
    (hdebug : img.debugBytes img.sections ≤ k.pm.npages * 4096) (haligned : img.DebugAligned)
    (hroot : (k.envs e).envPml4e = some (r * 512)) (h : UserSpace r k.pm L)
    (hrun : (loadIcode e img).run k = .ok ((), k')) : DebugFound img k'.pm r := by
  have hb : img.InBounds := ⟨hfile, hbelow, debug_below hdebug⟩
  rcases loadIcode_places hb (loadIcode_magic hrun) hroot h with ⟨s', L', hok, h', hm⟩ | ⟨hno, -⟩
  case inr =>
    rw [hno] at hrun
    cases hrun
  obtain rfl := (Prod.mk.inj (Except.ok.inj (hok.symm.trans hrun))).2
  intro d l₁ sh l₂ hl info
  rw [findDebugSections_eq hl]
  refine ⟨fun s₀ a s₁ hcopy => by rw [loadDebugs_address hcopy], fun i hi => ?_⟩
  have hsh : img.isDebug sh := isDebug_iff.mpr ⟨d, hl.named⟩
  have htop := hb.debug
  rw [hl.sections, debugBytes_append, debugBytes_cons hsh] at htop
  have hstart : (img.debugAddress ustabdata l₁).toNat =
      ustabdata.toNat + img.debugBytes l₁ := debugAddress_toNat (by rw [utop_toNat] at htop; omega)
  have hi' : (img.debugAddress ustabdata l₁ + BitVec.ofNat 64 i).toNat =
      (img.debugAddress ustabdata l₁).toNat + i := by
    rw [BitVec.toNat_add, BitVec.toNat_ofNat]
    omega
  have hbyte := section_holds hb haligned hm hl i (by rw [bytes_length]; exact hi)
  rw [bytes_getElem? hi, ← hi', userMem_toNat (BitVec.lt_def.mpr (by omega))] at hbyte
  exact hbyte

/-! ### Two short sections -/

/-- A `struct Secthdr`. -/
def sectHeader (name offset size : Nat) : List (BitVec 8) :=
  littleEndian 24 name ++ littleEndian 8 offset ++ littleEndian 32 size

/-- The string table `.debug_info`, `.debug_abbrev`, from which sections have their names. -/
def debugNames : List (BitVec 8) :=
  (".debug_info\x00.debug_abbrev\x00").toList.map fun c => BitVec.ofNat 8 c.toNat

/-- The string table and two debug sections of `n` and `m` bytes, all of them 1. -/
def debugProgram (n m : Nat) : Image := elfFile 0x800000 0 3 0
  (sectHeader 25 256 26 ++ sectHeader 0 282 n ++ sectHeader 12 (282 + n) m ++ debugNames ++
    List.replicate (n + m) 1#8)

/-- The first section fills a page. -/
theorem debugProgram_aligned : (debugProgram 4096 3).DebugAligned := by
  have hsections : (debugProgram 4096 3).sections = [⟨25#32, 0#64, 256#64, 26#64⟩,
      ⟨0#32, 0#64, 282#64, 4096#64⟩, ⟨12#32, 0#64, 4378#64, 3#64⟩] := by
    decide +kernel
  intro d l₁ sh l₂ hl hsize hnext
  have hsplit := hl.sections
  rw [hsections] at hsplit
  match l₁ with
  | [] =>
    obtain ⟨rfl, -⟩ := List.cons.inj hsplit
    have hnot : ∀ d, ¬ (debugProgram 4096 3).Named d ⟨25#32, 0#64, 256#64, 26#64⟩ := by
      intro d
      cases d <;> decide +kernel
    exact absurd hl.named (hnot d)
  | [_] =>
    obtain ⟨rfl, rfl, -⟩ := hsplit
    decide +kernel
  | [_, _] =>
    obtain ⟨-, -, -, rfl⟩ := hsplit
    obtain ⟨_, h, -⟩ := hnext
    cases h
  | _ :: _ :: _ :: _ => simp at hsplit

/-- Both sections are found, if the first one fills a page. -/
theorem debugSections_found_aligned : ∃ k', (loadIcode 0 (debugProgram 4096 3)).run loaderMachine =
    .ok ((), k') ∧ DebugFound (debugProgram 4096 3) k'.pm 301 := by
  have hnone : (debugProgram 4096 3).segments = [] := by decide +kernel
  have hfile : ∀ ph ∈ (debugProgram 4096 3).segments, ph.pFilesz ≤ ph.pMemsz := by
    nofun
  have hbelow : ∀ ph ∈ (debugProgram 4096 3).segments,
      ph.pVa.toNat + ph.pMemsz.toNat ≤ utop.toNat := by
    nofun
  have hdebug : (debugProgram 4096 3).debugBytes (debugProgram 4096 3).sections ≤
      loaderMachine.pm.npages * 4096 := by
    decide +kernel
  rcases loadIcode_places (e := 0) ⟨hfile, hbelow, debug_below hdebug⟩ (by decide +kernel) rfl
    loaderMachine_space with ⟨s', L', hrun, -⟩ | ⟨-, hlt⟩
  · exact ⟨_, hrun, debugSections_found hfile hbelow hdebug debugProgram_aligned rfl
      loaderMachine_space hrun⟩
  · exact absurd hlt (by decide +kernel)

theorem exists_loaded (e : EnvIx) (img : Image) (k : Kernel) {P : Unit → Kernel → Prop}
    (h : Returns ((loadIcode e img).run k) P) :
    ∃ k', (loadIcode e img).run k = .ok ((), k') ∧ P () k' := by
  obtain ⟨_, k', hrun, hP⟩ := h.exists_ok
  exact ⟨k', hrun, hP⟩

/-- **Of two short sections the first one is lost**: the page of the second one is mapped where the
first one had been copied to. -/
theorem packedSections_lost : ∃ k', (loadIcode 0 (debugProgram 2 2)).run loaderMachine =
    .ok ((), k') ∧ ¬ DebugFound (debugProgram 2 2) k'.pm 301 := by
  obtain ⟨k', hrun, hbyte⟩ := exists_loaded 0 (debugProgram 2 2) loaderMachine
    (P := fun _ k' => k'.pm.userByte 301 ustabdata = some 0#8) (by decide +kernel)
  refine ⟨k', hrun, fun h => ?_⟩
  have hl : (debugProgram 2 2).Listed .debugInfo [⟨25#32, 0#64, 256#64, 26#64⟩]
      ⟨0#32, 0#64, 282#64, 2#64⟩ [⟨12#32, 0#64, 284#64, 2#64⟩] :=
    ⟨by decide +kernel, by decide +kernel, fun sh hsh => by
      rw [List.mem_singleton.mp hsh]
      decide +kernel, by decide⟩
  have hfound := (h _ _ _ _ hl fun _ => ⟨0, 0, 0⟩).2 0 (by decide)
  change k'.pm.userByte 301 ustabdata = _ at hfound
  rw [hbyte] at hfound
  revert hfound
  decide +kernel

end JosVmm
