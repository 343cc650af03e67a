import JosVmm.Support.Paged
import JosVmm.Machine.Icode
import JosVmm.Pmap.NewPage

/-!
# Loading — the memory of a new environment

What `load_icode` fills: the addresses below `UTOP`, as the environment's tables map them.  They are
in the ranges of the first two entries of the root (`userTree`), of which the second is the
kernel's.  In a `UserSpace` each page that is mapped below `UTOP` is a page of its own, counted
once, and open to the user.

To the loader the space is a memory in pages (`Pmap.userMem`):

* `UserSpace.newPage` — a page that is mapped anew leaves the others alone;
* `UserSpace.writeUser` — what is copied to mapped addresses is there afterwards.
-/

namespace JosVmm
open Support Support.Radix Support.Prog Support.Paged Function BitVec Pmap

variable {s s' : Pmap} {L L' : List Nat} {r p pp : Nat} {va va' : Word} {b : BitVec 8}

/-! ### Bytes of memory -/

/-- The byte at the physical address `a`. -/
def Pmap.byteAt (s : Pmap) (a : Nat) : BitVec 8 := (s.mem (a / 8) >>> (8 * (a % 8))).setWidth 8

/-- A word with the byte `j` replaced. -/
def putByte (w : Word) (j : Nat) (b : BitVec 8) : Word :=
  (w &&& ~~~(0xFF#64 <<< (8 * j))) ||| (b.setWidth 64 <<< (8 * j))

theorem byteMask_getLsbD (i : Nat) : (0xFF#64).getLsbD i = decide (i < 8) := by
  rw [show 0xFF#64 = (BitVec.allOnes 8).setWidth 64 by decide, getLsbD_setWidth, getLsbD_allOnes]
  by_cases h : i < 8
  · simp [h, show i < 64 by omega]
  · simp [h]

theorem putByte_self {w : Word} {j : Nat} (hj : j < 8) :
    (putByte w j b >>> (8 * j)).setWidth 8 = b := by
  refine eq_of_getLsbD_eq fun i hi => ?_
  have h1 : 8 * j + i < 64 := by omega
  have h2 : i < 64 := by omega
  simp [putByte, byteMask_getLsbD, hi, h1, h2]

theorem putByte_of_ne {w : Word} {j j' : Nat} (hj : j ≠ j') :
    (putByte w j b >>> (8 * j')).setWidth 8 = (w >>> (8 * j')).setWidth 8 := by
  refine eq_of_getLsbD_eq fun i hi => ?_
  rcases Nat.lt_or_gt_of_ne hj with h | h
  · have h1 : 8 ≤ 8 * j' + i - 8 * j := by omega
    simp [putByte, byteMask_getLsbD, hi, Nat.not_lt.mpr h1, getLsbD_of_ge b _ h1]
    exact lt_of_getLsbD
  · have h1 : 8 * j' + i < 8 * j := by omega
    simp [putByte, byteMask_getLsbD, hi, h1]
    exact lt_of_getLsbD

/-- Memory with one byte replaced. -/
def Pmap.putByte (s : Pmap) (a : Nat) (b : BitVec 8) : Pmap :=
  s.setWord (a / 8) (JosVmm.putByte (s.mem (a / 8)) (a % 8) b)

theorem storeByte_run {a : Nat} (ha : a / 8 < s.npages * 512) :
    (storeByte a b).run s = .ok ((), s.putByte a b) := by
  rw [storeByte, bind_ok (load_run ha)]
  exact store_run ha _

theorem byteAt_putByte (a a' : Nat) :
    (s.putByte a b).byteAt a' = if a' = a then b else s.byteAt a' := by
  rw [byteAt, Pmap.putByte]
  by_cases hw : a' / 8 = a / 8
  · rw [hw, setWord_self]
    by_cases ha : a' = a
    · rw [if_pos ha, ha]
      exact putByte_self (Nat.mod_lt _ (by decide))
    · rw [if_neg ha, putByte_of_ne (by omega), byteAt, hw]
  · rw [setWord_of_ne hw, if_neg (by rintro rfl; exact hw rfl)]
    rfl

/-- The bytes of a page are in its words. -/
theorem byteAt_congr {off : Nat} (hoff : off < 4096) (h : ∀ a, a / 512 = p → s'.mem a = s.mem a) :
    s'.byteAt (p * 4096 + off) = s.byteAt (p * 4096 + off) := by
  rw [byteAt, byteAt, h _ (by omega)]

/-! ### User addresses -/

/-- The entries of the root below which the user's addresses are. -/
def userSlots (i : Fin 512) : Prop := i.val < 2

abbrev userTree (r : Nat) : Layout 512 := single userSlots r

theorem utop_toNat : utop.toNat = 0x8000800000 := rfl

theorem userSlots_of_lt (h : va < utop) : userSlots (pml4 va) := by
  rcases pml4_of_lt_utop h with h | h <;> rw [userSlots, h] <;> decide

theorem userNode (h : va < utop) : (userTree r).Node r (vpn va).path :=
  single_node (userSlots_of_lt h)

theorem user_vpn_eq_iff (h : va < utop) (h' : va' < utop) :
    vpn va = vpn va' ↔ va.toNat / 4096 = va'.toNat / 4096 := by
  rw [lt_def, utop_toNat] at h h'
  exact vpn_eq_iff (by omega) (by omega)

/-- The flags that let the user write: `PTE_P|PTE_W|PTE_U`. -/
def userFlags : Word := 7#64

theorem flag_of_userFlags {w c : Word} (h : w &&& userFlags = userFlags)
    (hc : userFlags &&& c ≠ 0) : w &&& c ≠ 0 := by
  intro h0
  refine hc ?_
  rw [← h, BitVec.and_comm w, BitVec.and_assoc, h0]
  exact and_zero

/-- **The memory of an environment that is being loaded.** -/
structure UserSpace (r : Nat) (s : Pmap) (L : List Nat) : Prop where
  wf : Wf (userTree r) s L
  /-- Pages that are mapped are allocated, are no tables, and are counted once. -/
  own : ∀ va < utop, Replaceable (userTree r) s L r (vpn va)
  once : ∀ va < utop, ∀ va' < utop, ∀ p, view hostReading (userTree r) s r (vpn va) = some p →
    view hostReading (userTree r) s r (vpn va') = some p → vpn va = vpn va'
  opened : ∀ va < utop, ∀ w, view rawReading (userTree r) s r (vpn va) = some w →
    w &&& userFlags = userFlags ∧ Grants s r (vpn va) userFlags

/-- The byte that an environment with the root `r` finds at `va`. -/
def Pmap.userByte (s : Pmap) (r : Nat) (va : Word) : Option (BitVec 8) :=
  (s.translate r va).map fun pa => s.byteAt pa.toNat

/-- What it finds below `UTOP`. -/
def Pmap.userMem (s : Pmap) (r : Nat) : Mem (BitVec 8) := fun a =>
  if a < utop.toNat then s.userByte r (BitVec.ofNat 64 a) else none

theorem userMem_toNat (h : va < utop) : s.userMem r va.toNat = s.userByte r va := by
  rw [userMem, if_pos (BitVec.lt_def.mp h), ofNat_toNat, setWidth_eq]

theorem exists_user {x : Nat} (h : x < utop.toNat) : ∃ va : Word, va.toNat = x ∧ va < utop := by
  have hx : (BitVec.ofNat 64 x).toNat = x := by
    rw [toNat_ofNat]
    omega
  exact ⟨BitVec.ofNat 64 x, hx, BitVec.lt_def.mpr (hx.symm ▸ h)⟩

/-- Two memories are compared at the user's addresses. -/
theorem userMem_ext {m : Mem (BitVec 8)} (hout : ∀ a, utop.toNat ≤ a → m a = none)
    (h : ∀ va < utop, s.userByte r va = m va.toNat) : s.userMem r = m := by
  funext a
  rw [userMem]
  split
  · rename_i ha
    have hva : (BitVec.ofNat 64 a).toNat = a := by
      rw [toNat_ofNat]
      omega
    rw [h _ (BitVec.lt_def.mpr (by rw [hva]; exact ha)), hva]
  · rename_i ha
    rw [hout a (Nat.not_lt.mp ha)]

theorem userMem_out {a : Nat} (h : utop.toNat ≤ a) : s.userMem r a = none :=
  if_neg (Nat.not_lt.mpr h)

/-- The byte of a mapped page. -/
theorem userByte_of_view {F : Layout 512} (hp : p < s.npages)
    (h : view hostReading F s r (vpn va) = some p) :
    s.userByte r va = some (s.byteAt (p * 4096 + va.toNat % 4096)) := by
  rw [view_host_raw] at h
  obtain ⟨w, hw, hpw⟩ := Option.map_eq_some_iff.mp h
  have hp52 := lt_two_pow_52 hp
  have hnp := s.npages_le
  rw [userByte, translate_of_view hw, Option.map_some]
  congr 2
  rw [toNat_add, pgoff_toNat, ← page2pa_ppn, ← ppn_pteAddr, hpw, page2pa_toNat hp52]
  omega

theorem userByte_of_view_none (h : va < utop)
    (hv : view hostReading (userTree r) s r (vpn va) = none) : s.userByte r va = none := by
  rw [view_host_raw, Option.map_eq_none_iff] at hv
  rw [userByte, translate_of_view_none (userNode h) hv]
  rfl

/-- What is found is found in a page. -/
theorem exists_page (hva : va < utop) (hb : s.userByte r va ≠ none) :
    ∃ p, view hostReading (userTree r) s r (vpn va) = some p := by
  cases hv : view hostReading (userTree r) s r (vpn va) with
  | none => exact absurd (userByte_of_view_none hva hv) hb
  | some p => exact ⟨p, rfl⟩

namespace UserSpace

/-! ### A new page -/

theorem granted_userFlags : granted 7#32 = userFlags := by decide

section

variable (hn : NewPage (userTree r) r (vpn va) 7#32 pp s L s' L')
include hn

/-- The page that has been mapped, and the others. -/
theorem view_newPage (v : Vpn) :
    view rawReading (userTree r) s' r v =
      if v = vpn va then some (pteLeaf pp 7#32) else view rawReading (userTree r) s r v := by
  rw [(hn.updated Word rawReading).1]
  by_cases hv : v = vpn va
  · subst hv
    rw [update_self, if_pos rfl]
    refine if_neg ?_
    rw [pteLeaf, or_and_self_right]
    decide
  · rw [update_of_ne hv, if_neg hv]

theorem page_newPage (hpp : pp < s.npages) (v : Vpn) :
    view hostReading (userTree r) s' r v =
      if v = vpn va then some pp else view hostReading (userTree r) s r v := by
  rw [(hn.updated Nat hostReading).1]
  by_cases hv : v = vpn va
  · subst hv
    rw [update_self, if_pos rfl]
    exact dec_pteLeaf (lt_two_pow_52 hpp) (by decide)
  · rw [update_of_ne hv, if_neg hv]

end

/-- **A page that is mapped anew** is the environment's own, and the others are left alone. -/
theorem newPage (h : UserSpace r s L) (hva : va < utop)
    (hn : NewPage (userTree r) r (vpn va) 7#32 pp s L s' L') :
    UserSpace r s' L' ∧ Renews 4096 (s.userMem r) (s'.userMem r) va.toNat 1 := by
  have hpp : pp < s.npages := h.wf.lt pp hn.taken
  -- the pages that were mapped are as they were
  have hkept : ∀ va' < utop, vpn va' ≠ vpn va → ∀ p,
      view hostReading (userTree r) s r (vpn va') = some p →
      p ∉ L ∧ view hostReading (userTree r) s r (vpn va) ≠ some p := by
    intro va' hva' hne p hp
    exact ⟨(h.own va' hva' p hp).2.1, fun hc => hne (h.once va' hva' va hva p hp hc)⟩
  refine ⟨⟨hn.wf, fun va' hva' p hp => ?_, fun va1 h1 va2 h2 p hp1 hp2 => ?_,
    fun va' hva' w hw => ?_⟩, fun x hx => ?_, fun x hx => ?_⟩
  · rw [page_newPage hn hpp] at hp
    split at hp
    · obtain rfl := Option.some.inj hp
      exact ⟨hn.npages ▸ hpp, hn.not_free, hn.counted, hn.not_table⟩
    · obtain ⟨hlt, hpL, hone, hT⟩ := h.own va' hva' p hp
      obtain ⟨-, hnot⟩ := hkept va' hva' ‹_› p hp
      exact ⟨hn.npages ▸ hlt, fun hc => (hn.free p hc).elim hpL hnot,
        (hn.ref p hpL hnot).trans hone, fun hc => (hn.tables p hc).elim hT hpL⟩
  · rw [page_newPage hn hpp] at hp1 hp2
    split at hp1 <;> split at hp2
    · rw [‹vpn va1 = _›, ‹vpn va2 = _›]
    · obtain rfl := Option.some.inj hp1
      exact absurd hn.taken (h.own va2 h2 pp hp2).2.1
    · obtain rfl := Option.some.inj hp2
      exact absurd hn.taken (h.own va1 h1 pp hp1).2.1
    · exact h.once va1 h1 va2 h2 p hp1 hp2
  · rw [view_newPage hn] at hw
    split at hw
    · obtain rfl := Option.some.inj hw
      rw [‹vpn va' = _›]
      refine ⟨?_, granted_userFlags ▸ hn.grants⟩
      rw [pteLeaf, BitVec.or_assoc, show (7#32).signExtend 64 ||| pteP = userFlags by decide]
      exact or_and_self_right ..
    · obtain ⟨hw, hg⟩ := h.opened va' hva' w hw
      exact ⟨hw, hn.keeps _ _ (userNode hva') hg⟩
  · -- the page of `va` ends below `UTOP`
    obtain ⟨y, h1, h2, hy⟩ := hx
    obtain rfl : y = va.toNat := by omega
    obtain ⟨va', hx, hva'⟩ := exists_user (x := x) (by
      rw [lt_def, utop_toNat] at hva
      rw [utop_toNat]
      omega)
    rw [← hx, userMem_toNat hva', userByte_of_view (hn.npages ▸ hpp) (p := pp)]
    · exact Option.some_ne_none _
    · rw [page_newPage hn hpp, if_pos]
      rw [user_vpn_eq_iff hva' hva, hx, hy]
  · rcases Nat.lt_or_ge x utop.toNat with hlt | hge
    · obtain ⟨va', rfl, hva'⟩ := exists_user hlt
      have hne : vpn va' ≠ vpn va := by
        intro hc
        rw [user_vpn_eq_iff hva' hva] at hc
        exact hx ⟨va.toNat, Nat.le_refl _, Nat.lt_succ_self _, hc.symm⟩
      rw [userMem_toNat hva', userMem_toNat hva']
      have hpage := page_newPage hn hpp (vpn va')
      rw [if_neg hne] at hpage
      cases hv : view hostReading (userTree r) s r (vpn va') with
      | none =>
        rw [userByte_of_view_none hva' hv, userByte_of_view_none hva' (hpage.trans hv)]
      | some p =>
        obtain ⟨hlt, hpL, -, hT⟩ := h.own va' hva' p hv
        rw [userByte_of_view hlt hv, userByte_of_view (hn.npages ▸ hlt) (hpage.trans hv),
          byteAt_congr (Nat.mod_lt _ (by decide))]
        rintro a rfl
        exact hn.frame a hpL hT
    · rw [userMem_out hge, userMem_out hge]

/-! ### Stores -/

section

variable (h : UserSpace r s L)
include h

/-- A store to a page that is no table. -/
theorem setMem {m : Nat → Word}
    (hm : ∀ t, (userTree r).IsTable dec s.mem t → ∀ i : Fin 512, m (slot t i) = s.mem (slot t i)) :
    UserSpace r (s.withMem m) L ∧ ∀ β (R : Reading β),
      view R (userTree r) (s.withMem m) r = view R (userTree r) s r := by
  have hview : ∀ β (R : Reading β), view R (userTree r) (s.withMem m) r = view R (userTree r) s r :=
    fun β R => h.wf.view_withMem hm (Finset.mem_singleton_self r)
  have hT : ∀ t, (userTree r).IsTable dec m t ↔ (userTree r).IsTable dec s.mem t := fun t =>
    Layout.isTable_congr fun _ _ hn => Layout.tableAt_agree hm hn
  refine ⟨⟨h.wf.setMem hm, fun va hva p hp => ?_, fun va hva va' hva' p hp hp' => ?_,
    fun va hva w hw => ?_⟩, hview⟩
  · rw [hview] at hp
    obtain ⟨h1, h2, h3, h4⟩ := h.own va hva p hp
    exact ⟨h1, h2, h3, fun hc => h4 ((hT p).mp hc)⟩
  · rw [hview] at hp hp'
    exact h.once va hva va' hva' p hp hp'
  · rw [hview] at hw
    obtain ⟨hw, t₁, t₂, u, hp, g1, g2, g3⟩ := h.opened va hva w hw
    have hn := userNode (r := r) hva
    have e1 := hm r ⟨r, [], hn.root, rfl⟩ (vpn va).1
    have e2 := hm t₁ ⟨r, _, Layout.Node.path₁ hn, hp.tab₁⟩ (vpn va).2.1
    have e3 := hm t₂ ⟨r, _, Layout.Node.path₂ hn, hp.tab₂⟩ (vpn va).2.2.1
    refine ⟨hw, t₁, t₂, u, ⟨?_, ?_, ?_⟩, ?_, ?_, ?_⟩ <;> rw [withMem_mem]
    · rw [e1]; exact hp.pml4e
    · rw [e2]; exact hp.pdpe
    · rw [e3]; exact hp.pde
    · rw [e1]; exact g1
    · rw [e2]; exact g2
    · rw [e3]; exact g3

/-- **A byte is stored** at a mapped address. -/
theorem putByte (hva : va < utop) (hp : view hostReading (userTree r) s r (vpn va) = some p)
    (b : BitVec 8) :
    UserSpace r (s.putByte (p * 4096 + va.toNat % 4096) b) L ∧
      (s.putByte (p * 4096 + va.toNat % 4096) b).userMem r =
        overlay (s.userMem r) va.toNat [b] := by
  obtain ⟨hlt, -, -, hT⟩ := h.own va hva p hp
  obtain ⟨h', hview⟩ := h.setMem (m := (s.putByte (p * 4096 + va.toNat % 4096) b).mem) (by
    intro t ht i
    refine setWord_of_ne fun e => hT ?_
    obtain rfl : t = p := by
      rw [← slot_div t i, e]
      omega
    exact ht)
  have hview : view hostReading (userTree r) (s.putByte (p * 4096 + va.toNat % 4096) b) r =
      view hostReading (userTree r) s r := hview Nat hostReading
  refine ⟨h', userMem_ext (fun a ha => ?_) fun va' hva' => ?_⟩
  · rw [overlay_of_not, userMem_out ha]
    rw [lt_def] at hva
    simp only [List.length_singleton]
    omega
  · cases hv : view hostReading (userTree r) s r (vpn va') with
    | none =>
      rw [userByte_of_view_none hva' (by rw [hview, hv]), overlay_of_not, userMem_toNat hva',
        userByte_of_view_none hva' hv]
      rintro ⟨h1, h2⟩
      rw [List.length_singleton] at h2
      rw [show va' = va from eq_of_toNat_eq (by omega), hp] at hv
      cases hv
    | some p' =>
      obtain ⟨hlt', -⟩ := h.own va' hva' p' hv
      rw [userByte_of_view (s := s.putByte _ _) hlt' (by rw [hview, hv]), byteAt_putByte, overlay,
        List.length_singleton]
      by_cases he : va' = va
      · rw [he, hp] at hv
        obtain rfl := Option.some.inj hv
        rw [he, if_pos rfl, if_pos (by omega), Nat.sub_self]
        rfl
      · have hne : va'.toNat ≠ va.toNat := fun e => he (eq_of_toNat_eq e)
        rw [if_neg, if_neg (by omega), userMem_toNat hva', userByte_of_view hlt' hv]
        -- another address of the page, or of another page
        intro e
        obtain rfl : p' = p := by omega
        have := (user_vpn_eq_iff hva' hva).mp (h.once va' hva' va hva p' hv hp)
        omega

theorem storeUser (hva : va < utop) (hb : s.userByte r va ≠ none) (b : BitVec 8) :
    ∃ s', (storeUser (some (r * 512)) va b).run s = .ok ((), s') ∧ UserSpace r s' L ∧
      s'.npages = s.npages ∧ s'.userMem r = overlay (s.userMem r) va.toNat [b] := by
  obtain ⟨p, hp⟩ := exists_page hva hb
  obtain ⟨hlt, -⟩ := h.own va hva p hp
  have hnp := s.npages_le
  have hn := userNode (r := r) hva
  obtain ⟨h', hmem⟩ := h.putByte hva hp b
  refine ⟨_, ?_, h', rfl, hmem⟩
  obtain ⟨w, hw, hpw⟩ := Option.map_eq_some_iff.mp ((view_host_raw (vpn va)).symm.trans hp)
  obtain ⟨hflags, -⟩ := h.opened va hva w hw
  obtain ⟨-, u, hu, hread⟩ := exists_tab_of_view hw
  have hwalk := pml4eWalk_find va (h.wf.tab_lt hn.root rfl) fun ρ c ⟨σ, e⟩ hc =>
    h.wf.tab_lt (Layout.Node.of_append (σ := σ) (e ▸ hn)) hc
  have hword : s.mem (slot u (ptx va)) = w := by
    change (if _ then _ else _) = _ at hread
    split at hread
    · cases hread
    · exact Option.some.inj hread
  rw [JosVmm.storeUser, bind_ok hwalk, entryAt, hu, vpn_last]
  simp only [Option.map_some]
  rw [bind_ok (load_run (h.wf.slot_lt hn hu _)), hword, if_neg, pgoff_toNat, ← page2pa_ppn,
    ← ppn_pteAddr, hpw, page2pa_toNat (lt_two_pow_52 hlt)]
  · exact storeByte_run (by omega)
  · rintro (hc | hc)
    · exact flag_of_userFlags hflags (by decide) hc
    · exact flag_of_userFlags hflags (by decide) hc

/-- **What is copied to mapped addresses is there afterwards**, and nothing else changes. -/
theorem writeUser {l : List (BitVec 8)} (htop : va.toNat + l.length ≤ utop.toNat)
    (hb : ∀ i < l.length, s.userMem r (va.toNat + i) ≠ none) :
    ∃ s', (writeUser (some (r * 512)) l va).run s = .ok ((), s') ∧ UserSpace r s' L ∧
      s'.npages = s.npages ∧ s'.userMem r = overlay (s.userMem r) va.toNat l := by
  induction l generalizing s va with
  | nil => exact ⟨s, rfl, h, rfl, overlay_nil.symm⟩
  | cons b l ih =>
    rw [List.length_cons] at htop hb
    have hva : va < utop := BitVec.lt_def.mpr (by omega)
    have hnext : (va + 1#64).toNat = va.toNat + 1 := by
      simp
      omega
    obtain ⟨s1, hrun, h1, hnp1, hm1⟩ := h.storeUser hva
      (by rw [← userMem_toNat hva]; exact hb 0 (by omega)) b
    have htop1 : (va + 1#64).toNat + l.length ≤ utop.toNat := by rw [hnext]; omega
    obtain ⟨s', hrest, h', hnp', hm'⟩ := ih h1 htop1 (by
      intro i hi
      rw [hm1, hnext, Nat.add_assoc, Nat.add_comm 1]
      exact overlay_ne_none (hb (i + 1) (by omega)))
    refine ⟨s', ?_, h', hnp'.trans hnp1, ?_⟩
    · rw [JosVmm.writeUser, bind_ok hrun]
      exact hrest
    · rw [hm', hm1, hnext]
      exact (overlay_append [b] l).symm

end

end UserSpace

end JosVmm
