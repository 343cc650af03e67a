import JosVmm.Ept.Insert

/-!
# Extended page tables — insertion as a map update

The table of one guest, from a zeroed root, under `ept_page_insert` calls.  `EptReach C r s` says
that `s` is reached by calls whose addresses all meet the condition `C`.  The doubled indexes
stay in the tables of `gpa` when it is `InTables`, and the tables are then well formed
(`EptReach.wf`); they are the right indexes when it is `AtStart`, and insertion is then a
finite-map update (`eptPageInsert_updates`).  At `gpa = 0x1000` it maps the next page instead
(`eptPageInsert_wrong_page`).
-/

namespace JosVmm
open Support Support.Radix Support.Prog Pmap

variable {F : Layout 512} {s s' : Pmap} {L L' new : List Nat} {r t t₁ t₂ u : Nat} {v : Vpn}
  {gpa gpa' : Word} {pp : Nat} {perm : BitVec 32} {overwrite : Bool}

/-! ### What each change does to translations -/

/-- A growth translates nothing new. -/
theorem Grown.eptTranslate (h : Grown F s s' new L') (hs : Wf F s L)
    (hn : F.Node r (vpn gpa).path) : eptTranslate s' r gpa = eptTranslate s r gpa := by
  rw [eptTranslate_eq h.wf hn, eptTranslate_eq hs hn]
  cases ht : tab s r (vpn gpa).path with
  | some u =>
    rw [h.old r _ u hn ht, Option.bind_some, Option.bind_some, h.leaf_old r _ u _ hn rfl ht]
  | none =>
    cases ht' : tab s' r (vpn gpa).path with
    | none => rfl
    | some u => rw [Option.bind_some, h.leaf_new r _ u _ hn rfl ht ht', present_zero]; rfl

/-- A store to the last-level entry `j` is seen by its own page only. -/
theorem Wf.eptTranslate_setLeaf (h : Wf F s L) (hn : F.Node r v.path) (ht : tab s r v.path = some u)
    {w : Word} {r' : Nat} (hn' : F.Node r' (vpn gpa).path) (hne : ¬ (r' = r ∧ vpn gpa = v)) :
    JosVmm.eptTranslate (s.setWord (slot u v.last) w) r' gpa = JosVmm.eptTranslate s r' gpa := by
  rw [eptTranslate_eq (h.setLeaf hn rfl ht _ w) hn', eptTranslate_eq h hn',
    h.tab_setLeaf hn rfl ht _ w hn']
  cases ht' : tab s r' (vpn gpa).path with
  | none => rfl
  | some u' =>
    rw [Option.bind_some, Option.bind_some, setWord_of_ne]
    intro hs
    obtain ⟨rfl, hlast⟩ := slot_inj.mp hs
    obtain ⟨rfl, hpath⟩ := h.tree _ _ _ _ _ ⟨hn', ht'⟩ ⟨hn, ht⟩
    exact hne ⟨rfl, Vpn.ext_path hpath hlast⟩

/-! ### Runs of one guest's table -/

/-- States reached from a zeroed root `r` by `ept_page_insert` calls at addresses that meet
`C`. -/
inductive EptReach (C : Word → Prop) (r : Nat) : Pmap → Prop
  | zeroed {s : Pmap} {L : List Nat} : FreeList s L → r < s.npages → r ∉ L →
      (∀ i : Fin 512, s.mem (slot r i) = 0) → EptReach C r s
  | insert {s s' : Pmap} {pp : Nat} {gpa : Word} {perm : BitVec 32} {overwrite : Bool}
      {res : Except Err Unit} : EptReach C r s → pp < s.npages → C gpa →
      (eptPageInsert (some (r * 512)) pp gpa perm overwrite).run s = .ok (res, s') →
      EptReach C r s'

/-- `ept_page_insert` keeps the tables well formed. -/
theorem Wf.eptPageInsert {res : Except Err Unit} (h : Wf F s L) (hn : F.Node r (vpn gpa).path)
    (hx : InTables gpa)
    (hrun : (eptPageInsert (some (r * 512)) pp gpa perm overwrite).run s = .ok (res, s')) :
    ∃ L', Wf F s' L' := by
  obtain ⟨m, -, rfl, hag⟩ | ⟨s1, new, L', u, -, hg, hu, hs'⟩ := eptPageInsert_cases h hn hx hrun
  · refine ⟨L, h.setMem fun t ht i => hag _ ?_⟩
    rw [slot_div]
    exact h.table_not_free t ht
  · obtain ⟨-, rfl⟩ | ⟨-, rfl⟩ := hs'
    · exact ⟨L', hg.wf⟩
    · exact ⟨L', hg.wf.setLeaf hn rfl hu _ _⟩

/-- The addresses whose doubled indexes are their indexes. -/
def AtStart (gpa : Word) : Prop := pdpe gpa = 0 ∧ ptx gpa = 0

instance : DecidablePred AtStart := fun _ => inferInstanceAs (Decidable (_ ∧ _))

theorem EptReach.wf (h : EptReach InTables r s) : ∃ L, Wf (single (fun _ => True) r) s L := by
  induction h with
  | zeroed hL hr hnf hz => exact ⟨_, Wf.zeroed hL hr hnf hz⟩
  | insert _ _ hC hrun ih =>
    obtain ⟨L, hL⟩ := ih
    exact hL.eptPageInsert (single_node trivial) hC hrun

/-! ### Reading the entry back -/

theorem eptePresent_leaf (hp : pp < 2 ^ 52) (h0 : perm ≠ 0) (h : perm.toNat < 8) :
    eptePresent (eptLeaf pp perm) = true := by
  rw [eptePresent_iff]
  intro hz
  have hf : (eptLeaf pp perm).toNat % 8 = 0 := by
    have h1 := congrArg BitVec.toNat hz
    rw [BitVec.toNat_and, show epteFull.toNat = 2 ^ 3 - 1 from rfl,
      Nat.and_two_pow_sub_one_eq_mod] at h1
    exact h1
  rw [(eptLeaf_eq pp h).1, page2pa_or_toNat hp (eptLeaf_eq pp h).2, leafFlags] at hf
  have h2 : (perm.setWidth 64 ||| epteIpat ||| epteType epteTypeWb).toNat % 8 = perm.toNat := by
    rw [BitVec.toNat_or, BitVec.toNat_or, Nat.or_mod_two_pow (n := 3), Nat.or_mod_two_pow (n := 3),
      BitVec.toNat_setWidth]
    simp [epteIpat, epteType, epteTypeWb]
    omega
  exact h0 (BitVec.eq_of_toNat_eq (by simp; omega))

/-- The independent walk along a path of full entries. -/
theorem FullPath.eptWalk (hf : FullPath s r (vpn gpa) t₁ t₂ u) (h1 : t₁ < s.npages)
    (h2 : t₂ < s.npages) (h3 : u < s.npages) (hp : eptePresent (s.mem (slot u (ptx gpa))) = true) :
    ∃ up, JosVmm.eptWalk s.mem gpa (eptLevels - 1) r = some (up, s.mem (slot u (ptx gpa))) ∧
      ∀ e ∈ up, e &&& epteFull = epteFull := by
  have e1 : s.mem (slot r (addrToIdx gpa 3)) = page2pa t₁ ||| epteFull := hf.pml4e
  have e2 : s.mem (slot t₁ (addrToIdx gpa 2)) = page2pa t₂ ||| epteFull := hf.pdpe
  have e3 : s.mem (slot t₂ (addrToIdx gpa 1)) = page2pa u ||| epteFull := hf.pde
  have step : ∀ {t c : Nat} (level : Nat), c < s.npages →
      s.mem (slot t (addrToIdx gpa (level + 1))) = page2pa c ||| epteFull →
      JosVmm.eptWalk s.mem gpa (level + 1) t = (JosVmm.eptWalk s.mem gpa level c).map
        fun p => ((page2pa c ||| epteFull) :: p.1, p.2) := by
    intro t c level hc he
    have hd := dec_full (lt_two_pow_52 hc)
    simp only [JosVmm.eptWalk, he, eptePresent_of_dec hd, if_true, epteAddr_eq, ppn_pteAddr,
      (dec_eq_some.mp hd).2]
  refine ⟨[page2pa t₁ ||| epteFull, page2pa t₂ ||| epteFull, page2pa u ||| epteFull], ?_, ?_⟩
  · rw [show eptLevels - 1 = 2 + 1 from rfl, step 2 h1 e1, step 1 h2 e2, step 0 h3 e3,
      JosVmm.eptWalk, show addrToIdx gpa 0 = ptx gpa from rfl]
    simp only [hp, if_true]
    rfl
  · intro e he
    simp only [List.mem_cons, List.not_mem_nil, or_false] at he
    rcases he with rfl | rfl | rfl <;> exact or_and_self_right ..

/-! ### Insertion is an update -/

/-- **An insertion at an address whose doubled indexes are its indexes**, that has the pages it
needs and finds the entry free or may overwrite it. -/
theorem Wf.eptPageInsert_atStart (pp : Nat) (perm : BitVec 32) (overwrite : Bool) (h : Wf F s L)
    (hn : F.Node r (vpn gpa).path) (hpp : pp < s.npages) (hC : AtStart gpa) (hperm : perm ≠ 0)
    (hperm' : perm.toNat < 8) (hroom : missing dec s.mem r (vpn gpa).path ≤ L.length)
    (hslot : overwrite = true ∨ ∀ a, entryAt s r (vpn gpa) = some a → s.mem a = 0) :
    ∃ s1 new L' t₁ t₂ u s', L = new ++ L' ∧ Grown F s s1 new L' ∧ Path s1 r (vpn gpa) t₁ t₂ u ∧
      s' = s1.setWord (slot u (ptx gpa)) (eptLeaf pp perm) ∧
      (JosVmm.eptPageInsert (some (r * 512)) pp gpa perm overwrite).run s = .ok (.ok (), s') ∧
      Path s' r (vpn gpa) t₁ t₂ u ∧
      ∃ up, eptWalk s'.mem gpa (eptLevels - 1) r = some (up, eptLeaf pp perm) ∧
        ∀ x ∈ up, x &&& epteFull = epteFull := by
  obtain ⟨s1, new, L', t₁, t₂, u, hL, -, hg, hp, hf, hrun⟩ :=
    (eptPageInsert_spec pp perm overwrite h hn hC.1 (by rw [hC.2]; decide)).1 hroom
  -- the slot is free after the growth if it was before
  have hfree : ¬ (s1.mem (slot u (ptx gpa)) ≠ 0 ∧ overwrite = false) := by
    rintro ⟨hne, hov⟩
    rcases hslot with h | h
    · rw [hov] at h; cases h
    · cases ht : tab s r (vpn gpa).path with
      | none => exact hne (hg.leaf_new r _ u _ hn rfl ht hp.tab₃)
      | some t =>
        obtain rfl : u = t := Option.some.inj (hp.tab₃.symm.trans (hg.old r _ t hn ht))
        rw [hg.leaf_old r _ u _ hn rfl ht] at hne
        exact hne (h _ (by rw [entryAt, ht]; rfl))
  rw [if_neg hfree, show ptx gpa + ptx gpa = ptx gpa by rw [hC.2]; rfl] at hrun
  obtain ⟨-, lt1, lt2, lt3⟩ := hp.lt hg.wf hn
  have hf' := hf.setLeaf hp hg.wf hn (ptx gpa) (eptLeaf pp perm)
  have hp' : Path (s1.setWord (slot u (ptx gpa)) (eptLeaf pp perm)) r (vpn gpa) t₁ t₂ u :=
    ⟨by rw [hf'.pml4e]; exact dec_full (lt_two_pow_52 lt1),
      by rw [hf'.pdpe]; exact dec_full (lt_two_pow_52 lt2),
      by rw [hf'.pde]; exact dec_full (lt_two_pow_52 lt3)⟩
  have hleaf : (s1.setWord (slot u (ptx gpa)) (eptLeaf pp perm)).mem (slot u (ptx gpa)) =
      eptLeaf pp perm := setWord_self ..
  obtain ⟨up, hwalk, hup⟩ := hf'.eptWalk lt1 lt2 lt3 (by
    rw [hleaf]
    exact eptePresent_leaf (lt_two_pow_52 hpp) hperm hperm')
  rw [hleaf] at hwalk
  exact ⟨s1, new, L', t₁, t₂, u, _, hL, hg, hp, rfl, hrun, hp', up, hwalk, hup⟩

/-- **Insertion updates the map and nothing else.**  In a table built by insertions at addresses
with `PDPE(gpa) = 0` and `PTX(gpa) < 256`, an insertion at an address with `PDPE(gpa) = 0` and
`PTX(gpa) = 0` that has the pages it needs and finds the entry free, or may overwrite it, makes
the independent walk and `ept_lookup_gpa` find the new entry behind full permissions, and leaves
every other translation as it was. -/
theorem eptPageInsert_updates (pp : Nat) (gpa : Word) (perm : BitVec 32) (overwrite : Bool)
    (hs : EptReach InTables r s) (hL : FreeList s L) (hpp : pp < s.npages)
    (hoff : pgoff gpa = 0) (hgpa : gpa.toNat < 2 ^ 48) (hC : AtStart gpa)
    (hperm : perm ≠ 0) (hperm' : perm.toNat < 8)
    (hroom : missing dec s.mem r (vpn gpa).path ≤ L.length)
    (hslot : overwrite = true ∨ ∀ a, entryAt s r (vpn gpa) = some a → s.mem a = 0) :
    ∃ s' up e, (eptPageInsert (some (r * 512)) pp gpa perm overwrite).run s = .ok (.ok (), s') ∧
      eptWalk s'.mem gpa (eptLevels - 1) r = some (up, e) ∧
      epteAddr e = page2pa pp ∧
      epteFlags e = (perm.setWidth 64 ||| epteIpat ||| epteType epteTypeWb) ∧
      (∀ x ∈ up, x &&& epteFull = epteFull) ∧
      (∃ a s'', (eptLookupGpa (some (r * 512)) gpa false).run s' = .ok (.ok a, s'') ∧
        s''.mem a = e) ∧
      ∀ gpa', pgoff gpa' = 0 → gpa'.toNat < 2 ^ 48 → gpa' ≠ gpa →
        eptTranslate s' r gpa' = eptTranslate s r gpa' := by
  obtain ⟨L₀, hw⟩ := hs.wf
  obtain rfl : L₀ = L := hw.chain.functional hL.chain
  have hn : (single (fun _ => True) r).Node r (vpn gpa).path := single_node trivial
  have hp52 : pp < 2 ^ 52 := lt_two_pow_52 hpp
  obtain ⟨heq, hlt⟩ := eptLeaf_eq pp hperm'
  obtain ⟨s₁, new, L', t₁, t₂, u, s', -, hg, hp, rfl, hrun, hp', up, hwalk, hup⟩ :=
    hw.eptPageInsert_atStart pp perm overwrite hn hpp hC hperm hperm' hroom hslot
  have hw' := hg.wf.setLeaf hn rfl hp.tab₃ (ptx gpa) (eptLeaf pp perm)
  obtain ⟨s'', hlook, hg'⟩ := eptLookupGpa_find hw' hn hC.1 hp'
  refine ⟨_, up, eptLeaf pp perm, hrun, hwalk, ?_, ?_, hup, ⟨_, s'', hlook, ?_⟩, ?_⟩
  · rw [heq, epteAddr_eq, pteAddr_page2pa_or hp52 hlt]
  · rw [heq, epteFlags_page2pa_or hp52 hlt, leafFlags]
  · rw [hg'.leaf_old r _ u _ hn rfl hp'.tab₃]
    exact setWord_self ..
  · intro gpa' hoff' hgpa' hne
    have hn' : (single (fun _ => True) r).Node r (vpn gpa').path := single_node trivial
    have hne' : ¬ (r = r ∧ vpn gpa' = vpn gpa) := fun h =>
      hne (eq_of_vpn_eq hgpa' hgpa hoff' hoff h.2)
    exact (hg.wf.eptTranslate_setLeaf hn hp.tab₃ hn' hne').trans (hg.eptTranslate hw hn')

/-- A machine of eight pages: pages 1 to 5 are free, page 7 is a zeroed root. -/
def eightPages : Pmap where
  npages := 8
  npages_le := eight_le_maxNpages
  mem _ := 0
  ppRef p := if 1 ≤ p ∧ p ≤ 5 then 0#16 else 1#16
  ppLink p := if 1 ≤ p ∧ p ≤ 4 then some (p + 1) else none
  pageFreeList := some 1

theorem eightPages_freeList : FreeList eightPages [1, 2, 3, 4, 5] where
  chain := by simp [Chain, eightPages]
  unlinked p hp := by
    simp only [List.mem_cons, List.not_mem_nil, or_false, not_or] at hp
    refine if_neg ?_
    omega
  lt := by decide
  ref := by decide

theorem eightPages_reach (C : Word → Prop) : EptReach C 7 eightPages :=
  .zeroed eightPages_freeList (by decide) (by decide) fun _ => rfl

/-- The theorem at the first page of the guest. -/
theorem eptPageInsert_updates_first : ∃ s' up e,
    (eptPageInsert (some (7 * 512)) 6 0 7#32 false).run eightPages = .ok (.ok (), s') ∧
      eptWalk s'.mem 0 (eptLevels - 1) 7 = some (up, e) ∧ epteAddr e = page2pa 6 := by
  obtain ⟨s', up, e, h₁, h₂, h₃, -⟩ := eptPageInsert_updates 6 0 7#32 false
    (eightPages_reach _) eightPages_freeList (by decide) (by decide) (by decide) (by decide)
    (by decide) (by decide) (by decide) (.inr fun _ _ => rfl)
  exact ⟨s', up, e, h₁, h₂, h₃⟩

/-- **The second page of the guest is mapped at the third**: the entry of `0x1000` is entry 1 of
its table, and `ept_page_insert` writes entry 2. -/
theorem eptPageInsert_wrong_page : EptReach (fun _ => True) 7 eightPages ∧
    Returns ((eptPageInsert (some (7 * 512)) 6 0x1000#64 7#32 false).run eightPages) fun res s' =>
      res = .ok () ∧ eptTranslate s' 7 0x1000#64 = none ∧
      eptTranslate eightPages 7 0x2000#64 = none ∧
      eptTranslate s' 7 0x2000#64 = some (eptLeaf 6 7#32) :=
  ⟨eightPages_reach _, by decide +kernel⟩

end JosVmm
