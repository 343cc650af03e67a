import JosVmm.Ept.Update

/-!
# Extended page tables — lookups that do not create

`ept_lookup_gpa` rewrites three entries after the walk: it gives them full permissions and keeps
their addresses.  Two of them are on the way to `gpa`; the third is entry `2 * PDPE(gpa)` counted
from the start of the directory-pointer table, which for `PDPE(gpa) ≠ 0` is another entry, or lies
in the next page of memory (`eptUpper_fill`, `doubledEntry`).  A lookup without `create` therefore
leaves the presence and the address of every entry alone exactly when that word is not an absent
entry of the tree (`eptLookupGpa_readOnly_iff`); at one gigabyte it makes an entry present
(`eptLookupGpa_makes_present`).
-/

namespace JosVmm
open Support Support.Radix Support.Prog Pmap

variable {F : Layout 512} {s s' : Pmap} {L : List Nat} {r t₁ t₂ u : Nat} {gpa : Word}

/-! ### What the lookup writes -/

/-- The entry at `a` given full permissions. -/
def Pmap.fill (s : Pmap) (a : Nat) : Pmap := s.setWord a (pteAddr (s.mem a) ||| epteFull)

theorem epteAddr_full (e : Word) : epteAddr (pteAddr e ||| epteFull) = epteAddr e := by
  rw [← page2pa_ppn, epteAddr_eq, pteAddr_page2pa_or (ppn_lt e) (by decide), page2pa_ppn]
  rfl

theorem eptePresent_full (e : Word) : eptePresent (pteAddr e ||| epteFull) = true := by
  rw [eptePresent_iff, or_and_self_right]
  decide

@[simp] theorem Pmap.fill_npages (a : Nat) : (s.fill a).npages = s.npages := rfl

theorem Pmap.epteAddr_fill (a b : Nat) : epteAddr ((s.fill a).mem b) = epteAddr (s.mem b) := by
  by_cases e : b = a
  · subst e
    rw [fill, setWord_self, epteAddr_full]
  · rw [fill, setWord_of_ne e]

theorem Pmap.eptePresent_fill (a b : Nat) :
    eptePresent ((s.fill a).mem b) = (decide (b = a) || eptePresent (s.mem b)) := by
  by_cases e : b = a
  · subst e
    rw [fill, setWord_self, eptePresent_full, decide_eq_true rfl, Bool.true_or]
  · rw [fill, setWord_of_ne e, decide_eq_false e, Bool.false_or]

/-- The word that the second use of `PDPE(gpa)` as an index lands on. -/
def doubledEntry (t₁ : Nat) (gpa : Word) : Ptr := t₁ * 512 + pdpe gpa + pdpe gpa

/-- **The upper entries as `ept_lookup_gpa` rewrites them**, at any address. -/
theorem eptUpper_fill (hp : Path s r (vpn gpa) t₁ t₂ u) (hr : r < s.npages) (h1 : t₁ < s.npages)
    (h2 : t₂ < s.npages) : (eptUpper (r * 512) gpa).run s =
      if doubledEntry t₁ gpa < s.npages * 512 then
        .ok ((), ((s.fill (slot r (pml4 gpa))).fill (doubledEntry t₁ gpa)).fill (slot t₂ (pdx gpa)))
      else .error .pageFault := by
  obtain ⟨d1, d2, -⟩ := hp
  simp only [vpn] at d1 d2
  simp only [eptUpper]
  rw [bind_ok (load_entry hr _), bind_ok (kaddr_dec d1 h1), bind_ok (load_entry h1 _),
    bind_ok (kaddr_dec d2 h2), bind_ok (load_entry hr _), bind_ok (store_entry hr _ _)]
  show StateT.run _ (s.fill (slot r (pml4 gpa))) = _
  generalize hs1 : s.fill (slot r (pml4 gpa)) = s1
  have np1 : s1.npages = s.npages := by rw [← hs1, fill_npages]
  by_cases hin : doubledEntry t₁ gpa < s.npages * 512
  · have hload : (load (t₁ * 512 + pdpe gpa + pdpe gpa)).run s1 =
        .ok (s1.mem (doubledEntry t₁ gpa), s1) := load_run (np1 ▸ hin)
    have hstore : ∀ w, (store (t₁ * 512 + pdpe gpa + pdpe gpa) w).run s1 =
        .ok ((), s1.setWord (doubledEntry t₁ gpa) w) := store_run (np1 ▸ hin)
    rw [if_pos hin, bind_ok hload, bind_ok (hstore _),
      bind_ok (load_entry (np1.symm ▸ h2) _), store_entry (np1.symm ▸ h2) _ _]
    rfl
  · have hload : (load (t₁ * 512 + pdpe gpa + pdpe gpa)).run s1 = .error .pageFault :=
      if_neg (np1 ▸ hin)
    rw [if_neg hin, bind_error hload]

/-! ### Read-only lookups -/

/-- Every entry of every table is present as before and has the address it had. -/
def SameEntries (F : Layout 512) (s s' : Pmap) : Prop :=
  ∀ t, F.IsTable dec s.mem t → ∀ i : Fin 512,
    eptePresent (s'.mem (slot t i)) = eptePresent (s.mem (slot t i)) ∧
      epteAddr (s'.mem (slot t i)) = epteAddr (s.mem (slot t i))

/-- `ept_lookup_gpa` without `create` returns 0 and the last-level entry of `gpa` if its three
upper entries are present, `-E_NO_ENT` otherwise, and leaves all entries as they are. -/
def LookupReadOnly (F : Layout 512) (s : Pmap) (r : Nat) (gpa : Word) : Prop :=
  ∃ s', (eptLookupGpa (some (r * 512)) gpa false).run s =
      .ok ((match entryAt s r (vpn gpa) with
        | some pte => .ok pte
        | none => .error .noEnt), s') ∧
    SameEntries F s s'

/-- The word that the doubled index lands on is in memory and, if it is an entry of the tree, is
present. -/
def DoubledHarmless (F : Layout 512) (s : Pmap) (r : Nat) (gpa : Word) : Prop :=
  ∀ t₁, tab s r [pml4 gpa] = some t₁ → doubledEntry t₁ gpa < s.npages * 512 ∧
    (F.IsTable dec s.mem (doubledEntry t₁ gpa / 512) →
      eptePresent (s.mem (doubledEntry t₁ gpa)) = true)

theorem slot_div_mod (a : Nat) : ∃ i : Fin 512, slot (a / 512) i = a :=
  ⟨⟨a % 512, Nat.mod_lt _ (by decide)⟩, Nat.div_add_mod' a 512⟩

/-- The fills change the presence of no other entry than the doubled one. -/
theorem sameEntries_fill (hp : Path s r (vpn gpa) t₁ t₂ u) : SameEntries F s
    (((s.fill (slot r (pml4 gpa))).fill (doubledEntry t₁ gpa)).fill (slot t₂ (pdx gpa))) ↔
      (F.IsTable dec s.mem (doubledEntry t₁ gpa / 512) →
        eptePresent (s.mem (doubledEntry t₁ gpa)) = true) := by
  obtain ⟨d1, -, d3⟩ := hp
  simp only [vpn] at d1 d3
  constructor
  · intro h hT
    obtain ⟨i, hi⟩ := slot_div_mod (doubledEntry t₁ gpa)
    have := (h _ hT i).1
    rw [hi, eptePresent_fill, eptePresent_fill, decide_eq_true rfl, Bool.true_or,
      Bool.or_true] at this
    exact this.symm
  · intro h t ht i
    refine ⟨?_, by rw [epteAddr_fill, epteAddr_fill, epteAddr_fill]⟩
    rw [eptePresent_fill, eptePresent_fill, eptePresent_fill]
    -- a filled entry was present before
    by_cases e1 : slot t i = slot r (pml4 gpa)
    · rw [e1, eptePresent_of_dec d1, Bool.or_true, Bool.or_true, Bool.or_true]
    by_cases e2 : slot t i = doubledEntry t₁ gpa
    · have hpres := h (by rwa [← e2, slot_div])
      rw [e2, hpres, Bool.or_true, Bool.or_true, Bool.or_true]
    by_cases e3 : slot t i = slot t₂ (pdx gpa)
    · rw [e3, eptePresent_of_dec d3, Bool.or_true, Bool.or_true, Bool.or_true]
    rw [decide_eq_false e1, decide_eq_false e2, decide_eq_false e3, Bool.false_or, Bool.false_or,
      Bool.false_or]

theorem sameEntries_refl (F : Layout 512) (s : Pmap) : SameEntries F s s :=
  fun _ _ _ => ⟨rfl, rfl⟩

/-- What the lookup does, in the two cases of the walk. -/
theorem eptLookupGpa_walked (h : Wf F s L) (hn : F.Node r (vpn gpa).path) :
    (entryAt s r (vpn gpa) = none ∧
      (eptLookupGpa (some (r * 512)) gpa false).run s = .ok (.error .noEnt, s)) ∨
    ∃ t₁ t₂ u, Path s r (vpn gpa) t₁ t₂ u ∧ entryAt s r (vpn gpa) = some (slot u (ptx gpa)) ∧
      (eptLookupGpa (some (r * 512)) gpa false).run s =
        if doubledEntry t₁ gpa < s.npages * 512 then
          .ok (.ok (slot u (ptx gpa)),
            ((s.fill (slot r (pml4 gpa))).fill (doubledEntry t₁ gpa)).fill (slot t₂ (pdx gpa)))
        else .error .pageFault := by
  have hwalk := pml4eWalk_find (s := s) gpa (h.tab_lt hn.root rfl)
    fun ρ c ⟨σ, e⟩ hc => h.tab_lt (Layout.Node.of_append (e ▸ hn)) hc
  cases ht : tab s r (vpn gpa).path with
  | none =>
    have hnone : entryAt s r (vpn gpa) = none := by rw [entryAt, ht]; rfl
    refine .inl ⟨hnone, ?_⟩
    simp only [eptLookupGpa]
    rw [bind_ok hwalk, hnone]
    rfl
  | some u =>
    obtain ⟨t₁, t₂, hp⟩ := tab_path_iff.mp ht
    obtain ⟨hr, lt1, lt2, -⟩ := hp.lt h hn
    have hsome : entryAt s r (vpn gpa) = some (slot u (ptx gpa)) := by rw [entryAt, ht]; rfl
    refine .inr ⟨t₁, t₂, u, hp, hsome, ?_⟩
    have hup := eptUpper_fill hp hr lt1 lt2
    simp only [eptLookupGpa]
    rw [bind_ok hwalk, hsome]
    simp only []
    split at hup
    · rw [bind_ok hup, if_pos ‹_›]
      rfl
    · rw [bind_error hup, if_neg ‹_›]

/-- **When a lookup is read-only.**  In a well-formed tree the lookup without `create` finds the
entry of `gpa` and leaves every entry alone exactly when no entry is found, or the word that the
doubled index lands on is not an absent entry of the tree; `ept_gpa2hva` is then read-only too. -/
theorem eptLookupGpa_readOnly_iff (h : Wf F s L) (hn : F.Node r (vpn gpa).path) :
    (LookupReadOnly F s r gpa ↔ entryAt s r (vpn gpa) = none ∨ DoubledHarmless F s r gpa) ∧
      ((entryAt s r (vpn gpa) = none ∨ DoubledHarmless F s r gpa) → ∀ hva s',
        (eptGpa2hva (some (r * 512)) gpa).run s = .ok (hva, s') → SameEntries F s s') := by
  have key : LookupReadOnly F s r gpa ↔
      entryAt s r (vpn gpa) = none ∨ DoubledHarmless F s r gpa := by
    unfold LookupReadOnly
    obtain ⟨hnone, hrun⟩ | ⟨t₁, t₂, u, hp, hsome, hrun⟩ := eptLookupGpa_walked h hn
    · rw [hrun, hnone]
      exact iff_of_true ⟨s, rfl, sameEntries_refl F s⟩ (.inl rfl)
    · have hharm : DoubledHarmless F s r gpa ↔ doubledEntry t₁ gpa < s.npages * 512 ∧
          (F.IsTable dec s.mem (doubledEntry t₁ gpa / 512) →
            eptePresent (s.mem (doubledEntry t₁ gpa)) = true) := by
        constructor
        · exact fun hd => hd t₁ hp.tab₁
        · intro hd t ht
          obtain rfl := Option.some.inj (hp.tab₁.symm.trans ht)
          exact hd
      rw [hrun, hsome, hharm]
      by_cases hin : doubledEntry t₁ gpa < s.npages * 512
      · rw [if_pos hin]
        constructor
        · rintro ⟨s', e, hsame⟩
          cases e
          exact .inr ⟨hin, (sameEntries_fill hp).mp hsame⟩
        · rintro (hno | ⟨-, hpres⟩)
          · cases hno
          · exact ⟨_, rfl, (sameEntries_fill hp).mpr hpres⟩
      · rw [if_neg hin]
        constructor
        · rintro ⟨s', e, -⟩
          cases e
        · rintro (hno | ⟨hin', -⟩)
          · cases hno
          · exact absurd hin' hin
  refine ⟨key, fun hc hva s' hrun => ?_⟩
  obtain ⟨s₁, hlook, hsame⟩ := key.mpr hc
  rw [eptGpa2hva, bind_ok hlook] at hrun
  cases he : entryAt s r (vpn gpa) with
  | none =>
    rw [he] at hrun
    cases hrun
    exact hsame
  | some pte =>
    rw [he] at hrun
    obtain ⟨e, s₂, hload, hrun⟩ := bind_inv hrun
    rw [(load_eq_ok hload).1] at hrun
    split at hrun
    · cases hrun
      exact hsame
    · obtain ⟨a, s₃, hk, hrun⟩ := bind_inv hrun
      cases hrun
      rw [readOnly_kaddr _ _ _ _ hk]
      exact hsame

/-- Below one gigabyte of each directory-pointer table the doubled index is the index. -/
theorem doubledHarmless_of_zero (h : Wf F s L) (hn : F.Node r (vpn gpa).path) (h0 : pdpe gpa = 0)
    (hp : Path s r (vpn gpa) t₁ t₂ u) : DoubledHarmless F s r gpa := by
  intro t ht
  obtain rfl := Option.some.inj (hp.tab₁.symm.trans ht)
  have hd : doubledEntry t₁ gpa = slot t₁ (pdpe gpa) := by
    have h0' : (pdpe gpa : Nat) = 0 := by rw [h0]; rfl
    show t₁ * 512 + (pdpe gpa : Nat) + (pdpe gpa : Nat) = t₁ * 512 + (pdpe gpa : Nat)
    omega
  rw [hd]
  exact ⟨slot_lt (hp.lt h hn).2.1 _, fun _ => eptePresent_of_dec hp.pdpe⟩

/-- The state with the tables on the way to `gpa`. -/
def Pmap.created (s : Pmap) (r : Nat) (gpa : Word) : Pmap :=
  match (pml4eWalk (some (r * 512)) gpa true).run s with
  | .ok (_, s') => s'
  | .error _ => s

theorem Pmap.created_eq {o : Option Ptr}
    (h : (pml4eWalk (some (r * 512)) gpa true).run s = .ok (o, s')) : s.created r gpa = s' := by
  rw [created, h]

/-- The tables on the way to `gpa`, from a zeroed root. -/
def walked (gpa : Word) : Pmap := eightPages.created 7 gpa

theorem walked_wf (gpa : Word) : ∃ L u, Wf (single (fun _ => True) 7) (walked gpa) L ∧
    tab (walked gpa) 7 (vpn gpa).path = some u := by
  have h : Wf (single (fun _ => True) 7) eightPages [1, 2, 3, 4, 5] :=
    Wf.zeroed eightPages_freeList (by decide) (by decide) fun _ => rfl
  have hmiss : missing dec eightPages.mem 7 (vpn gpa).path = 3 := missing_clear (fun _ => dec_zero) _
  have hn : (single (fun _ => True) 7).Node 7 (vpn gpa).path := single_node trivial
  obtain ⟨s', new, L', u, -, -, hrun, hg, hu⟩ := (pml4eWalk_create h hn).1 (by rw [hmiss]; decide)
  have e : walked gpa = s' := created_eq hrun
  exact ⟨L', u, e ▸ hg.wf, e ▸ hu⟩

/-- The theorem at the second page of the guest. -/
theorem eptLookupGpa_readOnly_iff_low :
    LookupReadOnly (single (fun _ => True) 7) (walked 0x1000#64) 7 0x1000#64 := by
  obtain ⟨L, u, h, hu⟩ := walked_wf 0x1000#64
  obtain ⟨t₁, t₂, hp⟩ := tab_path_iff.mp hu
  have hn : (single (fun _ => True) 7).Node 7 (vpn 0x1000#64).path := single_node trivial
  exact (eptLookupGpa_readOnly_iff h hn).1.mpr
    (.inr (doubledHarmless_of_zero h hn (by decide) hp))

/-- **A lookup at one gigabyte makes an absent entry present**: `PDPE(gpa)` is 1, and entry 2 of
the directory-pointer table, page 1, is given full permissions with address zero. -/
theorem eptLookupGpa_makes_present :
    (∃ L, Wf (single (fun _ => True) 7) (walked 0x40000000#64) L) ∧
    tab (walked 0x40000000#64) 7 [0] = some 1 ∧
    eptePresent ((walked 0x40000000#64).mem (slot 1 (2 : Fin 512))) = false ∧
    Returns ((eptLookupGpa (some (7 * 512)) 0x40000000#64 false).run (walked 0x40000000#64))
      fun res s' => res = .ok (slot 3 (0 : Fin 512)) ∧
        eptePresent (s'.mem (slot 1 (2 : Fin 512))) = true :=
  ⟨(walked_wf _).imp fun _ ⟨_, h, _⟩ => h, by decide +kernel, by decide +kernel, by decide +kernel⟩

end JosVmm
