import JosVmm.Pmap.HostMap

/-!
# Page maps — a page at its last count

A host page table that maps one page, page 150, at 65535 addresses: the tables 4 to 131 are full
of it, but for the last entry of table 131.  Its count is 65535, exactly (`crowded_acct`).  The
next mapping wraps it around, a removal then frees the page while it is mapped, and a mapping
made later is lost (`pageLookup_loses_mapping`).
-/

namespace JosVmm
open Support Support.Radix Support.Prog Support.Counting Finset

/-- Root 1, then tables 2 and 3, then 128 last-level tables from 4 on.  Pages 140 to 144 are
free. -/
def crowded : Pmap where
  npages := 160
  npages_le := by decide
  mem a :=
    if a / 512 = 1 ∧ a % 512 = 0 then page2pa 2 ||| epteFull
    else if a / 512 = 2 ∧ a % 512 = 0 then page2pa 3 ||| epteFull
    else if a / 512 = 3 ∧ a % 512 < 128 then page2pa (4 + a % 512) ||| epteFull
    else if 4 ≤ a / 512 ∧ a / 512 < 132 ∧ ¬ (a / 512 = 131 ∧ a % 512 = 511) then pteLeaf 150 6#32
    else 0
  ppRef p := if p = 150 then 65535#16 else if 140 ≤ p ∧ p < 145 then 0#16 else 1#16
  ppLink p := if 140 ≤ p ∧ p < 144 then some (p + 1) else none
  pageFreeList := some 140

variable {t : Nat} {i : Fin 512} {π : List (Fin 512)}

theorem slot_mod (t : Nat) (i : Fin 512) : slot t i % 512 = i := by
  rw [slot]
  omega

/-- What the entries point to. -/
theorem crowded_dec : dec (crowded.mem (slot t i)) =
    if t = 1 ∧ (i : Nat) = 0 then some 2
    else if t = 2 ∧ (i : Nat) = 0 then some 3
    else if t = 3 ∧ (i : Nat) < 128 then some (4 + (i : Nat))
    else if 4 ≤ t ∧ t < 132 ∧ ¬ (t = 131 ∧ (i : Nat) = 511) then some 150
    else none := by
  simp only [crowded, slot_div, slot_mod]
  split_ifs
  · exact dec_full (by decide)
  · exact dec_full (by decide)
  · exact dec_full (by omega)
  · exact dec_pteLeaf (by decide) (by decide)
  · exact dec_zero

/-- The last-level table of a path. -/
theorem crowded_tab (a b c : Fin 512) : tab crowded 1 [a, b, c] =
    if (a : Nat) = 0 ∧ (b : Nat) = 0 ∧ (c : Nat) < 128 then some (4 + (c : Nat)) else none := by
  by_cases ha : (a : Nat) = 0
  · by_cases hb : (b : Nat) = 0
    · by_cases hc : (c : Nat) < 128
      · simp [tab, tableAt, crowded_dec, ha, hb, hc]
      · simp [tab, tableAt, crowded_dec, ha, hb, hc]
    · simp [tab, tableAt, crowded_dec, ha, hb]
  · simp [tab, tableAt, crowded_dec, ha]

/-- Every table of the tree, with its path. -/
theorem crowded_table (hl : π.length ≤ 3) (h : tab crowded 1 π = some t) :
    (π = [] ∧ t = 1) ∨ (π = [0] ∧ t = 2) ∨ (π = [0, 0] ∧ t = 3) ∨
      ∃ c : Fin 512, π = [0, 0, c] ∧ (c : Nat) < 128 ∧ t = 4 + (c : Nat) := by
  rcases π with _ | ⟨a, _ | ⟨b, _ | ⟨c, σ⟩⟩⟩
  · exact .inl ⟨rfl, (Option.some.inj h).symm⟩
  · obtain ⟨rfl, rfl⟩ : a = 0 ∧ 2 = t := by
      simpa [tab, tableAt, crowded_dec] using h
    exact .inr (.inl ⟨rfl, rfl⟩)
  · obtain ⟨rfl, rfl, rfl⟩ : a = 0 ∧ b = 0 ∧ 3 = t := by
      by_cases ha : a = 0
      · simpa [tab, tableAt, crowded_dec, ha] using h
      · simp [tab, tableAt, crowded_dec, ha] at h
    exact .inr (.inr (.inl ⟨rfl, rfl⟩))
  · obtain rfl : σ = [] := List.length_eq_zero_iff.mp (by
      simp only [List.length_cons] at hl
      omega)
    rw [crowded_tab] at h
    obtain ⟨⟨ha, hb, hc⟩, ht⟩ := Option.ite_none_right_eq_some.mp h
    obtain rfl : a = 0 := Fin.ext ha
    obtain rfl : b = 0 := Fin.ext hb
    exact .inr (.inr (.inr ⟨c, rfl, hc, (Option.some.inj ht).symm⟩))

/-- All entries of the root belong to the tree. -/
abbrev crowdedLayout : Layout 512 := single (fun _ => True) 1

theorem crowded_freeList : FreeList crowded [140, 141, 142, 143, 144] where
  chain := by simp [Chain, crowded]
  unlinked p hp := by
    simp only [List.mem_cons, List.not_mem_nil, or_false, not_or] at hp
    refine if_neg ?_
    omega
  lt := by decide
  ref := by decide

theorem crowded_isTable : crowdedLayout.IsTable dec crowded.mem t ↔ 1 ≤ t ∧ t < 132 := by
  constructor
  · rintro ⟨r, π, hn, ht⟩
    obtain rfl := Finset.mem_singleton.mp hn.1
    rcases crowded_table hn.2.1 ht with ⟨-, rfl⟩ | ⟨-, rfl⟩ | ⟨-, rfl⟩ | ⟨c, -, hc, rfl⟩ <;> omega
  · rintro ⟨h1, h132⟩
    have node : ∀ π : List (Fin 512), π.length ≤ 3 → crowdedLayout.Node 1 π := fun π hl =>
      ⟨mem_singleton_self 1, hl, fun _ _ => trivial⟩
    rcases (by omega : t = 1 ∨ t = 2 ∨ t = 3 ∨ 4 ≤ t) with rfl | rfl | rfl | h4
    · exact ⟨1, [], node [] (by simp), rfl⟩
    · exact ⟨1, [0], node [0] (by simp), by simp [tableAt, crowded_dec]⟩
    · exact ⟨1, [0, 0], node [0, 0] (by simp), by simp [tableAt, crowded_dec]⟩
    · have hc : t - 4 < 512 := by omega
      refine ⟨1, [0, 0, ⟨t - 4, hc⟩], node _ (by simp), (crowded_tab _ _ _).trans ?_⟩
      rw [if_pos ⟨rfl, rfl, by show t - 4 < 128; omega⟩]
      rw [Nat.add_sub_cancel' h4]

/-- An absent entry is zero. -/
theorem crowded_absent {a : Nat} (h : dec (crowded.mem a) = none) : crowded.mem a = 0 := by
  simp only [crowded] at h ⊢
  split_ifs at h ⊢
  · rw [dec_full (by decide)] at h; cases h
  · rw [dec_full (by decide)] at h; cases h
  · rw [dec_full (by omega)] at h; cases h
  · rw [dec_pteLeaf (by decide) (by decide)] at h; cases h
  · rfl

theorem crowded_wf : Wf crowdedLayout crowded [140, 141, 142, 143, 144] where
  toFreeList := crowded_freeList
  depth := rfl
  tree r π r' π' t h h' := by
    obtain rfl := Finset.mem_singleton.mp h.1.1
    obtain rfl := Finset.mem_singleton.mp h'.1.1
    refine ⟨rfl, ?_⟩
    rcases crowded_table h.1.2.1 h.2 with ⟨rfl, e⟩ | ⟨rfl, e⟩ | ⟨rfl, e⟩ | ⟨c, rfl, hc, e⟩ <;>
    rcases crowded_table h'.1.2.1 h'.2 with ⟨rfl, e'⟩ | ⟨rfl, e'⟩ | ⟨rfl, e'⟩ | ⟨c', rfl, hc', e'⟩
    all_goals first | rfl | omega | skip
    obtain rfl : c = c' := Fin.ext (by omega)
    rfl
  table_lt t ht := Nat.lt_of_lt_of_le (crowded_isTable.mp ht).2 (by decide)
  table_not_free t ht := by
    have := (crowded_isTable.mp ht).2
    simp only [List.mem_cons, List.not_mem_nil, or_false]
    omega
  absent _ _ _ _ _ _ := crowded_absent

noncomputable section

theorem crowded_view (a b c d : Fin 512) : view hostReading crowdedLayout crowded 1 (a, b, c, d) =
    if (a = 0 ∧ b = 0) ∧ (c : Nat) < 128 ∧ ¬ ((c : Nat) = 127 ∧ (d : Nat) = 511) then some 150
    else none := by
  rw [view, if_pos (show crowdedLayout.dom 1 a from trivial), Vpn.path, Vpn.last, crowded_tab]
  simp only [Fin.val_eq_zero_iff]
  by_cases hc : a = 0 ∧ b = 0 ∧ (c : Nat) < 128
  · obtain ⟨rfl, rfl, hc⟩ := hc
    rw [if_pos ⟨rfl, rfl, hc⟩, Option.bind_some]
    show dec _ = _
    rw [crowded_dec, if_neg (by omega), if_neg (by omega), if_neg (by omega)]
    exact if_congr (by omega) rfl rfl
  · rw [if_neg hc, if_neg (by tauto)]
    rfl

theorem crowded_leaves_of_ne {p : Nat} (hp : p ≠ 150) :
    leaves hostReading crowdedLayout crowded p = 0 := by
  refine Nat.eq_zero_of_not_pos fun hpos => ?_
  rw [leaves_single] at hpos
  obtain ⟨⟨a, b, c, d⟩, hv⟩ := fibre_pos_iff.mp hpos
  rw [crowded_view] at hv
  split at hv
  · exact hp (Option.some.inj hv).symm
  · cases hv

/-- The entries of table `4 + c` that map page 150. -/
theorem crowded_row (c : Fin 512) :
    ∑ d : Fin 512, one ((c : Nat) < 128 ∧ ¬ ((c : Nat) = 127 ∧ (d : Nat) = 511)) =
      if (c : Nat) < 127 then 512 else if (c : Nat) = 127 then 511 else 0 := by
  by_cases h1 : (c : Nat) < 127
  · have hd : ∀ d : Fin 512, one ((c : Nat) < 128 ∧ ¬ ((c : Nat) = 127 ∧ (d : Nat) = 511)) = 1 :=
      fun d => one_of (by omega)
    rw [if_pos h1, sum_congr rfl fun d _ => hd d]
    simp
  · by_cases h2 : (c : Nat) = 127
    · rw [if_neg h1, if_pos h2, h2]
      decide +kernel
    · have hd : ∀ d : Fin 512, one ((c : Nat) < 128 ∧ ¬ ((c : Nat) = 127 ∧ (d : Nat) = 511)) = 0 :=
        fun d => one_not (by omega)
      rw [if_neg h1, if_neg h2, sum_congr rfl fun d _ => hd d]
      simp

/-- Page 150 is mapped 65535 times. -/
theorem crowded_leaves : leaves hostReading crowdedLayout crowded 150 = 65535 := by
  have hoff : ∀ a b c d : Fin 512, ¬ (a = 0 ∧ b = 0) →
      one (view hostReading crowdedLayout crowded 1 (a, b, c, d) = some 150) = 0 := by
    intro a b c d h
    rw [crowded_view, if_neg fun hc => h hc.1]
    rfl
  have hon : ∀ c d : Fin 512, one (view hostReading crowdedLayout crowded 1 (0, 0, c, d) = some 150) =
      one ((c : Nat) < 128 ∧ ¬ ((c : Nat) = 127 ∧ (d : Nat) = 511)) := by
    intro c d
    rw [crowded_view]
    by_cases hc : (c : Nat) < 128 ∧ ¬ ((c : Nat) = 127 ∧ (d : Nat) = 511)
    · rw [if_pos ⟨⟨rfl, rfl⟩, hc⟩, one_of rfl, one_of hc]
    · rw [if_neg fun h => hc h.2, one_not hc]
      rfl
  rw [leaves_single, fibre_eq_sum]
  simp only [Fintype.sum_prod_type]
  -- only the tables below entry 0 of the root and of table 2 count
  rw [sum_eq_single 0
      (fun a _ ha => sum_eq_zero fun b _ => sum_eq_zero fun c _ =>
        sum_eq_zero fun d _ => hoff a b c d fun h => ha h.1) (by simp),
    sum_eq_single 0
      (fun b _ hb => sum_eq_zero fun c _ => sum_eq_zero fun d _ =>
        hoff 0 b c d fun h => hb h.2) (by simp)]
  simp only [hon, crowded_row]
  decide +kernel

/-- References from outside the tables and their entries. -/
def crowdedExtra (p : Nat) : Nat :=
  if p = 150 ∨ 140 ≤ p ∧ p < 145 ∨ 1 ≤ p ∧ p < 132 then 0 else 1

/-- **Every count of the tree is exact**, and that of page 150 is at its largest. -/
theorem crowded_acct :
    Acct hostReading crowdedLayout ∅ crowdedExtra crowded [140, 141, 142, 143, 144] where
  toWf := crowded_wf
  exact p _ := by
    have htab : tables crowdedLayout crowded p = if 1 ≤ p ∧ p < 132 then 1 else 0 := by
      split
      · exact tables_eq_one (crowded_isTable.mpr ‹_›)
      · exact tables_eq_zero.mpr fun h => absurd (crowded_isTable.mp h) ‹_›
    rw [htab]
    by_cases hp : p = 150
    · subst hp
      rw [crowded_leaves]
      rfl
    · rw [crowded_leaves_of_ne hp]
      simp only [crowded, crowdedExtra, hp, if_false, false_or]
      split_ifs <;> first | rfl | omega
  anon _ hp := by cases hp
  anon_lt _ hp := by cases hp
  zero := by decide +kernel
  mapped_lt p hp := by
    by_cases h : p = 150
    · subst h; decide
    · rw [crowded_leaves_of_ne h] at hp
      omega

end

/-- The map theorem at the crowded tree: address 0 reads as its contents say. -/
theorem pageTable_is_map_crowded : ∃ M, HostReach (fun _ => True) 1 crowded M ∧
    lookupOf crowded 1 0 = .ok (M (vpn 0)) :=
  ⟨_, .start crowded_acct nofun, (pageTable_is_map (.start crowded_acct nofun)).1 0 trivial⟩

/-- Six calls on the crowded tree, and a lookup.  Two more mappings of page 150 take its count
through 0 to 1, so the removal at 0 frees it; it becomes the table of `0x10200000`, is freed
again by the removal at `0x1000`, and is cleared to become the table of `0x10401000`. -/
def wrapAround : Pm (List (Except Err Unit) × Option (Nat × Ptr)) := do
  let r₁ ← pageInsert (some 512) (some 150) 0xFFFF000#64 6#32
  let r₂ ← pageInsert (some 512) (some 150) 0x10000000#64 6#32
  pageRemove (some 512) 0x0#64
  let r₃ ← pageInsert (some 512) (some 151) 0x10200000#64 6#32
  pageRemove (some 512) 0x1000#64
  let r₄ ← pageInsert (some 512) (some 152) 0x10401000#64 6#32
  return ([r₁, r₂, r₃, r₄], ← pageLookup (some 512) 0x10200000#64)

/-- **A mapping is lost**: the insertion at `0x10200000` succeeds, nothing is removed there, and
the lookup finds nothing. -/
theorem pageLookup_loses_mapping :
    (∃ M, HostReach (fun _ => True) 1 crowded M) ∧
    Returns (wrapAround.run crowded) fun out _ =>
      out = ([.ok (), .ok (), .ok (), .ok ()], none) :=
  ⟨⟨_, .start crowded_acct nofun⟩, by decide +kernel⟩

end JosVmm
