import JosVmm.Ept.Teardown

/-!
# Extended page tables — what teardown gives up

A table tree as `free_guest_mem` reads it: an entry of any level is present when one of its three
permission bits is set.  In a tree whose tables are reached from one entry each and are not mapped
themselves (`EptTree`), `free_guest_mem` gives up one reference to a page for each present leaf
that names it and one for each table below the root, and reads no page that is not a table
(`freeGuestMem_exact`).
-/

namespace JosVmm
open Support Support.Radix Support.Prog Support.Counting

variable {s : Pmap} {r : Nat}

/-- The table at the end of a path of present entries. -/
def eptTab (s : Pmap) (r : Nat) (π : List (Fin 512)) : Option Nat := tableAt eptDec s.mem r π

/-- The page that the leaf of `v` names, if it is there and present. -/
def eptPage (s : Pmap) (r : Nat) (v : Vpn) : Option Nat :=
  (eptTab s r v.path).bind fun u => eptDec (s.mem (slot u v.last))

/-- The page is a table of level 2, 1 or 0 of the tree of `r`. -/
def LowerTable (s : Pmap) (r p : Nat) : Prop :=
  ∃ π : List (Fin 512), π ≠ [] ∧ π.length ≤ 3 ∧ eptTab s r π = some p

/-- A tree of four levels of tables: each is reached from one entry, and none is mapped. -/
structure EptTree (s : Pmap) (r : Nat) : Prop where
  unique : ∀ (π π' : List (Fin 512)) (t : Nat), π.length ≤ 3 → π'.length ≤ 3 →
    eptTab s r π = some t → eptTab s r π' = some t → π = π'
  table_lt : ∀ (π : List (Fin 512)) (t : Nat), π.length ≤ 3 → eptTab s r π = some t → t < s.npages
  mapped_lt : ∀ v p, eptPage s r v = some p → p < s.npages
  apart : ∀ v p, eptPage s r v = some p → p ≠ r ∧ ¬ LowerTable s r p

namespace EptTree

theorem inMemory (h : EptTree s r) : InMemory s.mem s.npages 3 r where
  table_lt := h.table_lt
  leaf_lt π c i p hl hc hp := by
    match π, hl with
    | [x, y, z], hl =>
      refine h.mapped_lt (x, y, z, i) p ?_
      rw [eptPage, show eptTab s r (Vpn.path (x, y, z, i)) = some c from hc]
      exact hp

theorem not_lowerTable_root (h : EptTree s r) : ¬ LowerTable s r r := by
  rintro ⟨π, hne, hl, hπ⟩
  exact hne (h.unique π [] r hl (Nat.zero_le _) hπ rfl)

/-- A traversal meets each table below the root once. -/
theorem occ_eq (h : EptTree s r) (p : Nat) [Decidable (LowerTable s r p)] :
    occ 512 eptDec s.mem p 3 r = one (LowerTable s r p) := by
  by_cases hp : LowerTable s r p
  · have hle : occ 512 eptDec s.mem p 3 r ≤ 1 :=
      occ_le_one fun π π' _ _ hl hl' hπ hπ' => h.unique π π' p hl hl' hπ hπ'
    obtain ⟨π, hne, hl, hπ⟩ := hp
    have hpos := occ_pos hne hl hπ
    rw [one_of ⟨π, hne, hl, hπ⟩]
    omega
  · rw [one_not hp]
    exact Nat.eq_zero_of_not_pos fun hpos => hp (exists_of_occ_pos hpos)

end EptTree

theorem Pmap.decref_withMem (s : Pmap) (m : Nat → Word) (p : Nat) :
    (s.withMem m).decref p = (s.decref p).withMem m := by
  by_cases h : s.ppRef p = 1#16 ∧ s.ppLink p = none
  · have e : s.decref p = s.give p := if_pos h
    have e' : (s.withMem m).decref p = (s.withMem m).give p := if_pos h
    rw [e, e']
    rfl
  · have e : s.decref p = s.setRef p (s.ppRef p - 1#16) := if_neg h
    have e' : (s.withMem m).decref p = (s.withMem m).setRef p (s.ppRef p - 1#16) := if_neg h
    rw [e, e']
    rfl

/-- Giving references up does not depend on the contents of memory. -/
theorem Pmap.decrefAll_withMem (m : Nat → Word) : ∀ (l : List Nat) (s : Pmap),
    (s.withMem m).decrefAll l = (s.decrefAll l).withMem m
  | [], _ => rfl
  | p :: l, s => by
    rw [show (s.withMem m).decrefAll (p :: l) = ((s.withMem m).decref p).decrefAll l from rfl,
      s.decref_withMem, Pmap.decrefAll_withMem m l]
    rfl

open Classical in
/-- The references that the tree of `r` holds to `p`, the root's own aside. -/
noncomputable def givenUp (s : Pmap) (r p : Nat) : Nat :=
  fibre (eptPage s r) p + one (LowerTable s r p)

theorem EptTree.count_visited (h : EptTree s r) (p : Nat) :
    (visited 512 eptDec eptDec s.mem 3 r).count p = givenUp s r p := by
  classical
  rw [Radix.count_visited, leafCount_eq, h.occ_eq p, givenUp]
  unfold one eptPage eptTab
  split <;> rfl

open Classical in
theorem givenUp_eq_zero {p : Nat} (hv : ∀ v, eptPage s r v ≠ some p) (hT : ¬ LowerTable s r p) :
    givenUp s r p = 0 := by
  have hf : fibre (eptPage s r) p = 0 := Nat.eq_zero_of_not_pos fun hpos => by
    obtain ⟨v, hvp⟩ := fibre_pos_iff.mp hpos
    exact hv v hvp
  rw [givenUp, hf, one_not hT]

/-- The tree, read in a memory with the same tables, is the same and is traversed alike. -/
theorem EptTree.withMem (h : EptTree s r) {m : Nat → Word}
    (hm : ∀ (π : List (Fin 512)) (t : Nat), π.length ≤ 3 → eptTab s r π = some t →
      ∀ i : Fin 512, m (slot t i) = s.mem (slot t i)) :
    InMemory m s.npages 3 r ∧
      visited 512 eptDec eptDec m 3 r = visited 512 eptDec eptDec s.mem 3 r := by
  have htab : ∀ π : List (Fin 512), π.length ≤ 3 →
      tableAt eptDec m r π = tableAt eptDec s.mem r π := fun π hl => by
    refine tableAt_congr fun ρ i σ u e hu => congrArg eptDec (hm ρ u ?_ hu i)
    rw [e, List.length_append, List.length_cons] at hl
    omega
  refine ⟨⟨fun π c hl hc => ?_, fun π c i p hl hc hp => ?_⟩, visited_congr
    (fun π c i hl hc => congrArg eptDec (hm π c (Nat.le_of_lt hl) hc i))
    fun π c i hl hc => congrArg eptDec (hm π c (Nat.le_of_eq hl) hc i)⟩
  · exact h.inMemory.table_lt π c hl ((htab π hl).symm.trans hc)
  · have hc' := (htab π (Nat.le_of_eq hl)).symm.trans hc
    rw [hm π c (Nat.le_of_eq hl) hc' i] at hp
    exact h.inMemory.leaf_lt π c i p hl hc' hp

/-- **Teardown gives up exactly what the tree holds.**  The count of a page goes down by the
number of present leaves that name it, plus one if it is a table below the root; the root's count
and every word of memory stay.  Only tables are read: with any other contents of the other pages
the run is the same. -/
theorem freeGuestMem_exact (h : EptTree s r) :
    ∃ s', (freeGuestMem (r * 512)).run s = .ok ((), s') ∧ s'.mem = s.mem ∧
      (∀ p, s'.ppRef p = s.ppRef p - BitVec.ofNat 16 (givenUp s r p)) ∧
      (∀ p, givenUp s r p ≤ (s.ppRef p).toNat →
        (s'.ppRef p).toNat + givenUp s r p = (s.ppRef p).toNat) ∧
      s'.ppRef r = s.ppRef r ∧
      (∀ p, (∀ v, eptPage s r v ≠ some p) → ¬ LowerTable s r p → s'.ppRef p = s.ppRef p) ∧
      ∀ m : Nat → Word, (∀ a, a / 512 = r ∨ LowerTable s r (a / 512) → m a = s.mem a) →
        (freeGuestMem (r * 512)).run (s.withMem m) = .ok ((), s'.withMem m) := by
  have href : ∀ p, (s.decrefAll (visited 512 eptDec eptDec s.mem 3 r)).ppRef p =
      s.ppRef p - BitVec.ofNat 16 (givenUp s r p) := fun p => by
    rw [Pmap.decrefAll_ppRef, h.count_visited]
  have hsame : ∀ p, (∀ v, eptPage s r v ≠ some p) → ¬ LowerTable s r p →
      (s.decrefAll (visited 512 eptDec eptDec s.mem 3 r)).ppRef p = s.ppRef p := fun p hv hT => by
    rw [href, givenUp_eq_zero hv hT]
    exact BitVec.sub_zero _
  have hrun : (freeGuestMem (r * 512)).run s =
      .ok ((), s.decrefAll (visited 512 eptDec eptDec s.mem 3 r)) :=
    @freeEptLevel_traverses s.mem s.npages 3 r s h.inMemory rfl rfl
  refine ⟨s.decrefAll (visited 512 eptDec eptDec s.mem 3 r), hrun, Pmap.decrefAll_mem, href,
    fun p hp => ?_, ?_, fun p hv hT => ?_, fun m hm => ?_⟩
  · have hlt := (s.ppRef p).isLt
    rw [href, BitVec.toNat_sub, BitVec.toNat_ofNat]
    omega
  · exact hsame r (fun v hv => (h.apart v r hv).1 rfl) h.not_lowerTable_root
  · exact hsame p hv hT
  · obtain ⟨hin, hvis⟩ := h.withMem (m := m) fun π t hl ht i => hm _ (by
      rw [slot_div]
      by_cases hπ : π = []
      · subst hπ
        exact .inl (Option.some.inj ht).symm
      · exact .inr ⟨π, hπ, hl, ht⟩)
    rw [← Pmap.decrefAll_withMem, ← hvis]
    exact @freeEptLevel_traverses m s.npages 3 r (s.withMem m) hin rfl rfl

/-- A machine of eight pages: from the root, page 7, one table of each level, pages 6, 5 and 4,
and two leaves that name page 3. -/
def oneBranch : Pmap where
  npages := 8
  npages_le := eight_le_maxNpages
  mem a := if a = 7 * 512 then page2pa 6 ||| epteFull
    else if a = 6 * 512 then page2pa 5 ||| epteFull
    else if a = 5 * 512 then page2pa 4 ||| epteFull
    else if a = 4 * 512 ∨ a = 4 * 512 + 1 then page2pa 3 ||| epteFull
    else 0
  ppRef p := if p = 3 then 2#16 else 1#16
  ppLink _ := none
  pageFreeList := none

theorem oneBranch_upper {t : Nat} (ht : t = 7 ∨ t = 6 ∨ t = 5) (i : Fin 512) :
    eptDec (oneBranch.mem (slot t i)) = if i = 0 then some (t - 1) else none := by
  by_cases hi : i = 0
  · subst hi
    rcases ht with rfl | rfl | rfl <;> decide
  · have hpos : 0 < (i : Nat) := Nat.pos_of_ne_zero fun h => hi (Fin.ext h)
    have hz : oneBranch.mem (slot t i) = 0 := by
      simp only [oneBranch, slot]
      rw [if_neg (by omega), if_neg (by omega), if_neg (by omega), if_neg (by omega)]
    rw [if_neg hi, hz, eptDec_zero]

/-- The tables below a table of `oneBranch`. -/
theorem oneBranch_tab {π : List (Fin 512)} {l t : Nat} (h3 : l ≤ 3) (hl : π.length ≤ l)
    (h : eptTab oneBranch (l + 4) π = some t) :
    π = List.replicate (l + 4 - t) 0 ∧ 4 ≤ t ∧ t ≤ l + 4 := by
  induction π generalizing l with
  | nil =>
    obtain rfl := Option.some.inj h
    exact ⟨by rw [Nat.sub_self]; rfl, Nat.le_add_left .., Nat.le_refl _⟩
  | cons i π ih =>
    obtain ⟨l, rfl⟩ := Nat.exists_eq_add_of_le' (Nat.lt_of_lt_of_le (Nat.succ_pos _) hl)
    rw [eptTab, tableAt, oneBranch_upper (by omega)] at h
    obtain ⟨_, hi, h⟩ := Option.bind_eq_some_iff.mp h
    obtain ⟨rfl, ht⟩ := Option.ite_none_right_eq_some.mp hi
    cases ht
    obtain ⟨rfl, h4, hle⟩ := ih (Nat.le_of_succ_le h3) (Nat.le_of_succ_le_succ hl) h
    rw [show l + 1 + 4 - t = l + 4 - t + 1 by omega]
    exact ⟨rfl, h4, by omega⟩

theorem oneBranch_page {v : Vpn} {p : Nat} (h : eptPage oneBranch 7 v = some p) : p = 3 := by
  obtain ⟨u, hu, hp⟩ := Option.bind_eq_some_iff.mp h
  obtain ⟨hπ, -, hle⟩ := oneBranch_tab (Nat.le_refl 3) (Nat.le_of_eq v.path_length) hu
  have hlen := congrArg List.length hπ
  rw [Vpn.path_length, List.length_replicate] at hlen
  obtain rfl : u = 4 := by omega
  simp only [oneBranch, slot] at hp
  rw [if_neg (by omega), if_neg (by omega), if_neg (by omega)] at hp
  split at hp
  · exact (Option.some.inj (hp.symm.trans (by decide)))
  · cases hp

theorem oneBranch_tree : EptTree oneBranch 7 where
  unique π π' t hl hl' h h' := (oneBranch_tab (Nat.le_refl 3) hl h).1.trans
    (oneBranch_tab (Nat.le_refl 3) hl' h').1.symm
  table_lt π t hl h := Nat.lt_succ_of_le (oneBranch_tab (Nat.le_refl 3) hl h).2.2
  mapped_lt v p h := by rw [oneBranch_page h]; decide
  apart v p h := by
    obtain rfl := oneBranch_page h
    exact ⟨by decide, fun ⟨π, _, hl, ht⟩ => absurd (oneBranch_tab (Nat.le_refl 3) hl ht).2.1 (by decide)⟩

/-- The theorem at a tree with one branch. -/
theorem freeGuestMem_exact_branch : ∃ s', (freeGuestMem (7 * 512)).run oneBranch = .ok ((), s') ∧
    s'.mem = oneBranch.mem ∧ s'.ppRef 7 = 1#16 ∧
    s'.ppRef 3 = 2#16 - BitVec.ofNat 16 (givenUp oneBranch 7 3) := by
  obtain ⟨s', hrun, hmem, href, -, hroot, -⟩ := freeGuestMem_exact oneBranch_tree
  exact ⟨s', hrun, hmem, hroot, href 3⟩

end JosVmm
