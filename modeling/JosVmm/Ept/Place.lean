import JosVmm.Ept.Teardown

/-!
# Extended page tables — insertion and accounts

What an insertion into a guest's table does to the reference account.  `ept_page_insert` itself
counts nothing: the leaf it writes takes over a reference held elsewhere, or the page is not
counted at all, and the leaf it overwrites leaves its own reference behind
(`Acct.eptInsert`).  A caller that counts the page after the insertion needs none to spare
(`Acct.eptInsert_incRef`).
-/

namespace JosVmm
open Support Support.Radix Support.Prog Support.Counting

variable {R : Reading Nat} {F : Layout 512} {A : Finset Nat} {extra m : Nat → Nat}
  {s s' s₁ : Pmap} {L L' new : List Nat} {r pp : Nat} {gpa : Word} {perm : BitVec 32}
  {overwrite : Bool} {res : Except Err Unit}

/-- The walkers of a failed insertion write to free pages only. -/
theorem Acct.withFree (h : Acct R F A extra s L) {w : Nat → Word}
    (hw : ∀ a, a / 512 ∉ L → w a = s.mem a) : Acct R F A extra (s.withMem w) L :=
  h.withMem fun t ht i => hw _ (by
    rw [slot_div]
    exact h.table_not_free t ht)

section

variable (h : Acct R F A extra s L) (hG : EptRoot R F r) (hx : InTables gpa)
include h hG hx

/-- **`ept_page_insert`** of a page whose reference is held elsewhere, or that is not counted. -/
theorem Acct.eptInsert 
    (hm : ∀ q, m q ≤ extra q) (hpp : pp < s.npages)
    (haddr : epteAddr (eptLeaf pp perm) = page2pa pp)
    (hfit : view R F s r (doubled gpa) = some pp ∨ pp ∉ A ∧ m pp < extra pp ∨
      pp ∈ A ∧ leaves R F s pp = 0)
    (hrun : (eptPageInsert (some (r * 512)) pp gpa perm overwrite).run s = .ok (res, s')) :
    ∃ extra' L', Acct R F A extra' s' L' ∧ (∀ q, m q ≤ extra' q) ∧ s'.npages = s.npages := by
  have hn : F.Node r (vpn gpa).path := hG.node h.toWf (Nat.le_refl 3)
  obtain ⟨w, -, rfl, hw⟩ | ⟨s₁, new, L', u, rfl, hg, hu, hs'⟩ :=
    eptPageInsert_cases h.toWf hn hx hrun
  · exact ⟨extra, L, h.withFree hw, hm, rfl⟩
  · have h1 := h.grown hg
    obtain ⟨-, rfl⟩ | ⟨-, rfl⟩ := hs'
    · exact ⟨extra, L', h1, hm, hg.npages⟩
    · obtain ⟨extra', h', hm'⟩ := h1.overwrite (v := doubled gpa) hn hu (eptLeaf pp perm) hm
        fun p hp => by
          rw [hG.read] at hp
          obtain rfl := eptDec_of_addr (Pmap.lt_two_pow_52 hpp) haddr hp
          rw [hg.view h.toWf hG.root, hg.npages,
            show leaves R F s₁ p = leaves R F s p from
              total_congr (fun r hr => hg.view h.toWf hr) p]
          exact ⟨hpp, hfit⟩
      exact ⟨extra', L', h', hm', hg.npages⟩

/-- A refused insertion may leave new tables behind. -/
theorem Acct.eptInsert_error {e : Err}
    (hrun : (eptPageInsert (some (r * 512)) pp gpa perm overwrite).run s = .ok (.error e, s')) :
    ∃ L', Acct R F A extra s' L' ∧ s'.npages = s.npages ∧
      ∀ p, leaves R F s' p = leaves R F s p := by
  obtain ⟨w, hres, -⟩ | ⟨s₁, new, L', u, rfl, hg, -, ⟨-, rfl⟩ | ⟨hres, -⟩⟩ :=
    eptPageInsert_cases h.toWf (hG.node h.toWf (Nat.le_refl 3)) hx hrun
  · cases hres
  · exact ⟨L', h.grown hg, hg.npages, total_congr fun r hr => hg.view h.toWf hr⟩
  · cases hres

/-- **`ept_page_insert`, and then one more reference** to the page. -/
theorem Acct.eptInsert_incRef (hm : ∀ q, m q ≤ extra q) (hpp : pp < s.npages)
    (haddr : epteAddr (eptLeaf pp perm) = page2pa pp) (h0 : s.ppRef pp ≠ 0#16)
    (hmax : (s.ppRef pp).toNat < 65535)
    (hrun : (eptPageInsert (some (r * 512)) pp gpa perm overwrite).run s = .ok (res, s')) :
    ∃ extra' L', Acct R F A extra' (s'.setRef pp (s'.ppRef pp + 1#16)) L' ∧
      (∀ q, m q ≤ extra' q) ∧ s'.npages = s.npages ∧
      ∀ p ∈ A, leaves R F s' p ≤ leaves R F s p := by
  have hn : F.Node r (vpn gpa).path := hG.node h.toWf (Nat.le_refl 3)
  have hA : pp ∉ A := fun hA => h0 (h.anon pp hA).2.1
  have hL : pp ∉ L := fun hL => h0 (h.ref pp hL)
  -- the reference is counted in the state the leaf is written to
  have count : ∀ {s₁ : Pmap} {L1 : List Nat}, Acct R F A extra s₁ L1 → pp ∉ L1 →
      s₁.ppRef pp = s.ppRef pp → Acct R F A (fun q => extra q + one (pp = q))
        (s₁.setRef pp (s₁.ppRef pp + 1#16)) L1 := fun h1 hL1 e => by
    have := h1.incRef hL1 (by rwa [e]) fun hA' => absurd hA' hA
    rwa [Finset.erase_eq_of_notMem hA, update_add_one] at this
  have hm' : ∀ q, m q ≤ extra q + one (pp = q) := fun q =>
    Nat.le_trans (hm q) (Nat.le_add_right ..)
  obtain ⟨w, -, rfl, hw⟩ | ⟨s₁, new, L', u, rfl, hg, hu, hs'⟩ :=
    eptPageInsert_cases h.toWf hn hx hrun
  · refine ⟨_, L, count (h.withFree hw) hL rfl, hm', rfl, fun p _ => Nat.le_of_eq ?_⟩
    exact total_congr (fun r hr => h.view_withMem (fun t ht i => hw _ (by
      rw [slot_div]
      exact h.table_not_free t ht)) hr) p
  · rw [List.mem_append, not_or] at hL
    have h1 := count (h.grown hg) hL.2 (by rw [hg.ref, if_neg hL.1])
    have hgrown : ∀ p, leaves R F s₁ p = leaves R F s p :=
      total_congr fun r hr => hg.view h.toWf hr
    obtain ⟨-, rfl⟩ | ⟨-, rfl⟩ := hs'
    · exact ⟨_, L', h1, hm', hg.npages, fun p _ => Nat.le_of_eq (hgrown p)⟩
    · have hleaf : ∀ p ∈ A, leaves R F (s₁.setWord (slot u (ptx gpa + ptx gpa)) (eptLeaf pp perm)) p ≤
          leaves R F s p := fun p hp => by
        have hset := hg.wf.leaves_setLeaf (R := R) (v := doubled gpa) hn hu (eptLeaf pp perm) p
        have hne : ¬ R.read r (eptLeaf pp perm) = some p := fun hr => by
          rw [hG.read] at hr
          obtain rfl := eptDec_of_addr (Pmap.lt_two_pow_52 hpp) haddr hr
          exact hA hp
        rw [one_not hne, hgrown] at hset
        exact Nat.le.intro hset
      obtain ⟨extra', h', hm''⟩ := h1.overwrite (v := doubled gpa) (m := m) hn hu
        (eptLeaf pp perm) hm' fun p hp => by
          rw [hG.read] at hp
          obtain rfl := eptDec_of_addr (Pmap.lt_two_pow_52 hpp) haddr hp
          refine ⟨hg.npages.symm ▸ hpp, .inr (.inl ⟨hA, ?_⟩)⟩
          rw [one_of rfl]
          exact Nat.lt_succ_of_le (hm p)
      exact ⟨extra', L', h', hm'', hg.npages, hleaf⟩

end

end JosVmm
