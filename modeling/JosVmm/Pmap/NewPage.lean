import JosVmm.Pmap.Hardware
import JosVmm.Pmap.Host

/-!
# Page maps — a new page

`region_alloc` takes a page with `page_alloc` and maps it with `page_insert`, whatever was mapped
there.  `NewPage` says what has changed then, for a forest whose entries need not be counted: the
kernel's own map, which a forest may hold, is not.  What was mapped at the address before has to be
counted once, and is free afterwards.

* `newPage_ok` — the two calls, if there are pages enough.
-/

namespace JosVmm
open Support Support.Radix Support.Prog Function List Pmap

variable {F : Layout 512} {s s' s₁ : Pmap} {L L' L₁ new : List Nat} {r u pp q : Nat} {v v' : Vpn}
  {va g : Word} {perm : BitVec 32}

/-- What mapping the new page `pp` at `v` has done to the state `s` with the free list `L`. -/
structure NewPage (F : Layout 512) (r : Nat) (v : Vpn) (perm : BitVec 32) (pp : Nat) (s : Pmap)
    (L : List Nat) (s' : Pmap) (L' : List Nat) : Prop where
  wf : Wf F s' L'
  npages : s'.npages = s.npages
  length : L.length ≤ L'.length + (missing dec s.mem r v.path + 1)
  updated : Updated F s s' r v (pteLeaf pp perm)
  grants : Grants s' r v (granted perm)
  keeps : ∀ v' g, F.Node r v'.path → Grants s r v' g → Grants s' r v' g
  taken : pp ∈ L
  not_free : pp ∉ L'
  counted : s'.ppRef pp = 1#16
  not_table : ¬ F.IsTable dec s'.mem pp
  free : ∀ p ∈ L', p ∈ L ∨ view hostReading F s r v = some p
  ref : ∀ p, p ∉ L → view hostReading F s r v ≠ some p → s'.ppRef p = s.ppRef p
  tables : ∀ t, F.IsTable dec s'.mem t → F.IsTable dec s.mem t ∨ t ∈ L
  frame : ∀ a, a / 512 ∉ L → ¬ F.IsTable dec s.mem (a / 512) → s'.mem a = s.mem a

/-- Upper entries that only gain flags grant what they did. -/
theorem Grants.gain (h : Grants s r v g) (hw : Wf F s L) (hn : F.Node r v.path) {g' : Word}
    (hg' : g'.toNat < 4096) (hgain : ∀ a, a / 512 ∉ L → dec (s.mem a) ≠ none →
      s'.mem a = s.mem a ∨ s'.mem a = s.mem a ||| g') : Grants s' r v g := by
  obtain ⟨t₁, t₂, u, hp, g1, g2, g3⟩ := h
  have hentry : ∀ {t c : Nat} {i : Fin 512} {π : List (Fin 512)}, F.Node r π → tab s r π = some t →
      dec (s.mem (slot t i)) = some c → s.mem (slot t i) &&& g = g →
      dec (s'.mem (slot t i)) = some c ∧ s'.mem (slot t i) &&& g = g := by
    intro t c i π hπ ht hd hgr
    have hfree : slot t i / 512 ∉ L := by
      rw [slot_div]
      exact hw.table_not_free t ⟨r, π, hπ, ht⟩
    rcases hgain (slot t i) hfree (by rw [hd]; simp) with e | e
    · rw [e]
      exact ⟨hd, hgr⟩
    · rw [e]
      exact ⟨dec_or hg' hd, or_and_of_and_eq hgr g'⟩
  obtain ⟨d1, b1⟩ := hentry hn.root rfl hp.pml4e g1
  obtain ⟨d2, b2⟩ := hentry (Layout.Node.path₁ hn) hp.tab₁ hp.pdpe g2
  obtain ⟨d3, b3⟩ := hentry (Layout.Node.path₂ hn) hp.tab₂ hp.pde g3
  exact ⟨t₁, t₂, u, ⟨d1, d2, d3⟩, b1, b2, b3⟩

/-- The entry at `a`, which named the page `o`, is given up. -/
structure Vacated (a : Nat) (o : Option Nat) (s : Pmap) (L : List Nat) (s' : Pmap)
    (L' : List Nat) : Prop where
  mem : ∀ w, (s'.setWord a w).mem = (s.setWord a w).mem
  npages : s'.npages = s.npages
  list : FreeList s' L'
  free : ∀ p, p ∈ L' ↔ p ∈ L ∨ o = some p
  length : L.length ≤ L'.length
  ref : ∀ p, o ≠ some p → s'.ppRef p = s.ppRef p

/-- The last part of an insertion, if what was mapped there was counted once. -/
theorem pageMap_vacates (perm : BitVec 32) (h : Wf F s L) (hn : F.Node r (vpn va).path)
    (ht : tab s r (vpn va).path = some u) (hpp : pp < s.npages)
    (hold : ∀ q, dec (s.mem (slot u (ptx va))) = some q →
      q < s.npages ∧ q ∉ L ∧ s.ppRef q = 1#16 ∧ pp ≠ q) :
    ∃ s₁ L₁, (pageMap (r * 512) (slot u (ptx va)) pp va perm).run s =
        .ok ((), (s₁.setRef pp (s.ppRef pp + 1#16)).setWord (slot u (ptx va)) (pteLeaf pp perm)) ∧
      Vacated (slot u (ptx va)) (dec (s.mem (slot u (ptx va)))) s L s₁ L₁ := by
  cases hd : dec (s.mem (slot u (ptx va))) with
  | none =>
    exact ⟨s, L, pageMap_absent h hn ht hd, fun _ => rfl, rfl, h.toFreeList, by simp,
      Nat.le_refl _, fun _ _ => rfl⟩
  | some q =>
    obtain ⟨hq, hqL, hone, hne⟩ := hold q hd
    have hgive : (s.setWord (slot u (ptx va)) 0).decref q =
        (s.setWord (slot u (ptx va)) 0).give q := if_pos ⟨hone, h.unlinked q hqL⟩
    refine ⟨_, q :: L, pageMap_replace perm h hn ht hd hq hpp hne, fun w => ?_,
      decref_npages, ?_, fun p => ?_, by simp, fun p hp => ?_⟩
    · rw [setWord_mem, decref_mem, setWord_mem, update_idem, setWord_mem]
    · rw [hgive]
      exact (h.toFreeList.setMem _).give hqL hq
    · rw [mem_cons, Option.some.injEq, eq_comm, or_comm]
    · exact decref_ppRef_of_ne fun e => hp (congrArg some e.symm)

/-- The pages that the entry of `v` may name, when a new page is mapped there. -/
def Replaceable (F : Layout 512) (s : Pmap) (L : List Nat) (r : Nat) (v : Vpn) : Prop :=
  ∀ q, view hostReading F s r v = some q →
    q < s.npages ∧ q ∉ L ∧ s.ppRef q = 1#16 ∧ ¬ F.IsTable dec s.mem q

/-- **A new page is mapped**, if there are pages for it and the tables on the way. -/
theorem newPage_ok (h : Wf F s (pp :: L)) (hn : F.Node r (vpn va).path) (hperm : perm.toNat < 4096)
    (hold : Replaceable F s (pp :: L) r (vpn va))
    (hroom : missing dec s.mem r (vpn va).path ≤ L.length) :
    ∃ s' L', (pageInsert (some (r * 512)) (some pp) va perm).run (s.take pp) = .ok (.ok (), s') ∧
      NewPage F r (vpn va) perm pp s (pp :: L) s' L' := by
  have hpp : pp ∈ pp :: L := mem_cons_self ..
  have hlt : pp < s.npages := h.lt pp hpp
  have hnd := List.nodup_cons.mp h.nodup
  obtain ⟨s₀, s₁, new, L₁, u, rfl, hlen, hwalk, hgrant, hg, ht, hgr, hgain⟩ :=
    walk_grant (s := s.take pp) h.take hn hperm hroom
  have hnew : pp ∉ new := fun hc => hnd.1 (mem_append_left _ hc)
  have hleaf : dec (s₁.mem (slot u (ptx va))) = view hostReading F s r (vpn va) := by
    rw [show view hostReading F s r (vpn va) = view hostReading F (s.take pp) r (vpn va) from rfl,
      ← hg.view h.take hn.1, view_of_tab hn ht]
    rfl
  have href : ∀ p, s₁.ppRef p = if p ∈ new then 1#16 else s.ppRef p := hg.ref
  -- what was mapped there is still counted once, and not free
  have hold1 : ∀ q, dec (s₁.mem (slot u (ptx va))) = some q →
      q < s₁.npages ∧ q ∉ L₁ ∧ s₁.ppRef q = 1#16 ∧ pp ≠ q := by
    intro q hq
    obtain ⟨hql, hqL, hone, -⟩ := hold q (hleaf ▸ hq)
    rw [mem_cons, mem_append, not_or, not_or] at hqL
    refine ⟨hg.npages ▸ hql, hqL.2.2, ?_, Ne.symm hqL.1⟩
    rw [href, if_neg hqL.2.1, hone]
  obtain ⟨s2, L2, hmap, hvac⟩ := pageMap_vacates perm hg.wf hn ht (hg.npages ▸ hlt) hold1
  rw [hleaf] at hvac
  have hpp2 : pp ∉ L2 := by
    rw [hvac.free, not_or]
    exact ⟨fun hc => hnd.1 (mem_append_right _ hc), fun hc => (hold pp hc).2.1 hpp⟩
  have hmem : ((s2.setRef pp (s₁.ppRef pp + 1#16)).setWord (slot u (ptx va))
      (pteLeaf pp perm)).mem = (s₁.setWord (slot u (ptx va)) (pteLeaf pp perm)).mem := hvac.mem _
  have hT : ∀ t, F.IsTable dec ((s2.setRef pp (s₁.ppRef pp + 1#16)).setWord (slot u (ptx va))
      (pteLeaf pp perm)).mem t ↔ F.IsTable dec s.mem t ∨ t ∈ new := by
    intro t
    rw [hmem]
    exact (Layout.isTable_congr fun _ _ hn' => hg.wf.tab_setLeaf hn rfl ht _ _ hn').trans
      hg.isTable_iff
  have hTL : ∀ t, F.IsTable dec s₁.mem t → t ∉ L2 := by
    intro t htab hc
    rcases (hvac.free t).mp hc with hc | hc
    · exact hg.wf.table_not_free t htab hc
    · obtain ⟨-, hqL, -, hqT⟩ := hold t hc
      rcases hg.isTable_iff.mp htab with hT | hT
      · exact hqT hT
      · exact hqL (mem_cons_of_mem _ (mem_append_left _ hT))
  refine ⟨(s2.setRef pp (s₁.ppRef pp + 1#16)).setWord (slot u (ptx va)) (pteLeaf pp perm), L2,
    ?_, ?_⟩
  · simp only [pageInsert]
    rw [bind_ok hwalk]
    rw [bind_ok hgrant, bind_ok hmap]
    rfl
  refine ⟨?_, hvac.npages.trans hg.npages, ?_, ?_, ?_, ?_, hpp, hpp2, ?_, ?_, ?_, ?_, ?_, ?_⟩
  · refine (hg.wf.setLeaf hn rfl ht (ptx va) (pteLeaf pp perm)).withFree
      ((hvac.list.setRef hpp2 _).setMem _) hmem hvac.npages fun t htab => hTL t ?_
    exact (Layout.isTable_congr fun _ _ hn' => hg.wf.tab_setLeaf hn rfl ht _ _ hn').mp htab
  · have := hvac.length
    rw [length_cons, length_append, hlen]
    simp only [take_mem]
    omega
  · exact hg.updated (s := s.take pp) h.take hn.1 ((hg.wf.updated hn ht _).of_mem hmem)
  · exact (hgr.setLeaf hg.wf hn hn ht _).of_mem hmem
  · intro v' g hn' hv'
    have h1 : Grants s₁ r v' g :=
      Grants.gain (s := s.take pp) (hv'.of_mem rfl) h.take hn' (granted_lt hperm) hgain
    exact (h1.setLeaf hg.wf hn' hn ht _).of_mem hmem
  · rw [setWord_ppRef, setRef_ppRef, update_self, href, if_neg hnew, h.ref pp hpp]
    rfl
  · rw [hT]
    rintro (hc | hc)
    · exact h.table_not_free pp hc hpp
    · exact hnew hc
  · intro p hp
    exact ((hvac.free p).mp hp).imp_left fun hp =>
      mem_cons_of_mem _ (mem_append_right _ hp)
  · intro p hp hne
    rw [mem_cons, mem_append, not_or, not_or] at hp
    rw [setWord_ppRef, setRef_ppRef, update_of_ne hp.1, hvac.ref p hne, href, if_neg hp.2.1]
  · intro t htab
    exact ((hT t).mp htab).imp_right fun hc => mem_cons_of_mem _ (mem_append_left _ hc)
  · intro a ha hTa
    rw [mem_cons, mem_append, not_or, not_or] at ha
    rw [hmem, setWord_of_ne, hg.frame a ha.2.1 hTa]
    · rfl
    · rintro rfl
      rw [slot_div] at ha hTa
      rcases hg.isTable_iff.mp ⟨r, _, hn, ht⟩ with hc | hc
      · exact hTa hc
      · exact ha.2.1 hc

end JosVmm
