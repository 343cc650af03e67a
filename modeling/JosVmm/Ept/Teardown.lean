import JosVmm.Pmap.Forest
import JosVmm.Ept.Insert

/-!
# Extended page tables — teardown

`free_guest_mem` gives up one reference for every present leaf and every table below the root,
in the order of a depth-first traversal (`freeGuestMem_run`).  Under an account it may do so: the
tree refers to each page at least as often (`Acct.teardown`).
-/

namespace JosVmm
open Support Support.Radix Support.Prog Support.Counting Function List Pmap

/-- References given up one after the other. -/
def Pmap.decrefAll (s : Pmap) (l : List Nat) : Pmap := l.foldl decref s

variable {s s' : Pmap} {l l' : List Nat}

theorem Pmap.decrefAll_append : s.decrefAll (l ++ l') = (s.decrefAll l).decrefAll l' :=
  foldl_append ..

theorem Pmap.decrefAll_singleton (p : Nat) : s.decrefAll [p] = s.decref p := rfl

@[simp] theorem Pmap.decrefAll_mem : ∀ {l : List Nat} {s : Pmap}, (s.decrefAll l).mem = s.mem
  | [], _ => rfl
  | p :: l, s => (decrefAll_mem (l := l) (s := s.decref p)).trans decref_mem

@[simp] theorem Pmap.decrefAll_npages : ∀ {l : List Nat} {s : Pmap},
    (s.decrefAll l).npages = s.npages
  | [], _ => rfl
  | p :: l, s => (decrefAll_npages (l := l) (s := s.decref p)).trans decref_npages

/-- Each reference given up is counted down once. -/
theorem Pmap.decrefAll_ppRef (q : Nat) : ∀ {l : List Nat} {s : Pmap},
    (s.decrefAll l).ppRef q = s.ppRef q - BitVec.ofNat 16 (l.count q)
  | [], s => by simp [decrefAll]
  | p :: l, s => by
    rw [show s.decrefAll (p :: l) = (s.decref p).decrefAll l from rfl, decrefAll_ppRef q,
      decref_ppRef]
    by_cases e : q = p
    · subst e
      rw [update_self, count_cons_self]
      apply BitVec.eq_of_toNat_eq
      simp only [BitVec.toNat_sub, BitVec.toNat_ofNat]
      omega
    · rw [update_of_ne e, count_cons_of_ne (Ne.symm e)]

theorem forM_pageDecref : (l.forM pageDecref).run s = .ok ((), s.decrefAll l) :=
  forM_run (P := fun _ => True) (fun p _ s _ => ⟨pageDecref_run s p, trivial⟩) trivial

/-! ### The traversal -/

/-- Below the table `t`, as `epte_present` reads it, tables and mapped pages are pages of
memory. -/
structure InMemory (mem : Nat → Word) (npages level t : Nat) : Prop where
  table_lt : ∀ (π : List (Fin 512)) (c : Nat), π.length ≤ level →
    tableAt eptDec mem t π = some c → c < npages
  leaf_lt : ∀ (π : List (Fin 512)) (c : Nat) (i : Fin 512) (p : Nat), π.length = level →
    tableAt eptDec mem t π = some c → eptDec (mem (slot c i)) = some p → p < npages

theorem InMemory.child {mem : Nat → Word} {npages level t c : Nat} {i : Fin 512}
    (h : InMemory mem npages (level + 1) t) (hc : eptDec (mem (slot t i)) = some c) :
    InMemory mem npages level c := by
  have step : ∀ π, tableAt eptDec mem t (i :: π) = tableAt eptDec mem c π := fun π => by
    rw [tableAt, hc, Option.bind_some]
  exact
    { table_lt := fun π d hl hd => h.table_lt (i :: π) d (by simpa using hl) (by rwa [step])
      leaf_lt := fun π d j p hl hd =>
        h.leaf_lt (i :: π) d j p (by simpa using hl) (by rwa [step]) }

theorem pa2page_epteAddr {e : Word} (h : ppn e < s.npages) :
    (pa2page (epteAddr e)).run s = .ok (ppn e, s) := by
  have : ppn (epteAddr e) = ppn e := ppn_pteAddr e
  rw [pa2page_run (by rwa [this]), this]

theorem eptDec_none {e : Word} (h : eptePresent e = false) : eptDec e = none := by
  rw [eptDec, present, h]
  rfl

theorem eptDec_present {e : Word} (h : eptePresent e = true) : eptDec e = some (ppn e) := by
  rw [eptDec, present, h, if_pos rfl, Option.map_some, epteAddr_eq, ppn_pteAddr]

/-- **`free_ept_level` is a traversal.** -/
theorem freeEptLevel_traverses {mem : Nat → Word} {npages : Nat} : ∀ {level t : Nat} {s : Pmap},
    InMemory mem npages level t → s.mem = mem → s.npages = npages →
    (freeEptLevel level (t * 512)).run s =
      .ok ((), s.decrefAll (visited 512 eptDec eptDec mem level t))
  | 0, t, s, h, hm, hn => by
    have hlt : t < npages := h.table_lt [] t (Nat.le_refl 0) rfl
    rw [visited, decrefAll, foldl_flatMap, freeEptLevel]
    refine forM_range_run (n := 512) (P := fun s => s.mem = mem ∧ s.npages = npages) ?_ ⟨hm, hn⟩
    rintro i s ⟨hm, hn⟩
    refine ⟨?_, decrefAll_mem.trans hm, decrefAll_npages.trans hn⟩
    rw [bind_ok (load_entry (hn ▸ hlt) i), hm]
    cases hp : eptePresent (mem (slot t i)) with
    | false =>
      rw [eptDec_none hp, if_neg (by simp)]
      rfl
    | true =>
      have hdec := eptDec_present hp
      have hpl := h.leaf_lt [] t i _ rfl rfl hdec
      rw [if_pos rfl, bind_ok (pa2page_epteAddr (hn ▸ hpl)), pageDecref_run, hdec]
      rfl
  | level + 1, t, s, h, hm, hn => by
    have hlt : t < npages := h.table_lt [] t (Nat.zero_le _) rfl
    rw [visited, decrefAll, foldl_flatMap, freeEptLevel]
    refine forM_range_run (n := 512) (P := fun s => s.mem = mem ∧ s.npages = npages) ?_ ⟨hm, hn⟩
    rintro i s ⟨hm, hn⟩
    refine ⟨?_, decrefAll_mem.trans hm, decrefAll_npages.trans hn⟩
    rw [bind_ok (load_entry (hn ▸ hlt) i), hm]
    cases hp : eptePresent (mem (slot t i)) with
    | false =>
      rw [eptDec_none hp, if_neg (by simp)]
      rfl
    | true =>
      have hdec := eptDec_present hp
      generalize hc : ppn (mem (slot t i)) = c at hdec
      have hcl : c < npages := h.table_lt [i] c (by simp) (by simp [tableAt, hdec])
      have haddr : epteAddr (mem (slot t i)) = page2pa c := by rw [← hc, page2pa_ppn]; rfl
      have hsub := freeEptLevel_traverses (s := s) (h.child hdec) hm hn
      rw [if_pos rfl, hdec]
      simp only []
      rw [haddr, bind_ok (kaddr_page2pa (hn ▸ hcl)), bind_ok hsub,
        bind_ok (pa2page_run (by
          rw [decrefAll_npages, hn, ppn_page2pa (lt_two_pow_52 (hn ▸ hcl))]
          exact hcl)),
        ppn_page2pa (lt_two_pow_52 (hn ▸ hcl)), pageDecref_run]
      show _ = Except.ok ((), s.decrefAll (_ ++ [c]))
      rw [decrefAll_append, decrefAll_singleton]

/-- What `free_ept_level` needs below the table `t` of the walkers: tables and mapped pages are
pages, and absent interior entries are zero. -/
structure Freeable (mem : Nat → Word) (npages level t : Nat) : Prop where
  table_lt : ∀ (π : List (Fin 512)) (c : Nat), π.length ≤ level → tableAt dec mem t π = some c →
    c < npages
  absent : ∀ (π : List (Fin 512)) (c : Nat) (i : Fin 512), π.length < level →
    tableAt dec mem t π = some c → dec (mem (slot c i)) = none → mem (slot c i) = 0
  leaf_lt : ∀ (π : List (Fin 512)) (c : Nat) (i : Fin 512) (p : Nat), π.length = level →
    tableAt dec mem t π = some c → eptDec (mem (slot c i)) = some p → p < npages

namespace Freeable

variable {mem : Nat → Word} {npages level t : Nat}

section

variable (h : Freeable mem npages level t)
include h

/-- `epte_present` and `PTE_P` follow the same interior entries. -/
theorem eptDec_eq {π : List (Fin 512)} {c : Nat} (hl : π.length < level)
    (hc : tableAt dec mem t π = some c) (i : Fin 512) :
    eptDec (mem (slot c i)) = dec (mem (slot c i)) := by
  cases hd : dec (mem (slot c i)) with
  | none => rw [h.absent π c i hl hc hd, eptDec_zero]
  | some d => rw [eptDec_present (eptePresent_of_dec hd), (dec_eq_some.mp hd).2]

theorem tableAt_eq {π : List (Fin 512)} (hl : π.length ≤ level) :
    tableAt eptDec mem t π = tableAt dec mem t π := by
  refine tableAt_congr fun ρ i σ u e hu => h.eptDec_eq ?_ hu i
  rw [e, length_append, length_cons] at hl
  omega

theorem inMemory : InMemory mem npages level t where
  table_lt π c hl hc := h.table_lt π c hl ((h.tableAt_eq hl).symm.trans hc)
  leaf_lt π c i p hl hc :=
    h.leaf_lt π c i p hl ((h.tableAt_eq (Nat.le_of_eq hl)).symm.trans hc)

end

end Freeable

/-- The traversal of a tree of the walkers. -/
theorem freeEptLevel_run {mem : Nat → Word} {npages level t : Nat} {s : Pmap}
    (h : Freeable mem npages level t) (hm : s.mem = mem) (hn : s.npages = npages) :
    (freeEptLevel level (t * 512)).run s =
      .ok ((), s.decrefAll (visited 512 dec eptDec mem level t)) := by
  rw [freeEptLevel_traverses h.inMemory hm hn]
  exact congrArg (fun l => Except.ok ((), s.decrefAll l)) (visited_congr
    (fun π c i hl hc => h.eptDec_eq hl hc i) fun _ _ _ _ _ => rfl)

/-! ### Accounts -/

/-- `r` is the root of an EPT: all of it belongs to the layout, and its leaves are EPT leaves. -/
structure EptRoot (R : Reading Nat) (F : Layout 512) (r : Nat) : Prop where
  root : r ∈ F.roots
  dom : ∀ i, F.dom r i
  read : R.read r = eptDec

variable {R : Reading Nat} {F : Layout 512} {A : Finset Nat} {extra m : Nat → Nat}
  {L : List Nat} {r : Nat}

theorem EptRoot.node (hG : EptRoot R F r) (h : Wf F s L) {π : List (Fin 512)}
    (hl : π.length ≤ 3) : F.Node r π :=
  ⟨hG.root, h.depth ▸ hl, fun i _ => hG.dom i⟩

theorem Wf.freeable (h : Wf F s L) (hG : EptRoot R F r)
    (hleaf : ∀ v p, view R F s r v = some p → p < s.npages) : Freeable s.mem s.npages 3 r := by
  have node : ∀ {π : List (Fin 512)}, π.length ≤ 3 → F.Node r π := hG.node h
  refine
    { table_lt := fun π c hl hc => h.tab_lt (node hl) hc
      absent := fun π c i hl hc => h.absent r π i c (node (by simpa using Nat.succ_le_of_lt hl)) hc
      leaf_lt := fun π c i p hl hc hp => ?_ }
  match π, hl with
  | [x, y, z], hl =>
    have hn : F.Node r (Vpn.path (x, y, z, i)) := node (Nat.le_of_eq hl)
    have hv := view_of_tab (R := R) (v := (x, y, z, i)) hn hc
    rw [hG.read] at hv
    exact hleaf _ p (hv.trans hp)

theorem Acct.freeable (h : Acct R F A extra s L) (hG : EptRoot R F r) :
    Freeable s.mem s.npages 3 r :=
  h.toWf.freeable hG fun v p hv => h.mapped_lt p (leaves_pos_iff.mpr ⟨r, hG.root, v, hv⟩)

/-- **References may be given up** as long as each is held elsewhere; `m` of them remain. -/
theorem Acct.decrefAll : ∀ {l : List Nat} {A : Finset Nat} {extra : Nat → Nat} {s : Pmap}
    {L : List Nat}, Acct R F A extra s L → (∀ p ∈ l, p < s.npages) →
    (∀ p, p ∉ A → l.count p + m p ≤ extra p) →
    (∀ p ∈ A, l.count p ≤ 1 ∧ m p = 0 ∧ (p ∈ l → leaves R F s p = 0)) →
    ∃ A' extra' L', Acct R F A' extra' (s.decrefAll l) L' ∧ ∀ p, m p ≤ extra' p
  | [], A, extra, s, L, h, _, hm, hA => by
    refine ⟨A, extra, L, h, fun p => ?_⟩
    by_cases hp : p ∈ A
    · rw [(hA p hp).2.1]
      exact Nat.zero_le _
    · exact Nat.le_trans (Nat.le_add_left ..) (hm p hp)
  | p :: l, A, extra, s, L, h, hlt, hm, hA => by
    have hlt' : ∀ q ∈ l, q < (s.decref p).npages := fun q hq => by
      rw [decref_npages]
      exact hlt q (mem_cons_of_mem p hq)
    show ∃ A' extra' L', Acct R F A' extra' ((s.decref p).decrefAll l) L' ∧ ∀ p, m p ≤ extra' p
    by_cases hp : p ∈ A
    · obtain ⟨h1, h2, h3⟩ := hA p hp
      rw [count_cons_self] at h1
      refine Acct.decrefAll (h.decrefAnon hp (h3 (mem_cons_self ..))) hlt'
        (fun q hq => ?_) (fun q hq => ?_)
      · by_cases e : q = p
        · subst e
          rw [update_self]
          omega
        · have := hm q fun hqA => hq (Finset.mem_erase.mpr ⟨e, hqA⟩)
          rw [count_cons_of_ne (Ne.symm e)] at this
          rwa [update_of_ne e]
      · obtain ⟨e, hqA⟩ := Finset.mem_erase.mp hq
        obtain ⟨h1, h2, h3⟩ := hA q hqA
        rw [count_cons_of_ne (Ne.symm e)] at h1
        exact ⟨h1, h2, fun hql => by
          rw [leaves_decref]
          exact h3 (mem_cons_of_mem p hql)⟩
    · have hpm := hm p hp
      rw [count_cons_self] at hpm
      obtain ⟨L', h', -⟩ := h.decref hp (hlt p (mem_cons_self ..)) (by omega)
      refine Acct.decrefAll h' hlt' (fun q hq => ?_) (fun q hq => ?_)
      · by_cases e : q = p
        · subst e
          rw [update_self]
          omega
        · have := hm q hq
          rw [count_cons_of_ne (Ne.symm e)] at this
          rwa [update_of_ne e]
      · have e : q ≠ p := by rintro rfl; exact hp hq
        obtain ⟨h1, h2, h3⟩ := hA q hq
        rw [count_cons_of_ne (Ne.symm e)] at h1
        exact ⟨h1, h2, fun hql => by
          rw [leaves_decref]
          exact h3 (mem_cons_of_mem p hql)⟩

/-- **A tree is torn down** after the references `held` are given up; of the references held
elsewhere, `m` remain. -/
theorem Acct.teardown (held : List Nat) (h : Acct R F A extra s L) (hG : EptRoot R F r)
    (hlt : ∀ p ∈ held, p < s.npages) (hm : ∀ p, held.count p + m p ≤ extra p) :
    ∃ A' extra' L', Acct R (F.prune r) A' extra'
      (s.decrefAll (held ++ (visited 512 dec eptDec s.mem 3 r ++ [r]))) L' ∧
      ∀ p, m p ≤ extra' p := by
  have hr := hG.root
  have hcount := fun p => h.toWf.count_le_debt (R := R) hr hG.dom hG.read p
  generalize hl : visited 512 dec eptDec s.mem 3 r ++ [r] = l at hcount ⊢
  -- the tree maps an uncounted page at most once, and then no other tree does
  have anon : ∀ p ∈ A, held.count p = 0 ∧ m p = 0 ∧
      debt R F s r p + leaves R (F.prune r) s p ≤ 1 := fun p hp => by
    obtain ⟨-, -, h3, h4, h5⟩ := h.anon p hp
    have := hm p
    rw [leaves_prune hr] at h3
    rw [h.tables_prune hr] at h4
    rw [debt]
    omega
  refine Acct.decrefAll (h.prune hr) (fun p hp => ?_) (fun p hp => ?_) (fun p hp => ?_)
  · rcases List.mem_append.mp hp with hp | hp
    · exact hlt p hp
    · have hpos : 0 < debt R F s r p :=
        Nat.lt_of_lt_of_le (List.count_pos_iff.mpr hp) (hcount p)
      rw [debt] at hpos
      by_cases hf : 0 < fibre (view R F s r) p
      · exact h.mapped_lt p (by rw [leaves_prune hr]; omega)
      · have : tables F s p ≠ 0 := by rw [h.tables_prune hr]; omega
        exact h.table_lt p (by_contra fun hT => this (tables_eq_zero.mpr hT))
  · rw [if_neg hp, count_append]
    have := hm p
    have := hcount p
    omega
  · obtain ⟨h1, h2, h3⟩ := anon p hp
    have := hcount p
    rw [count_append, h1]
    refine ⟨by omega, h2, fun hpl => ?_⟩
    have hpos : 0 < l.count p := List.count_pos_iff.mpr
      ((List.mem_append.mp hpl).resolve_left fun hh => by
        have := List.count_pos_iff.mpr hh
        omega)
    omega

end JosVmm
