import JosVmm.Pmap.Walk

/-!
# Page maps — the upper entries

Once a walk has found the entry of an address, `page_insert` and `ept_lookup_gpa` go down the
tables again by hand and rewrite the three upper entries.  `Path s r v t₁ t₂ u` names the tables
they pass through.  As long as the new entries point where the old ones did, rewriting them is
part of the growth (`Grown.upper`).

* `orUpper_run`: `boot_map_region` and `page_insert` add permissions to the three entries;
* `eptUpper_run`: `ept_lookup_gpa` gives them full permissions, when `PDPE(gpa)` is zero.
-/

namespace JosVmm
open Support Support.Radix Support.Prog Pmap

/-- The tables on the way from the root `r` to the entry of `v`. -/
structure Path (s : Pmap) (r : Nat) (v : Vpn) (t₁ t₂ u : Nat) : Prop where
  pml4e : dec (s.mem (slot r v.1)) = some t₁
  pdpe : dec (s.mem (slot t₁ v.2.1)) = some t₂
  pde : dec (s.mem (slot t₂ v.2.2.1)) = some u

variable {F : Layout 512} {s s' : Pmap} {L L' new : List Nat} {r t₁ t₂ u : Nat} {v : Vpn}
  {w₁ w₂ w₃ : Word}

theorem tab_path_iff : tab s r v.path = some u ↔ ∃ t₁ t₂, Path s r v t₁ t₂ u := by
  rw [tab, Vpn.path, tableAt, Option.bind_eq_some_iff]
  constructor
  · rintro ⟨t₁, h1, h⟩
    obtain ⟨t₂, h2, h⟩ := Option.bind_eq_some_iff.mp h
    obtain ⟨t3, h3, h⟩ := Option.bind_eq_some_iff.mp h
    cases h
    exact ⟨t₁, t₂, h1, h2, h3⟩
  · rintro ⟨t₁, t₂, h1, h2, h3⟩
    refine ⟨t₁, h1, ?_⟩
    simp only [tableAt, h2, h3, Option.bind_some]

namespace Path

section

variable (h : Path s r v t₁ t₂ u)
include h

theorem tab₁ : tab s r [v.1] = some t₁ :=
  (tableAt_snoc_of (π := []) rfl v.1).trans h.pml4e

theorem tab₂ : tab s r [v.1, v.2.1] = some t₂ :=
  (tableAt_snoc_of (π := [v.1]) h.tab₁ v.2.1).trans h.pdpe

theorem tab₃ : tab s r v.path = some u := tab_path_iff.mpr ⟨t₁, t₂, h⟩

end

end Path

/-- Tables at different nodes are different. -/
theorem Wf.table_ne {π π' : List (Fin 512)} {t t' : Nat} (h : Wf F s L) (hn : F.Node r π)
    (hn' : F.Node r π') (ht : tab s r π = some t) (ht' : tab s r π' = some t') (hne : π ≠ π') :
    t ≠ t' := by
  rintro rfl
  exact hne (h.tree _ _ _ _ _ ⟨hn, ht⟩ ⟨hn', ht'⟩).2

/-- The three upper entries rewritten. -/
def Pmap.upper (s : Pmap) (r : Nat) (v : Vpn) (t₁ t₂ : Nat) (w₁ w₂ w₃ : Word) : Pmap :=
  ((s.setWord (slot r v.1) w₁).setWord (slot t₁ v.2.1) w₂).setWord (slot t₂ v.2.2.1) w₃

section nodes

variable (hn : F.Node r v.path)
include hn

theorem Layout.Node.path₁ : F.Node r [v.1] :=
  Layout.Node.of_append (σ := [v.2.1, v.2.2.1]) hn

theorem Layout.Node.path₂ : F.Node r [v.1, v.2.1] := Layout.Node.of_append (σ := [v.2.2.1]) hn

end nodes

section

variable (h : Path s r v t₁ t₂ u) (hw : Wf F s L)
include h hw

/-- The upper entries are distinct words. -/
theorem Path.slots_ne (hn : F.Node r v.path) :
    slot r v.1 ≠ slot t₁ v.2.1 ∧ slot r v.1 ≠ slot t₂ v.2.2.1 ∧
      slot t₁ v.2.1 ≠ slot t₂ v.2.2.1 := by
  have hn1 := Layout.Node.path₁ hn
  have hn2 := Layout.Node.path₂ hn
  have h1 : r ≠ t₁ := hw.table_ne hn.root hn1 rfl h.tab₁ (by simp)
  have h2 : r ≠ t₂ := hw.table_ne hn.root hn2 rfl h.tab₂ (by simp)
  have h3 : t₁ ≠ t₂ := hw.table_ne hn1 hn2 h.tab₁ h.tab₂ (by simp)
  exact ⟨fun e => h1 (slot_inj.mp e).1, fun e => h2 (slot_inj.mp e).1,
    fun e => h3 (slot_inj.mp e).1⟩

/-- No upper entry is one of a last-level table. -/
theorem Path.slots_ne_last {v' : Vpn} {u' : Nat} (hn : F.Node r v.path) (hn' : F.Node r v'.path)
    (hu' : tab s r v'.path = some u') (j : Fin 512) :
    slot r v.1 ≠ slot u' j ∧ slot t₁ v.2.1 ≠ slot u' j ∧ slot t₂ v.2.2.1 ≠ slot u' j := by
  have h1 : r ≠ u' := hw.table_ne hn.root hn' rfl hu' (by simp [Vpn.path])
  have h2 : t₁ ≠ u' := hw.table_ne (Layout.Node.path₁ hn) hn' h.tab₁ hu' (by simp [Vpn.path])
  have h3 : t₂ ≠ u' := hw.table_ne (Layout.Node.path₂ hn) hn' h.tab₂ hu' (by simp [Vpn.path])
  exact ⟨fun e => h1 (slot_inj.mp e).1, fun e => h2 (slot_inj.mp e).1,
    fun e => h3 (slot_inj.mp e).1⟩

theorem Path.slots_ne_leaf (hn : F.Node r v.path) (j : Fin 512) :
    slot r v.1 ≠ slot u j ∧ slot t₁ v.2.1 ≠ slot u j ∧ slot t₂ v.2.2.1 ≠ slot u j :=
  h.slots_ne_last hw hn hn h.tab₃ j

/-- What the rewritten entries hold. -/
theorem Path.upper_mem (hn : F.Node r v.path) (w₁ w₂ w₃ : Word) :
    (s.upper r v t₁ t₂ w₁ w₂ w₃).mem (slot r v.1) = w₁ ∧
      (s.upper r v t₁ t₂ w₁ w₂ w₃).mem (slot t₁ v.2.1) = w₂ ∧
      (s.upper r v t₁ t₂ w₁ w₂ w₃).mem (slot t₂ v.2.2.1) = w₃ := by
  obtain ⟨n1, n2, n3⟩ := h.slots_ne hw hn
  refine ⟨?_, ?_, setWord_self ..⟩
  · rw [upper, setWord_of_ne n2, setWord_of_ne n1, setWord_self]
  · rw [upper, setWord_of_ne n3, setWord_self]

end

/-- **Rewriting the upper entries is part of the growth**, if they point where they did. -/
theorem Grown.upper (h : Grown F s s' new L') (hn : F.Node r v.path) (hp : Path s' r v t₁ t₂ u)
    (h1 : dec w₁ = some t₁) (h2 : dec w₂ = some t₂) (h3 : dec w₃ = some u) :
    Grown F s (s'.upper r v t₁ t₂ w₁ w₂ w₃) new L' ∧
      Path (s'.upper r v t₁ t₂ w₁ w₂ w₃) r v t₁ t₂ u := by
  obtain ⟨n1, n2, n3⟩ := hp.slots_ne h.wf hn
  obtain ⟨m₁, m₂, m3⟩ := hp.upper_mem h.wf hn w₁ w₂ w₃
  refine ⟨?_, by rw [m₁]; exact h1, by rw [m₂]; exact h2, by rw [m3]; exact h3⟩
  have d1 : dec w₁ = dec (s'.mem (slot r v.1)) := by rw [h1, hp.pml4e]
  have g1 := h.setEntry (π := []) (Layout.Node.path₁ hn) rfl d1 (by rw [hp.pml4e]; simp)
  have e2 : (s'.setWord (slot r v.1) w₁).mem (slot t₁ v.2.1) = s'.mem (slot t₁ v.2.1) :=
    setWord_of_ne n1.symm
  have t1' : tab (s'.setWord (slot r v.1) w₁) r [v.1] = some t₁ :=
    (Wf.tab_setEntry d1 r _).trans hp.tab₁
  have d2 : dec w₂ = dec ((s'.setWord (slot r v.1) w₁).mem (slot t₁ v.2.1)) := by
    rw [e2, h2, hp.pdpe]
  have g2 := g1.setEntry (Layout.Node.path₂ hn) t1' d2 (by rw [e2, hp.pdpe]; simp)
  have e3 : ((s'.setWord (slot r v.1) w₁).setWord (slot t₁ v.2.1) w₂).mem (slot t₂ v.2.2.1) =
      s'.mem (slot t₂ v.2.2.1) := by
    rw [setWord_of_ne n3.symm, setWord_of_ne n2.symm]
  have t2' : tab ((s'.setWord (slot r v.1) w₁).setWord (slot t₁ v.2.1) w₂) r [v.1, v.2.1] =
      some t₂ :=
    (Wf.tab_setEntry d2 r _).trans ((Wf.tab_setEntry d1 r _).trans hp.tab₂)
  exact g2.setEntry (π := [v.1, v.2.1]) hn t2' (by rw [e3, h3, hp.pde]) (by rw [e3, hp.pde]; simp)

/-- Adding flags to three entries adds them to any entry, or leaves it. -/
theorem upper_or (s : Pmap) (r : Nat) (v : Vpn) (t₁ t₂ : Nat) (g : Word) (a : Nat) :
    let m := (s.upper r v t₁ t₂ (s.mem (slot r v.1) ||| g) (s.mem (slot t₁ v.2.1) ||| g)
      (s.mem (slot t₂ v.2.2.1) ||| g)).mem a
    m = s.mem a ∨ m = s.mem a ||| g := by
  intro m
  by_cases h3 : a = slot t₂ v.2.2.1
  · subst h3
    exact .inr (setWord_self ..)
  by_cases h2 : a = slot t₁ v.2.1
  · subst h2
    exact .inr ((setWord_of_ne h3).trans (setWord_self ..))
  by_cases h1 : a = slot r v.1
  · subst h1
    exact .inr ((setWord_of_ne h3).trans ((setWord_of_ne h2).trans (setWord_self ..)))
  · exact .inl ((setWord_of_ne h3).trans ((setWord_of_ne h2).trans (setWord_of_ne h1)))

/-! ### The two ways the upper entries are rewritten -/

variable {va gpa : Word}

theorem Path.lt (h : Path s r v t₁ t₂ u) (hw : Wf F s L) (hn : F.Node r v.path) :
    r < s.npages ∧ t₁ < s.npages ∧ t₂ < s.npages ∧ u < s.npages :=
  ⟨hw.tab_lt hn.root rfl, hw.tab_lt (Layout.Node.path₁ hn) h.tab₁,
    hw.tab_lt (Layout.Node.path₂ hn) h.tab₂, hw.tab_lt hn h.tab₃⟩

/-- Following a present entry. -/
theorem kaddr_dec {e : Word} {t : Nat} (h : dec e = some t) (hlt : t < s.npages) :
    (kaddr (pteAddr e)).run s = .ok (t * 512, s) := by
  rw [pteAddr_of_dec h]
  exact kaddr_page2pa hlt

/-- The upper entries with the permissions `g` added. -/
theorem orUpper_run {g : Word} (hw : Wf F s L) (hn : F.Node r (vpn va).path)
    (hp : Path s r (vpn va) t₁ t₂ u) (hd : ∀ e t, dec e = some t → dec (e ||| g) = some t) :
    (orUpper (r * 512) va g).run s = .ok ((), s.upper r (vpn va) t₁ t₂
      (s.mem (slot r (pml4 va)) ||| g) (s.mem (slot t₁ (pdpe va)) ||| g)
      (s.mem (slot t₂ (pdx va)) ||| g)) := by
  obtain ⟨n1, n2, n3⟩ := hp.slots_ne hw hn
  obtain ⟨hr, ht1, ht2, -⟩ := hp.lt hw hn
  obtain ⟨d1, d2, d3⟩ := hp
  simp only [vpn] at n1 n2 n3 d1 d2 d3
  have e2 : (s.setWord (slot r (pml4 va)) (s.mem (slot r (pml4 va)) ||| g)).mem
      (slot t₁ (pdpe va)) = s.mem (slot t₁ (pdpe va)) := setWord_of_ne n1.symm
  generalize hs1 : s.setWord (slot r (pml4 va)) (s.mem (slot r (pml4 va)) ||| g) = s1 at e2
  have e3 : (s1.setWord (slot t₁ (pdpe va)) (s.mem (slot t₁ (pdpe va)) ||| g)).mem
      (slot t₂ (pdx va)) = s.mem (slot t₂ (pdx va)) := by
    rw [setWord_of_ne n3.symm, ← hs1, setWord_of_ne n2.symm]
  generalize hs2 : s1.setWord (slot t₁ (pdpe va)) (s.mem (slot t₁ (pdpe va)) ||| g) = s2 at e3
  have np1 : s1.npages = s.npages := by rw [← hs1, setWord_npages]
  have np2 : s2.npages = s.npages := by rw [← hs2, setWord_npages, np1]
  have m₁ : s1.mem (slot r (pml4 va)) = s.mem (slot r (pml4 va)) ||| g := by
    rw [← hs1, setWord_self]
  have m₂ : s2.mem (slot t₁ (pdpe va)) = s.mem (slot t₁ (pdpe va)) ||| g := by
    rw [← hs2, setWord_self]
  simp only [orUpper]
  -- the root's entry, then the entry of each next table
  rw [bind_ok (load_entry hr _), bind_ok (store_entry hr _ _), hs1,
    bind_ok (load_entry (np1 ▸ hr) _), m₁, bind_ok (kaddr_dec (hd _ _ d1) (np1 ▸ ht1)),
    bind_ok (load_entry (np1 ▸ ht1) _), e2, bind_ok (store_entry (np1 ▸ ht1) _ _), hs2,
    bind_ok (load_entry (np2 ▸ ht1) _), m₂, bind_ok (kaddr_dec (hd _ _ d2) (np2 ▸ ht2)),
    bind_ok (load_entry (np2 ▸ ht2) _), e3, store_entry (np2 ▸ ht2) _ _, ← hs2, ← hs1]
  rfl

theorem dec_full {t : Nat} (ht : t < 2 ^ 52) : dec (page2pa t ||| epteFull) = some t := by
  rw [dec_eq_some]
  refine ⟨?_, ppn_page2pa_or ht (by decide)⟩
  rw [Ne, and_pteP_eq_zero, BitVec.getLsbD_or]
  simp [epteFull, epteRead, epteWrite, epteExec]

/-- `ept_lookup_gpa` gives the upper entries full permissions. -/
theorem eptUpper_run (hw : Wf F s L) (hn : F.Node r (vpn gpa).path)
    (hp : Path s r (vpn gpa) t₁ t₂ u) (h0 : pdpe gpa = 0) :
    (eptUpper (r * 512) gpa).run s = .ok ((), s.upper r (vpn gpa) t₁ t₂
      (page2pa t₁ ||| epteFull) (page2pa t₂ ||| epteFull) (page2pa u ||| epteFull)) := by
  obtain ⟨n1, n2, n3⟩ := hp.slots_ne hw hn
  obtain ⟨hr, ht1, ht2, -⟩ := hp.lt hw hn
  obtain ⟨d1, d2, d3⟩ := hp
  simp only [vpn] at n1 n2 n3 d1 d2 d3
  have hdbl : t₁ * 512 + (pdpe gpa : Nat) + (pdpe gpa : Nat) = t₁ * 512 + (pdpe gpa : Nat) := by
    omega
  have e2 : (s.setWord (slot r (pml4 gpa)) (page2pa t₁ ||| epteFull)).mem
      (slot t₁ (pdpe gpa)) = s.mem (slot t₁ (pdpe gpa)) := setWord_of_ne n1.symm
  generalize hs1 : s.setWord (slot r (pml4 gpa)) (page2pa t₁ ||| epteFull) = s1 at e2
  have e3 : (s1.setWord (slot t₁ (pdpe gpa)) (page2pa t₂ ||| epteFull)).mem
      (slot t₂ (pdx gpa)) = s.mem (slot t₂ (pdx gpa)) := by
    rw [setWord_of_ne n3.symm, ← hs1, setWord_of_ne n2.symm]
  generalize hs2 : s1.setWord (slot t₁ (pdpe gpa)) (page2pa t₂ ||| epteFull) = s2 at e3
  have np1 : s1.npages = s.npages := by rw [← hs1, setWord_npages]
  have np2 : s2.npages = s.npages := by rw [← hs2, setWord_npages, np1]
  simp only [eptUpper]
  rw [bind_ok (load_entry hr _), bind_ok (kaddr_dec d1 ht1)]
  simp only [hdbl]
  rw [bind_ok (load_entry ht1 _), bind_ok (kaddr_dec d2 ht2),
    bind_ok (load_entry hr _), pteAddr_of_dec d1, bind_ok (store_entry hr _ _), hs1,
    bind_ok (load_entry (np1 ▸ ht1) _), e2, pteAddr_of_dec d2,
    bind_ok (store_entry (np1 ▸ ht1) _ _), hs2, bind_ok (load_entry (np2 ▸ ht2) _), e3,
    pteAddr_of_dec d3, store_entry (np2 ▸ ht2) _ _, ← hs2, ← hs1]
  rfl

end JosVmm
