import JosVmm.Machine.Envs
import JosVmm.Pmap.Sweep

/-!
# Environments — what `env_free` flushes

The three loops of `env_free` over the tables of an environment.  They take down the pages of
addresses with `PDPE` below 4, `PDX` below 511 (below 4 in the last directory) and `PTX` below 511
(`SweptPage`), and the tables on the way to them (`SweptTable`).  In the end nothing is left below
the root, and the counts have lost the references of these pages and tables, and of no others
(`flushUser_spec`).
-/

namespace JosVmm
open Support Support.Radix Support.Prog Support.Counting

variable {A : Finset Nat} {s₀ s : Pmap} {r t c : Nat} {d e : Fin 512}

/-- `pdeno_limit`: `PDX(UTOP)` for the last directory, `PDX(0xFFFFFFFF)` for the others. -/
def pdenoLimit (pdpeno : Nat) : Nat := if pdpeno = 3 then 4 else 511

/-- The pages of addresses that `env_free` removes. -/
def SweptPage (v : Vpn) : Prop :=
  v.2.1.val < 4 ∧ v.2.2.1.val < pdenoLimit v.2.1 ∧ v.last.val < 511

/-- The tables that `env_free` releases, the root apart. -/
def SweptTable : List (Fin 512) → Prop
  | [_] => True
  | [_, d] => d.val < 4
  | [_, d, e] => d.val < 4 ∧ e.val < pdenoLimit d
  | _ => False

/-- The references given up so far. -/
abbrev Flushing (A : Finset Nat) (r : Nat) (s₀ s : Pmap) : Prop :=
  Sweep SweptPage SweptTable hostReading (single (· = 0) r) A r s₀ s

/-- Entries below `ρ` are gone. -/
abbrev Flushed (r : Nat) (ρ : List (Fin 512)) (s s' : Pmap) : Prop :=
  Trimmed hostReading (single (· = 0) r) r ρ s s'

/-- What is mapped in the tree of `r`. -/
noncomputable abbrev mapping (s : Pmap) (r : Nat) : Vpn → Option Nat :=
  view hostReading (single (· = 0) r) s r

theorem user_path (r : Nat) (d e : Fin 512) : (single (· = 0) r).Node r [0, d, e] :=
  single_node (v := (0, d, e, 0)) rfl

theorem user_dir (r : Nat) (d : Fin 512) : (single (· = 0) r).Node r [0, d] :=
  (user_path r d 0).of_append (σ := [0])

theorem user_pdpt (r : Nat) : (single (· = 0) r).Node r [0] :=
  (user_dir r 0).of_append (σ := [0])

/-- The address `PGADDR(0, pdpe_index, pdeno, pteno, 0)`. -/
theorem vpn_pgaddr (d e i : Fin 512) :
    vpn (BitVec.ofNat 64 (d * 2 ^ 30 + e * 2 ^ 21 + i * 2 ^ 12)) = (0, d, e, i) := by
  have hd := d.isLt
  have he := e.isLt
  have hi := i.isLt
  simp only [vpn, Prod.mk.injEq, pml4, pdpe, pdx, ptx, Fin.ext_iff, field_val, BitVec.toNat_ofNat]
  refine ⟨?_, ?_, ?_, ?_⟩
  · show _ = 0
    omega
  · omega
  · omega
  · omega

theorem Sweep.table_lt {π : List (Fin 512)} (h : Flushing A r s₀ s)
    (hn : (single (· = 0) r).Node r π) (ht : tab s r π = some t) : t < s.npages := by
  obtain ⟨extra, L, hA⟩ := h.acct
  exact hA.tab_lt hn ht

/-- A table is still there when the entries below one of its own are gone. -/
theorem Sweep.child {u : Pmap} {π : List (Fin 512)} {i : Fin 512} (h : Flushing A r s₀ s)
    (hu : Flushing A r s₀ u) (htrim : Flushed r (π ++ [i]) s u)
    (hn : (single (· = 0) r).Node r (π ++ [i])) (ht : tab s r π = some t)
    (hc : dec (s.mem (slot t i)) = some c) :
    tab u r π = some t ∧ dec (u.mem (slot t i)) = some c ∧ u.npages = s.npages := by
  have hne : ¬ π ++ [i] <+: π := fun hp => absurd hp.length_le (by simp)
  have htu : tab u r π = some t := (htrim.kept hn.of_append fun hp => absurd hp hne).trans ht
  have hcs : tab s r (π ++ [i]) = some c := (tableAt_snoc_of ht i).trans hc
  have hcu : tab u r (π ++ [i]) = some c := (htrim.kept hn fun _ => rfl).trans hcs
  exact ⟨htu, (tableAt_snoc_of htu i).symm.trans hcu, hu.npages.trans h.npages.symm⟩

/-- **A loop over the entries of a table**: if each round empties its entry, and what is empty stays
so, then all of them are empty in the end. -/
theorem Sweep.loop {π : List (Fin 512)} {m : Nat} {body : Nat → Pm Unit}
    {g : Fin 512 → Pmap → Prop} (h : Flushing A r s₀ s) (hm : m ≤ 512)
    (hn : (single (· = 0) r).Node r π) (ht : tab s r π = some t)
    (hkeep : ∀ i u u', Flushed r π u u' → g i u → g i u')
    (hround : ∀ (i : Fin 512) u, i.val < m → Flushing A r s₀ u → tab u r π = some t →
      ∃ u', (body i).run u = .ok ((), u') ∧ Flushing A r s₀ u' ∧ Flushed r π u u' ∧ g i u') :
    ∃ s', ((List.range m).forM body).run s = .ok ((), s') ∧ Flushing A r s₀ s' ∧
      Flushed r π s s' ∧ ∀ i : Fin 512, i.val < m → g i s' := by
  -- the entries below `n` are empty after `n` rounds
  let I : Nat → Pmap → Prop := fun n u => Flushing A r s₀ u ∧ Flushed r π s u ∧
    ∀ i : Fin 512, i.val < n → g i u
  have hstep : ∀ n u, 0 ≤ n → n < 0 + m → I n u →
      ∃ u', (body n).run u = .ok ((), u') ∧ I (n + 1) u' := by
    rintro n u - hn' ⟨hu, htrim, hdone⟩
    rw [Nat.zero_add] at hn'
    have ht' : tab u r π = some t := (htrim.kept hn fun _ => rfl).trans ht
    obtain ⟨u', hrun, hu', htrim', hnone⟩ := hround ⟨n, hn'.trans_le hm⟩ u hn' hu ht'
    refine ⟨u', hrun, hu', htrim.trans htrim', fun i hi => ?_⟩
    rcases Nat.lt_succ_iff_lt_or_eq.mp hi with hi | hi
    · exact hkeep i u u' htrim' (hdone i hi)
    · obtain rfl : i = ⟨n, hn'.trans_le hm⟩ := Fin.ext hi
      exact hnone
  obtain ⟨s', hrun, h', htrim, hnone⟩ := forM_range'_run hstep
    ⟨h, .refl s, fun i hi => absurd hi (Nat.not_lt_zero _)⟩
  refine ⟨s', ?_, h', htrim, fun i hi => hnone i (by omega)⟩
  rw [List.range_eq_range']
  exact hrun

/-! ### One page table -/

section

variable (h : Flushing A r s₀ s) (hd : d.val < 4) (he : e.val < pdenoLimit d)
  (ht : tab s r [0, d, e] = some t)
include h hd he ht

/-- One round of the inner loop. -/
theorem Sweep.flushPage (i : Fin 512) (hi : i.val < 511) :
    ∃ s', (do
        if (← load (t * 512 + i)) &&& pteP ≠ 0 then
          pageRemove (some (r * 512))
            (BitVec.ofNat 64 (d * 2 ^ 30 + e * 2 ^ 21 + i * 2 ^ 12)) : Pm Unit).run s =
          .ok ((), s') ∧ Flushing A r s₀ s' ∧ Flushed r [0, d, e] s s' ∧
        mapping s' r (0, d, e, i) = none := by
  have hv : mapping s r (0, d, e, i) = dec (s.mem (slot t i)) :=
    view_of_tab (v := (0, d, e, i)) (user_path r d e) ht
  rw [bind_ok (load_entry (h.table_lt (user_path r d e) ht) i)]
  cases hc : dec (s.mem (slot t i)) with
  | none =>
    rw [if_neg (not_not.mpr (dec_eq_none.mp hc))]
    exact ⟨s, rfl, h, .refl s, hv.trans hc⟩
  | some q =>
    rw [if_pos (dec_eq_some.mp hc).1]
    have hn : (single (· = 0) r).Node r
        (vpn (BitVec.ofNat 64 (d * 2 ^ 30 + e * 2 ^ 21 + i * 2 ^ 12))).path := by
      rw [vpn_pgaddr]
      exact user_path r d e
    obtain ⟨s', hrun, h', htrim, hnone⟩ := h.remove hn rfl (by
      rw [vpn_pgaddr]
      exact ⟨hd, he, hi⟩)
    rw [vpn_pgaddr] at htrim hnone
    exact ⟨s', hrun, h', htrim, hnone⟩

/-- **The loop over one page table.** -/
theorem Sweep.flushTable :
    ∃ s', (flushTable (r * 512) (t * 512) d e).run s = .ok ((), s') ∧ Flushing A r s₀ s' ∧
      Flushed r [0, d, e] s s' ∧
      ∀ i : Fin 512, i.val < 511 → mapping s' r (0, d, e, i) = none :=
  h.loop (by decide) (user_path r d e) ht (fun _ _ _ htrim => htrim.unmapped)
    fun i _ hi hu ht' => hu.flushPage hd he ht' i hi

end

/-! ### One page directory -/

theorem pdenoLimit_le (d : Nat) : pdenoLimit d ≤ 512 := by
  rw [pdenoLimit]
  split <;> omega

theorem pa2page_dec {e : Word} (h : dec e = some c) (hlt : c < s.npages) :
    (pa2page (pteAddr e)).run s = .ok (c, s) := by
  have hc : ppn (pteAddr e) = c := by rw [ppn_pteAddr, (dec_eq_some.mp h).2]
  rw [pa2page_run (hc ▸ hlt), hc]

/-- One round of the loop over a directory. -/
theorem Sweep.flushPde (h : Flushing A r s₀ s) (hd : d.val < 4) (he : e.val < pdenoLimit d)
    (ht : tab s r [0, d] = some t) :
    ∃ s', (do
        let pde ← load (t * 512 + e)
        if pde &&& pteP ≠ 0 then
          JosVmm.flushTable (r * 512) (← kaddr (pteAddr pde)) d e
          store (t * 512 + e) 0
          pageDecref (← pa2page (pteAddr pde)) : Pm Unit).run s = .ok ((), s') ∧
        Flushing A r s₀ s' ∧ Flushed r [0, d] s s' ∧ tab s' r [0, d, e] = none := by
  have htab : tab s r [0, d, e] = dec (s.mem (slot t e)) := tableAt_snoc_of (π := [0, d]) ht e
  have hlt := h.table_lt (user_dir r d) ht
  rw [bind_ok (load_entry hlt e)]
  cases hc : dec (s.mem (slot t e)) with
  | none =>
    rw [if_neg (not_not.mpr (dec_eq_none.mp hc))]
    exact ⟨s, rfl, h, .refl s, htab.trans hc⟩
  | some c =>
    have hclt := h.table_lt (user_path r d e) (htab.trans hc)
    rw [if_pos (dec_eq_some.mp hc).1, bind_ok (kaddr_dec hc hclt)]
    obtain ⟨u, hrun, hu, htrim, hnone⟩ := h.flushTable hd he (htab.trans hc)
    obtain ⟨htu, hcu, hnp⟩ := h.child (π := [0, d]) hu htrim (user_path r d e) ht hc
    have hleaf : ∀ v : Vpn, [0, d] ++ [e] <+: v.path → SweptPage v → mapping u r v = none := by
      rintro ⟨a, b, f, i⟩ hv hS
      obtain ⟨rfl, rfl, rfl⟩ : 0 = a ∧ d = b ∧ e = f := by simpa [Vpn.path] using hv
      exact hnone i hS.2.2
    obtain ⟨hcut, htrim', hgone⟩ := hu.cut (π := [0, d]) (i := e) (user_path r d e) htu hcu
      ⟨hd, he⟩ hleaf (fun σ hσ hT => by
        cases σ with
        | nil => exact absurd rfl hσ
        | cons j σ => cases hT)
    refine ⟨_, ?_, hcut, (htrim.mono ⟨[e], rfl⟩).trans htrim', hgone⟩
    rw [bind_ok hrun, bind_ok (store_entry (hnp ▸ hlt) e 0)]
    have hpage : (pa2page (pteAddr (s.mem (slot t e)))).run (u.setWord (slot t e) 0) =
        .ok (c, u.setWord (slot t e) 0) := pa2page_dec hc (hnp ▸ hclt)
    rw [bind_ok hpage, pageDecref_run]

/-- **The loop over one directory.** -/
theorem Sweep.flushDir (h : Flushing A r s₀ s) (hd : d.val < 4) (ht : tab s r [0, d] = some t) :
    ∃ s', (flushDir (r * 512) (t * 512) d).run s = .ok ((), s') ∧ Flushing A r s₀ s' ∧
      Flushed r [0, d] s s' ∧
      ∀ e : Fin 512, e.val < pdenoLimit d → tab s' r [0, d, e] = none :=
  h.loop (pdenoLimit_le d) (user_dir r d) ht
    (fun e _ _ htrim => htrim.gone (user_path r d e)) fun _ _ he hu ht' => hu.flushPde hd he ht'

/-! ### The address space -/

/-- One round of the loop over the first four directories. -/
theorem Sweep.flushPdpe (h : Flushing A r s₀ s) (hd : d.val < 4) (ht : tab s r [0] = some t) :
    ∃ s', (do
        let pdpe ← load (t * 512 + d)
        if pdpe &&& pteP ≠ 0 then
          JosVmm.flushDir (r * 512) (← kaddr (pteAddr pdpe)) d
          let pa := pteAddr (← load (t * 512 + d))
          store (t * 512 + d) 0
          pageDecref (← pa2page pa) : Pm Unit).run s = .ok ((), s') ∧
        Flushing A r s₀ s' ∧ Flushed r [0] s s' ∧ tab s' r [0, d] = none := by
  have htab : tab s r [0, d] = dec (s.mem (slot t d)) := tableAt_snoc_of (π := [0]) ht d
  have hlt := h.table_lt (user_pdpt r) ht
  rw [bind_ok (load_entry hlt d)]
  cases hc : dec (s.mem (slot t d)) with
  | none =>
    rw [if_neg (not_not.mpr (dec_eq_none.mp hc))]
    exact ⟨s, rfl, h, .refl s, htab.trans hc⟩
  | some c =>
    have hclt := h.table_lt (user_dir r d) (htab.trans hc)
    rw [if_pos (dec_eq_some.mp hc).1, bind_ok (kaddr_dec hc hclt)]
    obtain ⟨u, hrun, hu, htrim, hnone⟩ := h.flushDir hd (htab.trans hc)
    obtain ⟨htu, hcu, hnp⟩ := h.child (π := [0]) hu htrim (user_dir r d) ht hc
    have hleaf : ∀ v : Vpn, [0] ++ [d] <+: v.path → SweptPage v → mapping u r v = none := by
      rintro ⟨a, b, f, i⟩ hv hS
      obtain ⟨rfl, rfl⟩ : 0 = a ∧ d = b := by simpa [Vpn.path] using hv
      exact view_of_none (hnone f hS.2.1)
    obtain ⟨hcut, htrim', hgone⟩ := hu.cut (π := [0]) (i := d) (user_dir r d) htu hcu
      hd hleaf (fun σ hσ hT => by
        rcases σ with _ | ⟨e, _ | _⟩
        · exact absurd rfl hσ
        · exact hnone e hT.2
        · cases hT)
    refine ⟨_, ?_, hcut, (htrim.mono ⟨[d], rfl⟩).trans htrim', hgone⟩
    rw [bind_ok hrun, bind_ok (load_entry (hnp ▸ hlt) d)]
    dsimp only
    rw [bind_ok (store_entry (hnp ▸ hlt) d 0)]
    have hpage : (pa2page (pteAddr (u.mem (slot t d)))).run (u.setWord (slot t d) 0) =
        .ok (c, u.setWord (slot t d) 0) := pa2page_dec hcu (hnp ▸ hclt)
    rw [bind_ok hpage, pageDecref_run]

/-- **The address space of an environment is flushed**: nothing is left below its root. -/
theorem Sweep.flushUser (h : Flushing A r s₀ s) :
    ∃ s', (flushUser (r * 512)).run s = .ok ((), s') ∧ Flushing A r s₀ s' ∧
      tab s' r [0] = none := by
  have htab : tab s r [0] = dec (s.mem (slot r (0 : Fin 512))) := tableAt_snoc_of (π := []) rfl 0
  have hlt : r < s.npages := h.table_lt (user_pdpt r).root rfl
  have hz : slot r (0 : Fin 512) = r * 512 := Nat.add_zero _
  have hload : ∀ {u : Pmap}, u.npages = s.npages →
      (load (r * 512)).run u = .ok (u.mem (slot r (0 : Fin 512)), u) := fun hu => by
    rw [load_run (a := r * 512) (Nat.mul_lt_mul_of_pos_right (hu ▸ hlt) (by decide)), hz]
  have hstore : ∀ {u : Pmap}, u.npages = s.npages →
      (store (r * 512) 0).run u = .ok ((), u.setWord (slot r (0 : Fin 512)) 0) := fun hu => by
    rw [store_run (a := r * 512) (Nat.mul_lt_mul_of_pos_right (hu ▸ hlt) (by decide)), hz]
  rw [JosVmm.flushUser, bind_ok (hload rfl)]
  dsimp only
  cases hc : dec (s.mem (slot r (0 : Fin 512))) with
  | none =>
    -- the entry that is cleared is zero already
    obtain ⟨extra, L, hA⟩ := h.acct
    have hzero : s.mem (slot r (0 : Fin 512)) = 0 := hA.absent r [] 0 r (user_pdpt r) rfl hc
    have hsame : s.setWord (slot r (0 : Fin 512)) 0 = s := by
      rw [← hzero, Pmap.setWord, Function.update_eq_self]
    rw [if_neg (not_not.mpr (dec_eq_none.mp hc)), hstore rfl, hsame]
    exact ⟨s, rfl, h, htab.trans hc⟩
  | some t =>
    have htlt := h.table_lt (user_pdpt r) (htab.trans hc)
    rw [if_pos (dec_eq_some.mp hc).1, bind_ok (kaddr_dec hc htlt)]
    refine exists_run_bind (h.loop (g := fun d u => tab u r [0, d] = none) (by decide)
      (user_pdpt r) (htab.trans hc) (fun d _ _ htrim => htrim.gone (user_dir r d))
      fun _ _ hd hu ht' => hu.flushPdpe hd ht') ?_
    rintro u ⟨hu, htrim, hnone⟩
    obtain ⟨-, hcu, hnp⟩ := h.child (π := []) hu htrim (user_pdpt r) rfl hc
    have hbelow : ∀ d e : Fin 512, d.val < 4 → tab u r [0, d, e] = none := fun d e hd => by
      refine (tableAt_snoc r [0, d] e).trans ?_
      rw [show tableAt dec u.mem r [0, d] = none from hnone d hd, Option.bind_none]
    have hleaf : ∀ v : Vpn, [] ++ [0] <+: v.path → SweptPage v → mapping u r v = none := by
      rintro ⟨a, b, f, i⟩ hv hS
      obtain rfl : 0 = a := by simpa [Vpn.path] using hv
      exact view_of_none (hbelow b f hS.1)
    obtain ⟨hcut, -, hgone⟩ := hu.cut (π := []) (i := 0) (user_pdpt r) rfl hcu trivial hleaf
      (fun σ hσ hT => by
        rcases σ with _ | ⟨d, _ | ⟨e, _ | _⟩⟩
        · exact absurd rfl hσ
        · exact hnone d hT
        · exact hbelow d e hT.1
        · cases hT)
    refine ⟨_, ?_, hcut, hgone⟩
    rw [bind_ok (hload hnp), bind_ok (pa2page_dec hcu (hnp ▸ htlt)),
      bind_ok (pageDecref_run u t), hstore (Pmap.decref_npages.trans hnp), Pmap.decref_setWord]

end JosVmm
