import JosVmm.Pmap.Hardware
import JosVmm.Machine.Boot

/-!
# Boot — building the kernel's map

`x64_vm_init` calls `boot_map_region` for one region after another, so what it does to the root table
is a list of rounds, each for one page (`KernelImage.mappings`).  The entry of a page is that of the
last round for it (`mapOf`), and the tables that the rounds need are those on the paths of their pages
(`tableNodes`).

* `bootMapPage_run` — one round; upper entries only gain flags;
* `BootInv.rounds` — any list of rounds, if there are as many free pages as it needs tables;
* `x64VmInit_run` — the whole of `x64_vm_init`.
-/

namespace JosVmm
open Support Support.Radix Support.Prog Function List

/-! ### The rounds of `boot_map_region` -/

/-- A round of `boot_map_region`. -/
structure BootMapping where
  va : Word
  pa : Word
  perm : BitVec 32

namespace BootMapping

/-- The flags that a round adds to the upper entries. -/
def flags (x : BootMapping) : Word := x.perm.signExtend 64 ||| pteP

/-- The last-level entry that a round writes. -/
def leaf (x : BootMapping) : Word := pteAddr x.pa ||| x.perm.signExtend 64 ||| pteP

end BootMapping

/-- The rounds of one call. -/
def regionOf (la size pa : Word) (perm : BitVec 32) : List BootMapping :=
  (List.range ((size.toNat + (pgsize - 1)) / pgsize)).map fun k =>
    ⟨la + BitVec.ofNat 64 (k * pgsize), pa + BitVec.ofNat 64 (k * pgsize), perm⟩

theorem bootMapRegion_eq (tbl : Ptr) (la size pa : Word) (perm : BitVec 32) :
    bootMapRegion tbl la size pa perm =
      (regionOf la size pa perm).forM fun x => bootMapPage tbl x.va x.pa x.perm := by
  rw [regionOf, forM_eq_forM, forM_map]
  rfl

/-- What the rounds leave at a page: the entry of the last of them. -/
def mapOf (l : List BootMapping) (v : Vpn) : Option Word :=
  (l.reverse.find? fun x => vpn x.va = v).map BootMapping.leaf

/-- The tables that the pages need, by their paths from the root. -/
def tableNodes (l : List BootMapping) : Finset (List (Fin 512)) :=
  (l.flatMap fun x => [[pml4 x.va], [pml4 x.va, pdpe x.va], (vpn x.va).path]).toFinset

variable {s s' : Pmap} {L L₀ : List Nat} {r t₁ t₂ u : Nat} {v : Vpn} {x : BootMapping}
  {l done : List BootMapping}

theorem mapOf_snoc : mapOf (done ++ [x]) = update (mapOf done) (vpn x.va) (some x.leaf) := by
  funext v
  rw [mapOf, reverse_append]
  by_cases h : v = vpn x.va
  · subst h
    simp
  · rw [update_of_ne h, mapOf]
    simp [Ne.symm h]

theorem tableNodes_append : tableNodes (done ++ l) = tableNodes done ∪ tableNodes l := by
  rw [tableNodes, flatMap_append, toFinset_append]
  rfl

theorem mem_tableNodes {ρ : List (Fin 512)} :
    ρ ∈ tableNodes l ↔ ∃ x ∈ l, ρ ≠ [] ∧ ρ <+: (vpn x.va).path := by
  rw [tableNodes, mem_toFinset, mem_flatMap]
  refine exists_congr fun x => and_congr_right fun _ => ?_
  rw [vpn_path]
  constructor
  · intro h
    simp only [mem_cons, not_mem_nil, or_false] at h
    rcases h with rfl | rfl | rfl
    · exact ⟨by simp, ⟨_, rfl⟩⟩
    · exact ⟨by simp, ⟨_, rfl⟩⟩
    · exact ⟨by simp, prefix_refl _⟩
  · rintro ⟨hne, hρ⟩
    rcases ρ with _ | ⟨a, _ | ⟨b, _ | ⟨c, ρ⟩⟩⟩
    · exact absurd rfl hne
    · simp_all [cons_prefix_cons]
    · simp_all [cons_prefix_cons]
    · simp_all [cons_prefix_cons]

/-! ### One round -/

/-- The whole tree of a root. -/
abbrev whole (r : Nat) : Layout 512 := single (fun _ => True) r

theorem whole_node {π : List (Fin 512)} (h : π.length ≤ 3) : (whole r).Node r π :=
  ⟨Finset.mem_singleton_self r, h, fun _ _ => trivial⟩

/-- What a round does to the state `s` with the free list `L`. -/
structure BootStep (r : Nat) (x : BootMapping) (s : Pmap) (L : List Nat) (s' : Pmap)
    (L' : List Nat) : Prop where
  wf : Wf (whole r) s' L'
  npages : s'.npages = s.npages
  length : L.length = missing dec s.mem r (vpn x.va).path + L'.length
  view : view rawReading (whole r) s' r =
    update (view rawReading (whole r) s r) (vpn x.va) (some x.leaf)
  old : ∀ π t, π.length ≤ 3 → tab s r π = some t → tab s' r π = some t
  path : ∃ t₁ t₂ u, Path s' r (vpn x.va) t₁ t₂ u ∧
    s'.mem (slot r (pml4 x.va)) &&& x.flags = x.flags ∧
    s'.mem (slot t₁ (pdpe x.va)) &&& x.flags = x.flags ∧
    s'.mem (slot t₂ (pdx x.va)) &&& x.flags = x.flags
  /-- Upper entries only gain flags. -/
  upper : ∀ π t (i : Fin 512), π.length ≤ 2 → tab s r π = some t → dec (s.mem (slot t i)) ≠ none →
    s'.mem (slot t i) = s.mem (slot t i) ∨ s'.mem (slot t i) = s.mem (slot t i) ||| x.flags

theorem leaf_present (x : BootMapping) : x.leaf &&& pteP ≠ 0 := by
  rw [BootMapping.leaf, or_and_self_right]
  decide

/-- The physical page of the entry that a round writes. -/
theorem BootMapping.pteAddr_leaf (hflags : x.flags.toNat < 4096) :
    pteAddr x.leaf = pteAddr x.pa := by
  rw [BootMapping.leaf, BitVec.or_assoc]
  exact (pteAddr_eq_of_ppn (ppn_or hflags)).trans (pteAddr_eq_of_ppn (ppn_pteAddr _))

/-- **One round of `boot_map_region`**, if there are pages for the tables that it needs. -/
theorem bootMapPage_run (h : Wf (whole r) s L) (hflags : x.flags.toNat < 4096)
    (hroom : missing dec s.mem r (vpn x.va).path ≤ L.length) :
    ∃ s' L', (bootMapPage (r * 512) x.va x.pa x.perm).run s = .ok ((), s') ∧
      BootStep r x s L s' L' := by
  have hn : (whole r).Node r (vpn x.va).path := whole_node (Nat.le_refl 3)
  obtain ⟨s1, new, L', u, rfl, hlen, hwalk, hg, hu⟩ := (pml4eWalk_create h hn).1 hroom
  have hkeep := pml4eWalk_keeps _ _ _ _ _ _ h.toFreeList hwalk
  -- the last-level entry is written
  have hstore : (store (slot u (ptx x.va)) x.leaf).run s1 =
      .ok ((), s1.setWord (slot u (ptx x.va)) x.leaf) := store_run (hg.wf.slot_lt hn hu _) _
  have hw2 : Wf (whole r) (s1.setWord (slot u (ptx x.va)) x.leaf) L' := hg.wf.setLeaf hn rfl hu _ _
  have hv2 : JosVmm.view rawReading (whole r) (s1.setWord (slot u (ptx x.va)) x.leaf) r =
      update (JosVmm.view rawReading (whole r) s r) (vpn x.va) (some x.leaf) := by
    have hread : rawReading.read r x.leaf = some x.leaf := if_neg (leaf_present x)
    rw [← hg.view h (Finset.mem_singleton_self r), ← hread]
    exact hg.wf.view_setLeaf hn hu x.leaf
  have ht2 : ∀ π, π.length ≤ 3 → tab (s1.setWord (slot u (ptx x.va)) x.leaf) r π = tab s1 r π :=
    fun π hπ => hg.wf.tab_setLeaf hn rfl hu _ _ (whole_node hπ)
  have hword2 : ∀ π t (i : Fin 512), π.length ≤ 2 → tab s1 r π = some t →
      (s1.setWord (slot u (ptx x.va)) x.leaf).mem (slot t i) = s1.mem (slot t i) := by
    intro π t i hπ ht
    refine Pmap.setWord_of_ne fun e => ?_
    refine hg.wf.table_ne (whole_node (by omega)) hn ht hu (fun hc => ?_) (slot_inj.mp e).1
    rw [hc, Vpn.path_length] at hπ
    omega
  generalize hs2 : s1.setWord (slot u (ptx x.va)) x.leaf = s2 at hstore hw2 hv2 ht2 hword2
  -- and the flags are added to the upper ones
  obtain ⟨t₁, t₂, hp⟩ := tab_path_iff.mp ((ht2 (vpn x.va).path (Nat.le_refl 3)).trans hu)
  have hor := orUpper_run hw2 hn hp fun e t he => dec_or hflags he
  obtain ⟨hg3, hp3⟩ := (Grown.refl hw2).upper hn hp (dec_or hflags hp.pml4e)
    (dec_or hflags hp.pdpe) (dec_or hflags hp.pde)
  obtain ⟨m₁, m₂, m3⟩ := hp.upper_mem hw2 hn (s2.mem (slot r (pml4 x.va)) ||| x.flags)
    (s2.mem (slot t₁ (pdpe x.va)) ||| x.flags) (s2.mem (slot t₂ (pdx x.va)) ||| x.flags)
  refine ⟨_, L', ?_, hg3.wf, ?_, by rw [length_append, hlen], ?_, ?_, ⟨t₁, t₂, u, hp3, ?_⟩, ?_⟩
  · rw [bootMapPage, bind_ok hwalk]
    show StateT.run (do store (slot u (ptx x.va)) x.leaf; orUpper (r * 512) x.va x.flags) s1 = _
    rw [bind_ok hstore]
    exact hor
  · rw [hg3.npages, ← hs2]
    exact hg.npages
  · rw [hg3.view hw2 (Finset.mem_singleton_self r), hv2]
  · intro π t hπ ht
    refine hg3.old r π t (whole_node hπ) ?_
    rw [ht2 π hπ]
    exact hg.old r π t (whole_node hπ) ht
  · exact ⟨(congrArg (· &&& x.flags) m₁).trans (or_and_self_right ..),
      (congrArg (· &&& x.flags) m₂).trans (or_and_self_right ..),
      (congrArg (· &&& x.flags) m3).trans (or_and_self_right ..)⟩
  · intro π t i hπ ht hpres
    have hnot : slot t i / 512 ∉ new ++ L' := by
      rw [slot_div]
      exact h.table_not_free t ⟨r, π, whole_node (by omega), ht⟩
    have e : s2.mem (slot t i) = s.mem (slot t i) :=
      (hword2 π t i hπ (hg.old r π t (whole_node (by omega)) ht)).trans (hkeep _ hnot hpres)
    rw [← e]
    exact upper_or s2 r (vpn x.va) t₁ t₂ x.flags (slot t i)

/-! ### All rounds -/

/-- The upper entries of `v` are there, and open to the user. -/
def UserPath (s : Pmap) (r : Nat) (v : Vpn) : Prop :=
  ∃ t₁ t₂ u, Path s r v t₁ t₂ u ∧ s.mem (slot r v.1) &&& pteU ≠ 0 ∧
    s.mem (slot t₁ v.2.1) &&& pteU ≠ 0 ∧ s.mem (slot t₂ v.2.2.1) &&& pteU ≠ 0

theorem or_and_ne_zero {a c : Word} (b : Word) (h : a &&& c ≠ 0) : (a ||| b) &&& c ≠ 0 := by
  intro h0
  refine h ?_
  calc a &&& c = (a &&& c) &&& ((a ||| b) &&& c) := by
        refine BitVec.eq_of_getLsbD_eq fun i _ => ?_
        simp only [BitVec.getLsbD_and, BitVec.getLsbD_or]
        cases a.getLsbD i <;> cases b.getLsbD i <;> cases c.getLsbD i <;> rfl
    _ = 0 := by
        rw [h0]
        exact BitVec.and_zero

theorem and_ne_zero_of_sub {a g c : Word} (h : a &&& g = g) (hg : g &&& c ≠ 0) : a &&& c ≠ 0 := by
  intro h0
  refine hg ?_
  rw [← h, BitVec.and_comm a g, BitVec.and_assoc, h0]
  exact BitVec.and_zero

variable {N : Nat}

namespace BootStep

variable {L' : List Nat}

/-- An upper entry is followed as before, and keeps its flags. -/
theorem entry (h : BootStep r x s L s' L') (hflags : x.flags.toNat < 4096) {π : List (Fin 512)}
    {t c : Nat} {i : Fin 512} (hπ : π.length ≤ 2) (ht : tab s r π = some t)
    (hd : dec (s.mem (slot t i)) = some c) : dec (s'.mem (slot t i)) = some c ∧
      (s.mem (slot t i) &&& pteU ≠ 0 → s'.mem (slot t i) &&& pteU ≠ 0) := by
  rcases h.upper π t i hπ ht (by simp [hd]) with e | e
  · rw [e]
    exact ⟨hd, id⟩
  · rw [e]
    exact ⟨dec_or hflags hd, or_and_ne_zero _⟩

theorem userPath (h : BootStep r x s L s' L') (hflags : x.flags.toNat < 4096)
    (hv : UserPath s r v) : UserPath s' r v := by
  obtain ⟨t₁, t₂, u, hp, h1, h2, h3⟩ := hv
  obtain ⟨d1, b1⟩ := h.entry hflags (π := []) (by simp) rfl hp.pml4e
  obtain ⟨d2, b2⟩ := h.entry hflags (π := [v.1]) (by simp) hp.tab₁ hp.pdpe
  obtain ⟨d3, b3⟩ := h.entry hflags (π := [v.1, v.2.1]) (by simp) hp.tab₂ hp.pde
  exact ⟨t₁, t₂, u, ⟨d1, d2, d3⟩, b1 h1, b2 h2, b3 h3⟩

end BootStep

/-- What the rounds `done` leave, with `N` free pages before the first of them. -/
structure BootInv (r N : Nat) (done : List BootMapping) (s : Pmap) (L : List Nat) : Prop where
  wf : Wf (whole r) s L
  room : N ≤ L.length + (tableNodes done).card
  tables : ∀ ρ ∈ tableNodes done, tab s r ρ ≠ none
  view : view rawReading (whole r) s r = mapOf done
  user : ∀ x ∈ done, x.flags &&& pteU ≠ 0 → UserPath s r (vpn x.va)

/-- The tables that a round lacks are among those that all the rounds so far need. -/
theorem BootInv.missing_le (h : BootInv r N done s L) (x : BootMapping) :
    (tableNodes done).card + missing dec s.mem r (vpn x.va).path ≤
      (tableNodes (done ++ [x])).card := by
  obtain ⟨ks, hnd, hlen, hks⟩ := @missing_prefixes _ _ dec s.mem r (vpn x.va).path
  have hdisj : Disjoint (tableNodes done) ks.toFinset := by
    rw [Finset.disjoint_left]
    intro ρ hρ hk
    exact h.tables ρ hρ (hks ρ (List.mem_toFinset.mp hk)).2
  have hsub : ks.toFinset ⊆ tableNodes [x] := by
    intro ρ hk
    obtain ⟨hpre, hnone⟩ := hks ρ (List.mem_toFinset.mp hk)
    refine mem_tableNodes.mpr ⟨x, mem_singleton_self x, ?_, hpre⟩
    rintro rfl
    cases hnone
  rw [← hlen, ← toFinset_card_of_nodup hnd, ← Finset.card_union_of_disjoint hdisj,
    tableNodes_append]
  exact Finset.card_le_card (Finset.union_subset_union_right hsub)

/-- **One more round.** -/
theorem BootInv.round (h : BootInv r N done s L) (hflags : x.flags.toNat < 4096)
    (hroom : (tableNodes (done ++ [x])).card ≤ N) :
    ∃ s' L', (bootMapPage (r * 512) x.va x.pa x.perm).run s = .ok ((), s') ∧
      s'.npages = s.npages ∧ BootInv r N (done ++ [x]) s' L' := by
  have hmiss := h.missing_le x
  have hN := h.room
  obtain ⟨s', L', hrun, hstep⟩ := bootMapPage_run h.wf hflags (by omega)
  have hlen := hstep.length
  obtain ⟨t₁, t₂, u, hp, f1, f2, f3⟩ := hstep.path
  refine ⟨s', L', hrun, hstep.npages, hstep.wf, by omega, fun ρ hρ => ?_, ?_, fun y hy hu => ?_⟩
  · rw [tableNodes_append, Finset.mem_union] at hρ
    rcases hρ with hρ | hρ
    · obtain ⟨y, -, -, hpre⟩ := mem_tableNodes.mp hρ
      obtain ⟨t, ht⟩ := Option.ne_none_iff_exists'.mp (h.tables ρ hρ)
      rw [hstep.old ρ t hpre.length_le ht]
      simp
    · obtain ⟨y, hy, -, hpre⟩ := mem_tableNodes.mp hρ
      obtain rfl := List.mem_singleton.mp hy
      obtain ⟨c, hc⟩ := tableAt_prefix hp.tab₃ hpre
      rw [tab, hc]
      simp
  · rw [hstep.view, h.view, mapOf_snoc]
  · rcases List.mem_append.mp hy with hy | hy
    · exact hstep.userPath hflags (h.user y hy hu)
    · obtain rfl := List.mem_singleton.mp hy
      exact ⟨t₁, t₂, u, hp, and_ne_zero_of_sub f1 hu, and_ne_zero_of_sub f2 hu,
        and_ne_zero_of_sub f3 hu⟩

/-- **All the rounds of a list.** -/
theorem BootInv.rounds : ∀ {l done : List BootMapping} {s : Pmap} {L : List Nat},
    BootInv r N done s L → (∀ x ∈ l, x.flags.toNat < 4096) →
    (tableNodes (done ++ l)).card ≤ N →
    ∃ s' L', (l.forM fun x => bootMapPage (r * 512) x.va x.pa x.perm).run s = .ok ((), s') ∧
      s'.npages = s.npages ∧ BootInv r N (done ++ l) s' L'
  | [], done, s, L, h, _, _ => ⟨s, L, rfl, rfl, by rwa [append_nil]⟩
  | x :: l, done, s, L, h, hflags, hroom => by
    have happ : done ++ x :: l = done ++ [x] ++ l := by simp
    rw [happ] at hroom ⊢
    have hx : (tableNodes (done ++ [x])).card ≤ (tableNodes (done ++ [x] ++ l)).card := by
      rw [tableNodes_append (l := l)]
      exact Finset.card_le_card Finset.subset_union_left
    obtain ⟨s1, L1, hrun, hnp, h1⟩ := h.round (hflags x (mem_cons_self ..)) (hx.trans hroom)
    obtain ⟨s', L', hrest, hnp', h'⟩ := BootInv.rounds h1
      (fun y hy => hflags y (mem_cons_of_mem x hy)) hroom
    refine ⟨s', L', ?_, hnp'.trans hnp, h'⟩
    rw [forM_eq_forM, forM_cons, bind_ok hrun]
    exact hrest

/-! ### Before the map is built -/

/-- The kernel address of page `p`. -/
def kva (p : Nat) : Word := kernbase + page2pa p

theorem kva_toNat {p : Nat} (hp : p < 2 ^ 40) : (kva p).toNat = 0x8004000000 + p * 4096 := by
  rw [kva, BitVec.toNat_add, page2pa_toNat (by omega), kernbase]
  simp only [BitVec.toNat_ofNat, Nat.reducePow, Nat.reduceMod]
  omega

theorem kva_sub (p : Nat) : kva p - kernbase = page2pa p := by
  rw [kva, BitVec.add_comm, BitVec.add_sub_cancel]

theorem paddrOf_run {a : Word} (h : kernbase ≤ a) : (paddrOf a).run s = .ok (a - kernbase, s) := by
  rw [paddrOf, if_neg (BitVec.not_lt.mpr h)]
  rfl

theorem kernbase_le_kva {p : Nat} (hp : p < 2 ^ 40) : kernbase ≤ kva p := by
  rw [BitVec.le_def, kva_toNat hp]
  exact Nat.le_add_right _ _

theorem paddrOf_kva {p : Nat} (hp : p < 2 ^ 40) : (paddrOf (kva p)).run s = .ok (page2pa p, s) := by
  rw [paddrOf_run (kernbase_le_kva hp), kva_sub]

theorem kptr_kva {p : Nat} (hp : p < 2 ^ 40) : kptr (kva p) = p * 512 := by
  rw [kptr, kva_sub, page2pa_toNat (by omega), Nat.mul_div_assoc p (show 8 ∣ 4096 by decide)]

/-- Pages that hold `n` bytes. -/
def pagesFor (n : Nat) : Nat := (n + 4095) / 4096

theorem roundUpPg_toNat {a : Word} (ha : a.toNat + 4095 < 2 ^ 64) :
    (roundUpPg a).toNat = pagesFor a.toNat * 4096 := by
  have hval : (a + 4096#64 - 1#64).toNat = a.toNat + 4095 := by
    rw [BitVec.toNat_sub, BitVec.toNat_add]
    simp only [BitVec.toNat_ofNat, Nat.reducePow, Nat.reduceMod]
    omega
  rw [roundUpPg, roundDownPg_toNat, hval, pagesFor]
  omega

/-- **An allocation that fits.** -/
theorem bootAlloc_run {endDebug nextfree : Word} {n : BitVec 32} {p : Nat}
    (hnext : (if nextfree = 0 then roundUpPg endDebug else nextfree) = kva p)
    (hfit : p * 4096 + n.toNat ≤ s.npages * 4096) :
    (bootAlloc endDebug nextfree n).run s = .ok ((kva p, kva (p + pagesFor n.toNat)), s) := by
  have hnp := s.npages_le
  simp only [maxNpages] at hnp
  have hp : p < 2 ^ 40 := by omega
  have hsum : (kva p + n.setWidth 64).toNat = 0x8004000000 + p * 4096 + n.toNat := by
    rw [BitVec.toNat_add, kva_toNat hp, BitVec.toNat_setWidth]
    omega
  have hlim : (BitVec.ofNat 64 s.npages * 4096#64 + kernbase).toNat =
      s.npages * 4096 + 0x8004000000 := by
    rw [BitVec.toNat_add, BitVec.toNat_mul, kernbase]
    simp only [BitVec.toNat_ofNat, Nat.reducePow, Nat.reduceMod]
    omega
  have hok : ¬ (kva p + n.setWidth 64 < kva p ∨
      BitVec.ofNat 64 s.npages * 4096#64 + kernbase < kva p + n.setWidth 64) := by
    rw [BitVec.lt_def, BitVec.lt_def, hsum, hlim, kva_toNat hp]
    omega
  have hround : roundUpPg (kva p + n.setWidth 64) = kva (p + pagesFor n.toNat) := by
    refine BitVec.eq_of_toNat_eq ?_
    rw [roundUpPg_toNat (by rw [hsum]; omega), hsum, kva_toNat (by rw [pagesFor]; omega), pagesFor,
      pagesFor]
    omega
  simp only [bootAlloc, hnext]
  rw [bind_get, if_neg hok, hround]
  rfl

theorem kva_ne_zero {p : Nat} (hp : p < 2 ^ 40) : kva p ≠ 0 := by
  intro h
  have hz := congrArg BitVec.toNat h
  rw [kva_toNat hp] at hz
  simp at hz

/-- The pages of memory are the free ones, after `page_init`. -/
theorem pageInit_freeList {b : BootInfo} (href : ∀ p, s.ppRef p = 0#16)
    (hlink : ∀ p, s.ppLink p = none) (hfree : s.pageFreeList = none) :
    FreeList (pageInit b s) (b.free s.npages) ∧ (pageInit b s).mem = s.mem ∧
      (pageInit b s).npages = s.npages := by
  obtain ⟨last, h⟩ := pageInit_spec (b := b) href hlink hfree
  refine ⟨⟨h.chain, h.unlinked, fun p hp => ?_, fun p hp => ?_⟩, h.mem, h.npages⟩
  · rw [h.npages]
    exact (BootInfo.mem_free.mp hp).1
  · rw [h.ref p, if_neg]
    intro hc
    rw [(BootInfo.mem_free.mp hp).2] at hc
    exact absurd hc.2 (by decide)

/-! ### The whole of `x64_vm_init` -/

namespace KernelImage

variable (k : KernelImage) (n : Nat)

/-- The first page that `boot_alloc` hands out: the root table's. -/
def firstPage : Nat := ppn (roundUpPg k.endDebug - kernbase)

/-- The first page of `pages`, and of `envs`. -/
def pagesPage : Nat := k.firstPage + 1
def envsPage : Nat := k.pagesPage + pagesFor (n * 16)

/-- The first page past what `boot_alloc` hands out, on a machine of `n` pages. -/
def bootEnd : Nat := k.envsPage n + pagesFor sizeofEnvs.toNat

def bootVars : BootVars := ⟨kva k.firstPage, kva k.pagesPage, kva (k.envsPage n)⟩

/-- What `page_init` reads. -/
def bootInfo (npagesBasemem : Nat) : BootInfo := ⟨npagesBasemem, k.bootEnd n, k.pml4phys⟩

/-- The rounds of `mem_init_mp` for CPU `i`. -/
def stackMappings (i : Nat) : List BootMapping :=
  regionOf (kstacktopOf i - kstksize) kstksize (k.kstack i - kernbase) 3#32

/-- All rounds of `boot_map_region`, in their order. -/
def mappings : List BootMapping :=
  regionOf upages (BitVec.ofNat 64 n * sizeofPageInfo) (page2pa k.pagesPage) 4#32 ++
    regionOf uenvs (roundUpPg sizeofEnvs) (page2pa (k.envsPage n)) 5#32 ++
    regionOf (kstacktop - kstksize) kstksize (k.bootstack - kernbase) 3#32 ++
    regionOf kernbase (BitVec.ofNat 64 n * 4096#64) 0 3#32 ++
    (List.range ncpu).flatMap k.stackMappings

theorem roundUpPg_endDebug : roundUpPg k.endDebug = kva k.firstPage := by
  have halign : (roundUpPg k.endDebug - kernbase).toNat % 4096 = 0 := by
    rw [roundUpPg, roundDownPg, BitVec.toNat_sub, BitVec.toNat_sub, BitVec.toNat_umod, kernbase]
    simp only [BitVec.toNat_ofNat, Nat.reducePow, Nat.reduceMod]
    omega
  have hpa : page2pa k.firstPage = roundUpPg k.endDebug - kernbase := by
    rw [firstPage, page2pa_ppn]
    refine BitVec.eq_of_toNat_eq ?_
    rw [pteAddr_toNat]
    omega
  rw [kva, hpa, BitVec.add_comm, BitVec.sub_add_cancel]

end KernelImage

theorem regionOf_flags {la size pa : Word} {perm : BitVec 32}
    (hperm : (perm.signExtend 64 ||| pteP).toNat < 4096) :
    ∀ x ∈ regionOf la size pa perm, x.flags.toNat < 4096 := by
  intro x hx
  obtain ⟨j, -, rfl⟩ := List.mem_map.mp hx
  exact hperm

/-- The rounds of one call of `boot_map_region`, after others. -/
theorem BootInv.region (h : BootInv r N done s L) {la size pa : Word} {perm : BitVec 32}
    (hperm : (perm.signExtend 64 ||| pteP).toNat < 4096)
    (hroom : (tableNodes (done ++ regionOf la size pa perm)).card ≤ N) :
    ∃ s' L', (bootMapRegion (r * 512) la size pa perm).run s = .ok ((), s') ∧
      s'.npages = s.npages ∧ BootInv r N (done ++ regionOf la size pa perm) s' L' := by
  rw [bootMapRegion_eq]
  exact h.rounds (regionOf_flags hperm) hroom

theorem tableNodes_mono (done l : List BootMapping) :
    (tableNodes done).card ≤ (tableNodes (done ++ l)).card := by
  rw [tableNodes_append]
  exact Finset.card_le_card Finset.subset_union_left

variable {k : KernelImage}

theorem KernelImage.kernbase_le_kstack (k : KernelImage) {i : Nat} (hi : i < ncpu) :
    kernbase ≤ k.kstack i := by
  have hle := k.percpuKstacks_le
  have hend := k.percpuKstacks_end
  rw [BitVec.le_def] at hle ⊢
  rw [KernelImage.kstack, BitVec.toNat_add, BitVec.toNat_mul]
  simp only [kstksize, ncpu, BitVec.toNat_mul, BitVec.toNat_ofNat, Nat.reducePow, Nat.reduceMod,
    Nat.reduceMul] at *
  omega

/-- The stacks of the CPUs. -/
theorem BootInv.stacks : ∀ {is : List Nat} {done : List BootMapping} {s : Pmap} {L : List Nat},
    BootInv r N done s L → (∀ i ∈ is, i < ncpu) →
    (tableNodes (done ++ is.flatMap k.stackMappings)).card ≤ N →
    ∃ s' L', (is.forM fun i => do
        bootMapRegion (r * 512) (kstacktopOf i - kstksize) kstksize (← paddrOf (k.kstack i)) 3#32).run
          s = .ok ((), s') ∧
      s'.npages = s.npages ∧ BootInv r N (done ++ is.flatMap k.stackMappings) s' L'
  | [], done, s, L, h, _, _ => ⟨s, L, rfl, rfl, by simpa using h⟩
  | i :: is, done, s, L, h, hi, hroom => by
    rw [flatMap_cons, ← append_assoc] at hroom ⊢
    obtain ⟨s1, L1, hrun, hnp, h1⟩ := h.region (by decide) ((tableNodes_mono _ _).trans hroom)
    obtain ⟨s', L', hrest, hnp', h'⟩ := BootInv.stacks h1
      (fun j hj => hi j (mem_cons_of_mem i hj)) hroom
    refine ⟨s', L', ?_, hnp'.trans hnp, h'⟩
    rw [forM_eq_forM, forM_cons, bind_assoc,
      bind_ok (paddrOf_run (k.kernbase_le_kstack (hi i (mem_cons_self ..)))), bind_ok hrun]
    exact hrest

/-- A zeroed root table, before the first round. -/
theorem BootInv.start (hL : FreeList s L) (hr : r < s.npages) (hnf : r ∉ L)
    (hz : ∀ i : Fin 512, s.mem (slot r i) = 0) : BootInv r L.length [] s L where
  wf := Wf.zeroed hL hr hnf hz
  room := Nat.le_add_right _ _
  tables ρ hρ := by
    obtain ⟨x, hx, -⟩ := mem_tableNodes.mp hρ
    cases hx
  view := by
    funext v
    refine view_of_none ?_
    rw [tab, Vpn.path, tableAt, hz, dec_zero]
    rfl
  user x hx := by cases hx

/-- `memset(a, 0, n)` as a function. -/
def Pmap.zeroWords (s : Pmap) (a : Word) (n : Nat) : Pmap :=
  s.withMem fun w => if kptr a ≤ w ∧ w < kptr a + n / 8 then 0 else s.mem w

theorem memsetZero_run (a : Word) (n : Nat) : (memsetZero a n).run s = .ok ((), s.zeroWords a n) :=
  rfl

namespace KernelImage

/-- The root table, `pages` and `envs` are cleared. -/
def cleared (k : KernelImage) (s : Pmap) : Pmap :=
  Pmap.zeroWords { s.zeroWords (kva k.firstPage) pgsize with
    ppRef := fun _ => 0
    ppLink := fun _ => none } (kva (k.envsPage s.npages)) sizeofEnvs.toNat

/-- The free pages are listed, and the map can be built. -/
def ready (k : KernelImage) (npagesBasemem : Nat) (s : Pmap) : Pmap :=
  pageInit (k.bootInfo s.npages npagesBasemem) (k.cleared s)

end KernelImage

variable {npagesBasemem : Nat}

/-- The free list, and the cleared root. -/
theorem KernelImage.start (hlist : s.pageFreeList = none) (hroom : k.bootEnd s.npages ≤ s.npages)
    (hsafe : k.firstPage ∉ (k.bootInfo s.npages npagesBasemem).free s.npages) :
    BootInv k.firstPage ((k.bootInfo s.npages npagesBasemem).free s.npages).length []
      (k.ready npagesBasemem s) ((k.bootInfo s.npages npagesBasemem).free s.npages) ∧
    (k.ready npagesBasemem s).npages = s.npages := by
  have hnp := s.npages_le
  simp only [maxNpages] at hnp
  simp only [KernelImage.bootEnd, KernelImage.envsPage, KernelImage.pagesPage] at hroom
  obtain ⟨hfl, hmem, hn⟩ := pageInit_freeList (b := k.bootInfo s.npages npagesBasemem)
    (s := k.cleared s) (fun _ => rfl) (fun _ => rfl) hlist
  have hn : (k.ready npagesBasemem s).npages = s.npages := hn
  refine ⟨BootInv.start hfl (by rw [hn]; omega) hsafe fun i => ?_, hn⟩
  have hi := i.isLt
  rw [KernelImage.ready, hmem]
  simp only [KernelImage.cleared, Pmap.zeroWords, Pmap.withMem_mem]
  rw [kptr_kva (show k.firstPage < 2 ^ 40 by omega), slot, pgsize]
  split
  · rfl
  · exact if_pos ⟨Nat.le_add_right _ _, Nat.add_lt_add_left hi _⟩

theorem KernelImage.bootArrays_run (k : KernelImage) (npagesBasemem : Nat)
    (hroom : k.bootEnd s.npages ≤ s.npages) :
    (bootArrays k npagesBasemem).run s = .ok (k.bootVars s.npages, k.ready npagesBasemem s) := by
  have hnp := s.npages_le
  simp only [maxNpages] at hnp
  have hn32 : ((BitVec.ofNat 64 s.npages * sizeofPageInfo).setWidth 32).toNat = s.npages * 16 := by
    rw [BitVec.toNat_setWidth, BitVec.toNat_mul, sizeofPageInfo]
    simp only [BitVec.toNat_ofNat, Nat.reducePow, Nat.reduceMod]
    omega
  have hsz : (sizeofEnvs.setWidth 32 : BitVec 32).toNat = 90 * 4096 := by decide
  have hle : k.envsPage s.npages + 90 ≤ s.npages := hroom
  have henvs : k.envsPage s.npages = k.firstPage + 1 + (s.npages * 16 + 4095) / 4096 := rfl
  have hp0 : k.firstPage < 2 ^ 40 := by omega
  have hp1 : k.pagesPage < 2 ^ 40 := by rw [KernelImage.pagesPage]; omega
  have hp2 : k.envsPage s.npages < 2 ^ 40 := by omega
  have hp3 : k.bootEnd s.npages < 2 ^ 40 := by omega
  -- the root table, `pages`, `envs`, and nothing
  have alloc0 : (bootAlloc k.endDebug 0 4096#32).run s =
      .ok ((kva k.firstPage, kva k.pagesPage), s) :=
    bootAlloc_run (by rw [if_pos rfl, k.roundUpPg_endDebug]) (by
      rw [show (4096#32).toNat = 4096 from rfl]
      omega)
  have alloc1 : ∀ u : Pmap, u.npages = s.npages → (bootAlloc k.endDebug (kva k.pagesPage)
      ((BitVec.ofNat 64 s.npages * sizeofPageInfo).setWidth 32)).run u =
        .ok ((kva k.pagesPage, kva (k.envsPage s.npages)), u) := by
    intro u hu
    rw [bootAlloc_run (p := k.pagesPage) (if_neg (kva_ne_zero hp1)), hn32]
    · rfl
    · rw [hn32, hu, KernelImage.pagesPage]
      omega
  have alloc2 : ∀ u : Pmap, u.npages = s.npages →
      (bootAlloc k.endDebug (kva (k.envsPage s.npages)) (sizeofEnvs.setWidth 32)).run u =
        .ok ((kva (k.envsPage s.npages), kva (k.bootEnd s.npages)), u) := fun u hu =>
    bootAlloc_run (if_neg (kva_ne_zero hp2)) (by rw [hsz, hu]; omega)
  have alloc3 : (bootAlloc k.endDebug (kva (k.bootEnd s.npages)) 0).run (k.cleared s) =
      .ok ((kva (k.bootEnd s.npages), kva (k.bootEnd s.npages)), k.cleared s) :=
    bootAlloc_run (if_neg (kva_ne_zero hp3)) (by
      show k.bootEnd s.npages * 4096 + 0 ≤ s.npages * 4096
      omega)
  rw [bootArrays, bind_get]
  rw [bind_ok alloc0]
  rw [bind_ok (memsetZero_run _ _), bind_ok (paddrOf_kva hp0),
    bind_ok (alloc1 (s.zeroWords (kva k.firstPage) pgsize) rfl)]
  rw [bind_modify,
    bind_ok (alloc2 { s.zeroWords (kva k.firstPage) pgsize with
      ppRef := fun _ => 0
      ppLink := fun _ => none } rfl)]
  rw [bind_ok (show StateT.run (memsetZero _ _) _ = .ok ((), k.cleared s) from rfl), bind_ok alloc3]
  rw [bind_ok (paddrOf_kva hp3), ppn_page2pa (Nat.lt_trans hp3 (by decide))]
  rfl

/-- **`x64_vm_init` returns**, if `boot_alloc` has room and there are free pages for the tables; and
its rounds are all carried out. -/
theorem x64VmInit_run (npagesBasemem : Nat) (hlist : s.pageFreeList = none)
    (hroom : k.bootEnd s.npages ≤ s.npages)
    (hsafe : k.firstPage ∉ (k.bootInfo s.npages npagesBasemem).free s.npages)
    (henough : (tableNodes (k.mappings s.npages)).card ≤
      ((k.bootInfo s.npages npagesBasemem).free s.npages).length) :
    ∃ s' L', (x64VmInit k npagesBasemem).run s = .ok (k.bootVars s.npages, s') ∧
      s'.npages = s.npages ∧ BootInv k.firstPage
        ((k.bootInfo s.npages npagesBasemem).free s.npages).length (k.mappings s.npages) s' L' := by
  obtain ⟨h0, hnp0⟩ := KernelImage.start hlist hroom hsafe
  have hnp := s.npages_le
  simp only [maxNpages] at hnp
  have hle : k.firstPage + 1 + pagesFor (s.npages * 16) + 90 ≤ s.npages := hroom
  -- the regions, one after the other
  have hroom4 := henough
  have hroom3 := (tableNodes_mono _ _).trans hroom4
  have hroom2 := (tableNodes_mono _ _).trans hroom3
  have hroom1 := (tableNodes_mono _ _).trans hroom2
  have hroom0 := (tableNodes_mono _ _).trans hroom1
  obtain ⟨s1, L1, run1, np1, h1⟩ := h0.region (by decide) hroom0
  obtain ⟨s2, L2, run2, np2, h2⟩ := h1.region (by decide) hroom1
  obtain ⟨s3, L3, run3, np3, h3⟩ := h2.region (by decide) hroom2
  obtain ⟨s4, L4, run4, np4, h4⟩ := h3.region (by decide) hroom3
  obtain ⟨s5, L5, run5, np5, h5⟩ := h4.stacks (fun i hi => List.mem_range.mp hi) hroom4
  have hp0 : k.firstPage < 2 ^ 40 := by omega
  have hp1 : k.pagesPage < 2 ^ 40 := by rw [KernelImage.pagesPage]; omega
  have hp2 : k.envsPage s.npages < 2 ^ 40 := by
    rw [KernelImage.envsPage, KernelImage.pagesPage]
    omega
  refine ⟨s5, L5, ?_, by rw [np5, np4, np3, np2, np1, hnp0], h5⟩
  rw [x64VmInit, bind_ok (k.bootArrays_run npagesBasemem hroom), bootMaps]
  simp only [bind_assoc]
  rw [bind_get, hnp0]
  dsimp only [KernelImage.bootVars]
  rw [bind_ok (paddrOf_kva hp1), kptr_kva hp0, bind_ok run1, bind_ok (paddrOf_kva hp2),
    bind_ok run2, bind_ok (paddrOf_run k.bootstack_le), bind_ok run3,
    bind_ok run4, bind_ok (show (memInitMp k (k.firstPage * 512)).run s4 = _ from run5)]
  -- the table that is read back at the end is there
  have hmem : (⟨uenvs + BitVec.ofNat 64 (0 * pgsize), page2pa (k.envsPage s.npages) +
      BitVec.ofNat 64 (0 * pgsize), 5#32⟩ : BootMapping) ∈ k.mappings s.npages := by
    simp only [KernelImage.mappings, mem_append]
    exact .inl (.inl (.inl (.inr (List.mem_map.mpr ⟨0, List.mem_range.mpr (by decide), rfl⟩))))
  obtain ⟨t₁, t₂, u, hp, -⟩ := h5.user _ hmem
    (show ((5#32).signExtend 64 ||| pteP) &&& pteU ≠ 0 by decide)
  have hv : vpn (uenvs + BitVec.ofNat 64 (0 * pgsize)) = (1, 0, 4, 0) := by decide
  rw [hv] at hp
  obtain ⟨hr, ht1, ht2, -⟩ := hp.lt h5.wf (whole_node (Nat.le_refl 3))
  have hload : (load (k.firstPage * 512 + 1)).run s5 = .ok (s5.mem (slot k.firstPage 1), s5) :=
    load_entry hr 1
  have hload' : (load (t₁ * 512)).run s5 = .ok (s5.mem (slot t₁ 0), s5) :=
    (congrArg (fun a => (load a).run s5) (Nat.add_zero _).symm).trans (load_entry ht1 0)
  rw [bind_ok hload, bind_ok (kaddr_dec (show dec (s5.mem (slot _ 1)) = _ from hp.pml4e) ht1),
    bind_ok hload', bind_ok (kaddr_dec (show dec (s5.mem (slot _ 0)) = _ from hp.pdpe) ht2)]
  rfl

end JosVmm
