import JosVmm.Boot.KernelSpace

/-!
# Boot — device memory

`mmio_map_region` hands out the range `[MMIOBASE, MMIOLIM)` from its start, a whole number of pages
at a time, and maps each reservation with `boot_map_region`.  A run of calls is kept in a list of
what they returned (`MmioRange`).  The range is that of one page table, so a run needs pages for its
tables once, and each later call only rewrites last-level entries (`rounds_same_path`).

The size is rounded up in 64 bits and the limit is compared after the addition, so a size near `2^64`
passes; and an entry holds a page number, so the offset of `pa` in its page is lost.
`mmioMapRegions_reserved` says that this is all that goes wrong.
-/

namespace JosVmm
open Support Support.Radix Support.Prog List BitVec

/-- `MMIOLIM`, `MMIOBASE`. -/
def mmiolim : Word := kstacktop - ptsize
def mmiobase : Word := mmiolim - ptsize

/-- `mmio_map_region(pa, size)`, with its variable `base` before and after; the permissions are
`PTE_P|PTE_W|PTE_PWT|PTE_PCD`. -/
def mmioMapRegion (pml4e : Ptr) (base pa size : Word) : Pm (Word × Word) := do
  let va := base
  let size := roundUpPg size
  let base := base + size
  if mmiolim ≤ base then
    throw .mmioLimit
  bootMapRegion pml4e va size pa 0x1B#32
  return (va, base)

/-- A call that has returned `va`. -/
structure MmioRange where
  va : Word
  pa : Word
  size : Word
  deriving DecidableEq

/-- One call after the other. -/
def mmioMapRegions (pml4e : Ptr) (base : Word) : List (Word × Word) → Pm (List MmioRange)
  | [] => pure []
  | (pa, size) :: calls => do
    let (va, base) ← mmioMapRegion pml4e base pa size
    return ⟨va, pa, size⟩ :: (← mmioMapRegions pml4e base calls)

namespace MmioRange

/-- The address `x` is in `[va, va + size)`. -/
def Covers (a : MmioRange) (x : Nat) : Prop :=
  a.va.toNat ≤ x ∧ x < a.va.toNat + a.size.toNat

/-- The address `va + i`. -/
def addr (a : MmioRange) (i : Nat) : Word := a.va + BitVec.ofNat 64 i

end MmioRange

/-- What the calls are for. -/
structure Reserved (r : Nat) (l : List MmioRange) (s : Pmap) : Prop where
  disjoint : l.Pairwise fun a b => ∀ x, ¬ (a.Covers x ∧ b.Covers x)
  inside : ∀ a ∈ l, ∀ x, a.Covers x → mmiobase.toNat ≤ x ∧ x < mmiolim.toNat
  maps : ∀ a ∈ l, ∀ i < a.size.toNat,
    s.translate r (a.addr i) = some (a.pa + BitVec.ofNat 64 i)

/-- The range is no longer than all of device memory, and starts at a page of physical memory. -/
def FitsMmio (c : Word × Word) : Prop :=
  c.2.toNat ≤ ptsize.toNat ∧ (c.2 = 0 ∨ c.1.toNat % 4096 = 0)

variable {s s' : Pmap} {L : List Nat} {r : Nat} {base base' pa size va : Word}
  {l : List MmioRange} {calls : List (Word × Word)}

/-! ### What a call returns -/

theorem mmioMapRegion_eq_ok :
    (mmioMapRegion (r * 512) base pa size).run s = .ok ((va, base'), s') ↔
      base + roundUpPg size < mmiolim ∧ va = base ∧ base' = base + roundUpPg size ∧
        (bootMapRegion (r * 512) base (roundUpPg size) pa 0x1B#32).run s = .ok ((), s') := by
  rw [mmioMapRegion]
  by_cases hlim : mmiolim ≤ base + roundUpPg size
  · rw [if_pos hlim]
    refine ⟨nofun, fun h => absurd h.1 (BitVec.not_lt.mpr hlim)⟩
  · rw [if_neg hlim]
    constructor
    · intro h
      obtain ⟨_, s1, hrun, h⟩ := bind_inv h
      cases h
      exact ⟨BitVec.not_le.mp hlim, rfl, rfl, hrun⟩
    · rintro ⟨-, rfl, rfl, hrun⟩
      exact bind_ok hrun

theorem roundUpPg_mod (a : Word) : (roundUpPg a).toNat % 4096 = 0 := by
  rw [roundUpPg, roundDownPg_toNat]
  omega

theorem add_roundUpPg_mod (hbase : base.toNat % 4096 = 0) (size : Word) :
    (base + roundUpPg size).toNat % 4096 = 0 := by
  have := roundUpPg_mod size
  rw [toNat_add]
  omega

/-- The calls return page addresses, whatever they are called with. -/
theorem mmioMapRegions_returned (hbase : base.toNat % 4096 = 0)
    (hrun : (mmioMapRegions (r * 512) base calls).run s = .ok (l, s')) :
    l.map (fun a => (a.pa, a.size)) = calls ∧ ∀ a ∈ l, a.va.toNat % 4096 = 0 := by
  induction calls generalizing base s l with
  | nil =>
    cases hrun
    exact ⟨rfl, nofun⟩
  | cons c calls ih =>
    obtain ⟨pa, size⟩ := c
    obtain ⟨⟨va, base1⟩, s1, hcall, hrest⟩ := bind_inv hrun
    obtain ⟨-, rfl, rfl, -⟩ := mmioMapRegion_eq_ok.mp hcall
    obtain ⟨l', s2, hl', hret⟩ := bind_inv hrest
    cases hret
    obtain ⟨hmap, hmod⟩ := ih (add_roundUpPg_mod hbase size) hl'
    refine ⟨by rw [map_cons, hmap], fun a ha => ?_⟩
    rcases List.mem_cons.mp ha with rfl | ha
    · exact hbase
    · exact hmod a ha

/-- A page address is only ever translated to one. -/
theorem translate_mod {w : Word} (hva : va.toNat % 4096 = 0) (h : s.translate r va = some w) :
    w.toNat % 4096 = 0 := by
  obtain ⟨e, -, rfl⟩ := Option.map_eq_some_iff.mp h
  rw [PtEntries.pa, toNat_add, pteAddr_toNat, pgoff_toNat, hva]
  omega

/-- What is reserved faithfully was asked for so. -/
theorem Reserved.fits (h : Reserved r l s') (hbase : base.toNat % 4096 = 0)
    (hrun : (mmioMapRegions (r * 512) base calls).run s = .ok (l, s')) :
    ∀ c ∈ calls, FitsMmio c := by
  obtain ⟨rfl, hmod⟩ := mmioMapRegions_returned hbase hrun
  intro c hc
  obtain ⟨a, ha, rfl⟩ := List.mem_map.mp hc
  by_cases hsize : a.size.toNat = 0
  · have hz : a.size = 0 := eq_of_toNat_eq hsize
    exact ⟨by rw [hsize]; exact Nat.zero_le _, .inl hz⟩
  · have hlo := h.inside a ha a.va.toNat ⟨Nat.le_refl _, by omega⟩
    have hhi := h.inside a ha (a.va.toNat + a.size.toNat - 1) ⟨by omega, by omega⟩
    have hspan : mmiolim.toNat = mmiobase.toNat + ptsize.toNat := by decide
    refine ⟨by dsimp only; omega, .inr ?_⟩
    have hmap := h.maps a ha 0 (by omega)
    rw [MmioRange.addr] at hmap
    simp only [BitVec.add_zero] at hmap
    exact translate_mod (hmod a ha) hmap

/-! ### The rounds of a call -/

theorem mmiobase_toNat : mmiobase.toNat = 0x8003c00000 := by decide

theorem mmiolim_toNat : mmiolim.toNat = 0x8003e00000 := by decide

theorem mmio_flags (va pa : Word) : (BootMapping.flags ⟨va, pa, 0x1B#32⟩).toNat < 4096 :=
  show ((0x1B#32).signExtend 64 ||| pteP).toNat < 4096 by decide

/-- The addresses of device memory share a page table. -/
theorem mmio_path (hlo : mmiobase.toNat ≤ va.toNat) (hhi : va.toNat < mmiolim.toNat) :
    (vpn va).path = (vpn mmiobase).path := by
  rw [mmiobase_toNat] at hlo
  rw [mmiolim_toNat] at hhi
  rw [vpn_path, vpn_path]
  simp only [List.cons.injEq, pml4, pdpe, pdx, Fin.ext_iff, field_val, mmiobase_toNat, and_true]
  omega

/-- Rounds below one page table: only the first of them needs pages. -/
theorem rounds_same_path (rounds : List BootMapping) {π : List (Fin 512)} (h : Wf (whole r) s L)
    (hroom : missing dec s.mem r π ≤ L.length) (hflags : ∀ x ∈ rounds, x.flags.toNat < 4096)
    (hπ : ∀ x ∈ rounds, (vpn x.va).path = π) :
    ∃ s' L', (rounds.forM fun x => bootMapPage (r * 512) x.va x.pa x.perm).run s = .ok ((), s') ∧
      Wf (whole r) s' L' ∧ missing dec s'.mem r π ≤ L'.length ∧
      ∀ v, view rawReading (whole r) s' r v =
        (mapOf rounds v).or (view rawReading (whole r) s r v) := by
  induction rounds generalizing s L with
  | nil => exact ⟨s, L, rfl, h, hroom, fun v => rfl⟩
  | cons x rounds ih =>
    have hx := hπ x (mem_cons_self ..)
    obtain ⟨s1, L1, hrun, hstep⟩ := bootMapPage_run h (hflags x (mem_cons_self ..))
      (by rw [hx]; exact hroom)
    have hroom1 : missing dec s1.mem r π ≤ L1.length := by
      obtain ⟨t₁, t₂, u, hp, -⟩ := hstep.path
      rw [← hx, missing_eq_zero hp.tab₃]
      exact Nat.zero_le _
    obtain ⟨s', L', hrest, hwf, hroom', hview⟩ := ih hstep.wf hroom1
      (fun y hy => hflags y (mem_cons_of_mem x hy))
      (fun y hy => hπ y (mem_cons_of_mem x hy))
    refine ⟨s', L', ?_, hwf, hroom', fun v => ?_⟩
    · rw [forM_eq_forM, forM_cons, bind_ok hrun]
      exact hrest
    · rw [hview, hstep.view, show x :: rounds = [x] ++ rounds from rfl, mapOf_append,
        Option.or_assoc]
      congr 1
      rw [show [x] = [] ++ [x] from rfl, mapOf_snoc]
      by_cases hv : v = vpn x.va
      · subst hv
        simp
      · simp [Function.update_of_ne hv, mapOf]

/-! ### A run of calls -/

/-- What a run of calls that ask for what they can get has done. -/
structure MmioInv (r : Nat) (base : Word) (l : List MmioRange) (s : Pmap) (L : List Nat) : Prop where
  wf : Wf (whole r) s L
  room : missing dec s.mem r (vpn mmiobase).path ≤ L.length
  base_mod : base.toNat % 4096 = 0
  base_ge : mmiobase.toNat ≤ base.toNat
  base_le : base.toNat ≤ mmiolim.toNat
  reserved : Reserved r l s
  below : ∀ a ∈ l, a.size ≠ 0 → a.va.toNat + a.size.toNat ≤ base.toNat

section

variable (hsize : size.toNat ≤ ptsize.toNat)
include hsize

/-- Sizes that fit are rounded up as they should be. -/
theorem roundUpPg_of_fits : (roundUpPg size).toNat = pagesFor size.toNat * 4096 := by
  have hpt : ptsize.toNat = 0x200000 := by decide
  exact roundUpPg_toNat (by omega)

/-- The rounds of a call are for its pages. -/
theorem mem_region {x : BootMapping} :
    x ∈ regionOf base (roundUpPg size) pa 0x1B#32 ↔ ∃ j < pagesFor size.toNat,
      x = ⟨base + BitVec.ofNat 64 (j * pgsize), pa + BitVec.ofNat 64 (j * pgsize), 0x1B#32⟩ := by
  have hcount : ((roundUpPg size).toNat + (pgsize - 1)) / pgsize = pagesFor size.toNat := by
    rw [roundUpPg_of_fits hsize, pgsize]
    omega
  rw [regionOf, hcount, mem_map]
  refine exists_congr fun j => ?_
  rw [mem_range, eq_comm (a := x)]

/-- The rounds of a call that stays below the limit are all below one page table. -/
theorem region_path {x : BootMapping} (hge : mmiobase.toNat ≤ base.toNat)
    (hlim : base.toNat + pagesFor size.toNat * 4096 < mmiolim.toNat)
    (hx : x ∈ regionOf base (roundUpPg size) pa 0x1B#32) :
    (vpn x.va).path = (vpn mmiobase).path := by
  obtain ⟨j, hj, rfl⟩ := (mem_region hsize).mp hx
  have hnum : (base + BitVec.ofNat 64 (j * pgsize)).toNat = base.toNat + j * 4096 := by
    rw [toNat_add, toNat_ofNat, pgsize]
    omega
  have hlt : j * 4096 < pagesFor size.toNat * 4096 := by omega
  exact mmio_path (by rw [hnum]; exact Nat.le_add_right_of_le hge)
    (by rw [hnum]; exact Nat.lt_trans (Nat.add_lt_add_left hlt _) hlim)

end

/-- The page of `base + i`, by the rounds of its call. -/
theorem mapOf_region {i : Nat} (hmod : base.toNat % 4096 = 0) (hlim : base.toNat ≤ mmiolim.toNat)
    (hsize : size.toNat ≤ ptsize.toNat) (hi : i < size.toNat) :
    mapOf (regionOf base (roundUpPg size) pa 0x1B#32) (vpn (base + BitVec.ofNat 64 i)) =
      some (BootMapping.leaf ⟨base, pa + BitVec.ofNat 64 (i / pgsize * pgsize), 0x1B#32⟩) := by
  have hpt : ptsize.toNat = 0x200000 := by decide
  rw [mmiolim_toNat] at hlim
  have hnum : ∀ j, j ≤ 0x200000 → (base + BitVec.ofNat 64 j).toNat = base.toNat + j := by
    intro j hj
    rw [toNat_add, toNat_ofNat]
    omega
  have hpage : ∀ j < pagesFor size.toNat,
      vpn (base + BitVec.ofNat 64 (j * pgsize)) = vpn (base + BitVec.ofNat 64 i) ↔
        j = i / pgsize := by
    intro j hj
    rw [pagesFor] at hj
    rw [pgsize, vpn_eq_iff (by rw [hnum _ (by omega)]; omega) (by rw [hnum _ (by omega)]; omega),
      hnum _ (by omega), hnum _ (by omega)]
    omega
  have hlt : i / pgsize < pagesFor size.toNat := by
    rw [pagesFor, pgsize]
    omega
  refine mapOf_eq_some ⟨_, (mem_region hsize).mpr ⟨i / pgsize, hlt, rfl⟩, (hpage _ hlt).mpr rfl⟩ ?_
  intro x hx hv
  obtain ⟨j, hj, rfl⟩ := (mem_region hsize).mp hx
  rw [(hpage j hj).mp hv]
  rfl

/-- Pages below the call's are not its. -/
theorem mapOf_region_none (hsize : size.toNat ≤ ptsize.toNat) (hlim : base.toNat ≤ mmiolim.toNat)
    (hmod : base.toNat % 4096 = 0) (hva : va.toNat < base.toNat) :
    mapOf (regionOf base (roundUpPg size) pa 0x1B#32) (vpn va) = none := by
  have hpt : ptsize.toNat = 0x200000 := by decide
  rw [mmiolim_toNat] at hlim
  refine mapOf_eq_none fun x hx hv => ?_
  obtain ⟨j, hj, rfl⟩ := (mem_region hsize).mp hx
  rw [pagesFor] at hj
  have hnum : (base + BitVec.ofNat 64 (j * pgsize)).toNat = base.toNat + j * 4096 := by
    rw [toNat_add, toNat_ofNat, pgsize]
    omega
  rw [vpn_eq_iff (by rw [hnum]; omega) (by omega), hnum] at hv
  omega

/-- The entry of a page gives the physical address, if that of the range is a page's. -/
theorem leaf_translate {i : Nat} (hbase : base.toNat % 4096 = 0) (hpa : pa.toNat % 4096 = 0) :
    pteAddr (BootMapping.leaf ⟨base, pa + BitVec.ofNat 64 (i / pgsize * pgsize), 0x1B#32⟩) +
      pgoff (base + BitVec.ofNat 64 i) = pa + BitVec.ofNat 64 i := by
  rw [BootMapping.pteAddr_leaf (mmio_flags _ _)]
  refine eq_of_toNat_eq ?_
  simp only [toNat_add, pteAddr_toNat, pgoff_toNat, toNat_ofNat, pgsize]
  omega

/-- **One more call.** -/
theorem MmioInv.call (h : MmioInv r base l s L) (hfits : FitsMmio (pa, size))
    (hlim : base + roundUpPg size < mmiolim) :
    ∃ s' L', (mmioMapRegion (r * 512) base pa size).run s =
        .ok ((base, base + roundUpPg size), s') ∧
      MmioInv r (base + roundUpPg size) (l ++ [⟨base, pa, size⟩]) s' L' := by
  obtain ⟨hsize, hpa⟩ := hfits
  have hpt : ptsize.toNat = 0x200000 := by decide
  dsimp only at hsize hpa
  have hge := h.base_ge
  have hle := h.base_le
  have hbm := h.base_mod
  have hround := roundUpPg_of_fits hsize
  have hnext : (base + roundUpPg size).toNat = base.toNat + pagesFor size.toNat * 4096 := by
    rw [pagesFor, mmiolim_toNat] at *
    rw [toNat_add, hround]
    omega
  rw [lt_def, hnext] at hlim
  have hpages : size.toNat ≤ pagesFor size.toNat * 4096 := by
    rw [pagesFor]
    omega
  -- the rounds are all below one page table
  obtain ⟨s', L', hrun, hwf, hroom, hview⟩ := rounds_same_path
    (regionOf base (roundUpPg size) pa 0x1B#32) h.wf h.room (regionOf_flags (mmio_flags base pa))
    (fun x hx => region_path hsize hge hlim hx)
  rw [← bootMapRegion_eq] at hrun
  -- an older range keeps its pages
  have hold : ∀ va : Word, va.toNat < base.toNat → s'.translate r va = s.translate r va := by
    intro va hva
    refine translate_congr (whole_node (Nat.le_refl 3)) ?_
    rw [hview, mapOf_region_none hsize hle hbm hva, Option.none_or]
  refine ⟨s', L', mmioMapRegion_eq_ok.mpr ⟨by rw [lt_def, hnext]; exact hlim, rfl, rfl, hrun⟩,
    hwf, hroom, by rw [hnext]; omega, by rw [hnext]; omega, by rw [hnext]; omega, ⟨?_, ?_, ?_⟩, ?_⟩
  · rw [pairwise_append]
    refine ⟨h.reserved.disjoint, pairwise_singleton _ _, fun a ha b hb x hx => ?_⟩
    obtain rfl := List.mem_singleton.mp hb
    obtain ⟨⟨h1, h2⟩, h3, h4⟩ := hx
    have hbelow := h.below a ha (by
      rintro h0
      rw [h0] at h2
      simp at h2
      omega)
    dsimp only at h3
    omega
  · intro a ha x hx
    rcases List.mem_append.mp ha with ha | ha
    · exact h.reserved.inside a ha x hx
    · obtain rfl := List.mem_singleton.mp ha
      obtain ⟨h1, h2⟩ := hx
      dsimp only at h1 h2
      omega
  · intro a ha i hi
    rcases List.mem_append.mp ha with ha | ha
    · have hbelow := h.below a ha (by
        rintro h0
        rw [h0] at hi
        simp at hi)
      rw [hold, h.reserved.maps a ha i hi]
      rw [MmioRange.addr, toNat_add, toNat_ofNat]
      omega
    · obtain rfl := List.mem_singleton.mp ha
      have hpa : pa.toNat % 4096 = 0 := by
        rcases hpa with h0 | hpa
        · rw [h0] at hi
          simp at hi
        · exact hpa
      have hv := hview (vpn (base + BitVec.ofNat 64 i))
      rw [mapOf_region hbm hle hsize hi, Option.some_or] at hv
      rw [MmioRange.addr, translate_of_view hv, leaf_translate hbm hpa]
  · intro a ha hne
    rcases List.mem_append.mp ha with ha | ha
    · have := h.below a ha hne
      omega
    · obtain rfl := List.mem_singleton.mp ha
      dsimp only
      omega

/-- **All the calls of a run.** -/
theorem MmioInv.run {l' : List MmioRange} (h : MmioInv r base l s L)
    (hfits : ∀ c ∈ calls, FitsMmio c)
    (hrun : (mmioMapRegions (r * 512) base calls).run s = .ok (l', s')) :
    ∃ base' L', MmioInv r base' (l ++ l') s' L' := by
  induction calls generalizing base s L l l' with
  | nil =>
    cases hrun
    exact ⟨base, L, by rwa [append_nil]⟩
  | cons c calls ih =>
    obtain ⟨⟨va, base1⟩, s1, hcall, hrest⟩ := bind_inv hrun
    obtain ⟨hlim, rfl, rfl, -⟩ := mmioMapRegion_eq_ok.mp hcall
    obtain ⟨l₂, s2, hl2, hret⟩ := bind_inv hrest
    cases hret
    obtain ⟨s3, L3, hcall', h3⟩ := h.call (hfits _ (mem_cons_self ..)) hlim
    obtain rfl : s1 = s3 := congrArg Prod.snd (Except.ok.inj (hcall.symm.trans hcall'))
    have happ : ∀ a : MmioRange, l ++ a :: l₂ = l ++ [a] ++ l₂ := fun a => by simp
    rw [happ]
    exact ih h3 (fun c hc => hfits c (mem_cons_of_mem _ hc)) hl2

/-- **Device memory is handed out faithfully**, by calls that do not panic, if and only if no size is
larger than all of it and every range starts at a page of physical memory. -/
theorem mmioMapRegions_reserved (h : Wf (whole r) s L)
    (hroom : missing dec s.mem r (vpn mmiobase).path ≤ L.length)
    (hrun : (mmioMapRegions (r * 512) mmiobase calls).run s = .ok (l, s')) :
    Reserved r l s' ↔ ∀ c ∈ calls, FitsMmio c := by
  refine ⟨fun hres => hres.fits (by decide) hrun, fun hfits => ?_⟩
  have h₀ : MmioInv r mmiobase [] s L := ⟨h, hroom, by decide, Nat.le_refl _, by decide,
    ⟨List.Pairwise.nil, nofun, nofun⟩, nofun⟩
  obtain ⟨base', L', hinv⟩ := h₀.run hfits hrun
  exact hinv.reserved

/-! ### A machine of 16 pages -/

/-- Memory is clear and no page is on the free list. -/
def fullMachine : Pmap := ⟨16, sixteen_le_maxNpages, fun _ => 0, fun _ => 0, fun _ => none, none⟩

/-- Pages 1 to 6 are free. -/
def deviceMachine : Pmap := pageInit ⟨8, 16, 16⟩ fullMachine

theorem deviceMachine_wf : Wf (whole 9) deviceMachine (BootInfo.free ⟨8, 16, 16⟩ 16) := by
  obtain ⟨hfree, hmem, hn⟩ := pageInit_freeList (b := ⟨8, 16, 16⟩) (s := fullMachine)
    (fun _ => rfl) (fun _ => rfl) rfl
  refine Wf.zeroed hfree (by rw [deviceMachine, hn]; decide) (by decide) fun i => ?_
  rfl

theorem deviceMachine_room : missing dec deviceMachine.mem 9 (vpn mmiobase).path ≤
    (BootInfo.free ⟨8, 16, 16⟩ 16).length := by
  decide +kernel

theorem exists_mmioRun (r : Nat) (calls : List (Word × Word)) (s : Pmap)
    {P : List MmioRange → Pmap → Prop}
    (h : Returns ((mmioMapRegions (r * 512) mmiobase calls).run s) P) :
    ∃ l s', (mmioMapRegions (r * 512) mmiobase calls).run s = .ok (l, s') ∧ P l s' :=
  h.exists_ok

/-- The local APIC, and a page and a byte from address 0. -/
theorem mmioMapRegions_reserved_lapic : ∃ l s', (mmioMapRegions (9 * 512) mmiobase
    [(0xfee00000#64, 4096#64), (0#64, 4097#64)]).run deviceMachine = .ok (l, s') ∧
      Reserved 9 l s' := by
  obtain ⟨l, s', hrun, -⟩ := exists_mmioRun 9 [(0xfee00000#64, 4096#64), (0#64, 4097#64)]
    deviceMachine (P := fun _ _ => True) (by decide +kernel)
  refine ⟨l, s', hrun, (mmioMapRegions_reserved deviceMachine_wf deviceMachine_room hrun).mpr ?_⟩
  simp only [mem_cons, not_mem_nil, or_false, forall_eq_or_imp, forall_eq]
  exact ⟨⟨by decide, .inr (by decide)⟩, ⟨by decide, .inr (by decide)⟩⟩

/-- A run that shows what is wrong with what it returns. -/
theorem exists_unfaithful (r : Nat) (calls : List (Word × Word)) (s : Pmap)
    {P : List MmioRange → Pmap → Prop}
    (h : Returns ((mmioMapRegions (r * 512) mmiobase calls).run s) P)
    (hbad : ∀ l s', (mmioMapRegions (r * 512) mmiobase calls).run s = .ok (l, s') → P l s' →
      ¬ Reserved r l s') :
    ∃ l s', (mmioMapRegions (r * 512) mmiobase calls).run s = .ok (l, s') ∧ P l s' ∧
      ¬ Reserved r l s' := by
  obtain ⟨l, s', hrun, hP⟩ := h.exists_ok
  exact ⟨l, s', hrun, hP, hbad l s' hrun hP⟩

/-- A size that is rounded up to 0 is not reserved at all, and the next call returns the same
address; an address in the middle of a page is mapped as the start of it; and if there is no page
for a table then the call returns as well. -/
theorem mmio_unfaithful :
    (∃ l s', (mmioMapRegions (9 * 512) mmiobase [(0#64, 0xffffffffffffffff#64),
        (0xfee00000#64, 4096#64)]).run deviceMachine = .ok (l, s') ∧
      l.map MmioRange.va = [mmiobase, mmiobase] ∧ ¬ Reserved 9 l s') ∧
    (∃ l s', (mmioMapRegions (9 * 512) mmiobase [(0xfee00010#64, 4#64)]).run deviceMachine =
        .ok (l, s') ∧
      s'.translate 9 mmiobase = some 0xfee00000 ∧ ¬ Reserved 9 l s') ∧
    (∃ l s', (mmioMapRegions (9 * 512) mmiobase [(0xfee00000#64, 4096#64)]).run fullMachine =
        .ok (l, s') ∧
      (l = [⟨mmiobase, 0xfee00000#64, 4096#64⟩] ∧ s'.translate 9 mmiobase = some 0) ∧
      ¬ Reserved 9 l s') := by
  refine ⟨exists_unfaithful 9 _ deviceMachine (by decide +kernel) fun l s' hrun _ hres => ?_,
    exists_unfaithful 9 _ deviceMachine (by decide +kernel) fun l s' hrun _ hres => ?_,
    exists_unfaithful 9 _ fullMachine (by decide +kernel) fun l s' _ hP hres => ?_⟩
  · exact absurd (hres.fits (by decide) hrun _ (mem_cons_self ..)).1 (by decide)
  · rcases (hres.fits (by decide) hrun _ (mem_cons_self ..)).2 with h | h
    · exact absurd h (by decide)
    · exact absurd h (by decide)
  · obtain ⟨rfl, htr⟩ := hP
    have hmap := hres.maps _ (mem_cons_self ..) 0 (by decide)
    rw [show MmioRange.addr ⟨mmiobase, 0xfee00000#64, 4096#64⟩ 0 = mmiobase by decide, htr] at hmap
    exact absurd hmap (by decide)

end JosVmm
