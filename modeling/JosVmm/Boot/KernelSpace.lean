import JosVmm.Boot.MapRegion
import JosVmm.Boot.RealRam

/-!
# Boot — the kernel's address space

What `x64_vm_init` leaves, as the hardware reads it (`Pmap.walk`).  The kernel maps a few ranges of
addresses (`KernelRange`): the arrays `pages` and `envs` for the user to read, all of memory, and a
stack for each CPU.  A `KernelSpace` maps all of each range, and nothing else.

The ranges share no page (`KernelRange.eq_of_page_eq`), so the last round for a page of a range is the
range's own (`KernelImage.mapOf_addr`); only the boot stack's rounds are undone, by those for the
first CPU.  `x64VmInit_kernelSpace` puts this together, for every size of memory that
`i386_detect_memory` finds.
-/

namespace JosVmm
open Support Support.Radix Support.Prog List

/-- Bits 47 and above of the address are equal. -/
def Canonical (va : Word) : Prop := va.toNat < 2 ^ 47 ∨ 2 ^ 64 - 2 ^ 47 ≤ va.toNat

/-! ### The ranges -/

/-- The ranges that the kernel maps. -/
inductive KernelRange where
  | upages
  | uenvs
  | kernel
  | stack (i : Fin ncpu)
  deriving DecidableEq

namespace KernelRange

/-- The first address of a range. -/
def start : KernelRange → Word
  | upages => JosVmm.upages
  | uenvs => JosVmm.uenvs
  | kernel => kernbase
  | stack i => kstacktopOf i - kstksize

/-- Its size in bytes, on a machine of `n` pages. -/
def size (n : Nat) : KernelRange → Nat
  | upages => pagesFor (n * 16) * pgsize
  | uenvs => pagesFor sizeofEnvs.toNat * pgsize
  | kernel => n * pgsize
  | stack _ => kstksize.toNat

/-- The physical address that it is mapped to. -/
def target (k : KernelImage) (v : BootVars) : KernelRange → Word
  | upages => v.pages - kernbase
  | uenvs => v.envs - kernbase
  | kernel => 0
  | stack i => k.kstack i - kernbase

/-- The ranges that the user may read. -/
def Shared (R : KernelRange) : Prop := R = upages ∨ R = uenvs

def addr (R : KernelRange) (i : Nat) : Word := R.start + BitVec.ofNat 64 i

end KernelRange

/-- The address space of the kernel: every range is mapped, and nothing else is. -/
structure KernelSpace (k : KernelImage) (v : BootVars) (s : Pmap) : Prop where
  maps : ∀ (R : KernelRange) i, i < R.size s.npages → ∃ e,
    s.walk (kptr v.bootPml4e / 512) (R.addr i) = some e ∧
      e.pa (R.addr i) = R.target k v + BitVec.ofNat 64 i
  only : ∀ va, Canonical va → s.walk (kptr v.bootPml4e / 512) va ≠ none →
    ∃ (R : KernelRange) (i : Nat), i < R.size s.npages ∧ va = R.addr i
  gaps : ∀ (c : Fin ncpu) i, i < kstkgap.toNat →
    s.walk (kptr v.bootPml4e / 512) (kstacktopOf c - kstksize - kstkgap + BitVec.ofNat 64 i) = none
  user : ∀ (R : KernelRange) i e, i < R.size s.npages →
    s.walk (kptr v.bootPml4e / 512) (R.addr i) = some e → (e.User ↔ R.Shared)
  readOnly : ∀ (R : KernelRange) i e, i < R.size s.npages →
    s.walk (kptr v.bootPml4e / 512) (R.addr i) = some e → R.Shared → ¬ e.LeafWritable
  disjoint : ∀ (R R' : KernelRange) i j, i < R.size s.npages → j < R'.size s.npages →
    R.addr i = R'.addr j → R = R'

namespace KernelRange

variable {n : Nat}

theorem start_stack (c : Fin ncpu) : (start (stack c)).toNat = 0x8003ff0000 - 0x18000 * c.val := by
  revert c
  decide +kernel

/-- Where each range lies. -/
theorem spans (R : KernelRange) (hn : n ≤ maxNpages) :
    R = upages ∧ R.start.toNat = 0x8000a00000 ∧ R.size n ≤ 0x3200000 ∨
      R = uenvs ∧ R.start.toNat = 0x8000800000 ∧ R.size n = 0x5A000 ∨
      R = kernel ∧ R.start.toNat = 0x8004000000 ∧ R.size n ≤ 0x320000000 ∨
      ∃ c : Fin ncpu, R = stack c ∧ c.val < 4 ∧ R.start.toNat = 0x8003ff0000 - 0x18000 * c.val ∧
        R.size n = 0x10000 := by
  simp only [maxNpages] at hn
  cases R with
  | upages =>
    refine .inl ⟨rfl, rfl, ?_⟩
    simp only [size, pagesFor, pgsize]
    omega
  | uenvs => exact .inr (.inl ⟨rfl, rfl, rfl⟩)
  | kernel =>
    refine .inr (.inr (.inl ⟨rfl, rfl, ?_⟩))
    simp only [size, pgsize]
    omega
  | stack c => exact .inr (.inr (.inr ⟨c, rfl, c.isLt, start_stack c, rfl⟩))

/-- A range starts at a page, and ends below `2 ^ 40`. -/
theorem start_mod (R : KernelRange) : R.start.toNat % 4096 = 0 := by
  rcases R.spans (Nat.zero_le maxNpages) with ⟨-, h, -⟩ | ⟨-, h, -⟩ | ⟨-, h, -⟩ | ⟨c, -, -, h, -⟩ <;> omega

theorem end_lt (R : KernelRange) (hn : n ≤ maxNpages) : R.start.toNat + R.size n < 2 ^ 40 := by
  rcases R.spans hn with ⟨-, h, h'⟩ | ⟨-, h, h'⟩ | ⟨-, h, h'⟩ | ⟨c, -, hc, h, h'⟩ <;> omega

theorem addr_toNat (R : KernelRange) (hn : n ≤ maxNpages) {i : Nat} (hi : i < R.size n) :
    (R.addr i).toNat = R.start.toNat + i := by
  have hlt := R.end_lt hn
  rw [addr, BitVec.toNat_add, BitVec.toNat_ofNat]
  omega

/-- Ranges share no page. -/
theorem eq_of_page_eq {R R' : KernelRange} {i j : Nat} (hn : n ≤ maxNpages) (hi : i < R.size n)
    (hj : j < R'.size n) (h : (R.addr i).toNat / 4096 = (R'.addr j).toNat / 4096) :
    R = R' ∧ i / 4096 = j / 4096 := by
  rw [R.addr_toNat hn hi, R'.addr_toNat hn hj] at h
  have hm' := R'.start_mod
  have hR : R = R' := by
    rcases R.spans hn with ⟨rfl, h1, h2⟩ | ⟨rfl, h1, h2⟩ | ⟨rfl, h1, h2⟩ | ⟨c, rfl, hc, h1, h2⟩ <;>
      rcases R'.spans hn with ⟨rfl, h3, h4⟩ | ⟨rfl, h3, h4⟩ | ⟨rfl, h3, h4⟩ | ⟨c', rfl, hc', h3, h4⟩
    all_goals simp only [reduceCtorEq, stack.injEq, Fin.ext_iff]
    all_goals omega
  subst hR
  exact ⟨rfl, by omega⟩

end KernelRange

/-! ### The rounds of a range -/

theorem mapOf_append {l₁ l₂ : List BootMapping} {v : Vpn} :
    mapOf (l₁ ++ l₂) v = (mapOf l₂ v).or (mapOf l₁ v) := by
  rw [mapOf, reverse_append, find?_append, Option.map_or]
  rfl

theorem mapOf_eq_some {l : List BootMapping} {v : Vpn} {w : Word} (hex : ∃ x ∈ l, vpn x.va = v)
    (hall : ∀ x ∈ l, vpn x.va = v → x.leaf = w) : mapOf l v = some w := by
  obtain ⟨x, hx, hv⟩ := hex
  cases hf : l.reverse.find? fun x => vpn x.va = v with
  | none =>
    have := List.find?_eq_none.mp hf x (List.mem_reverse.mpr hx)
    exact absurd hv (by simpa using this)
  | some y =>
    have hy := List.mem_reverse.mp (mem_of_find?_eq_some hf)
    have hyv : vpn y.va = v := by simpa using find?_some hf
    rw [mapOf, hf, Option.map_some, hall y hy hyv]

theorem mapOf_eq_none {l : List BootMapping} {v : Vpn} (h : ∀ x ∈ l, vpn x.va ≠ v) :
    mapOf l v = none := by
  rw [mapOf, List.find?_eq_none.mpr, Option.map_none]
  intro x hx
  simpa using h x (List.mem_reverse.mp hx)

namespace KernelRange

variable {n : Nat} (k : KernelImage) (v : BootVars)

/-- The permissions of a range. -/
def perm : KernelRange → BitVec 32
  | upages => 4#32
  | uenvs => 5#32
  | kernel | stack _ => 3#32

/-- The round for the page `j` of a range. -/
def round (R : KernelRange) (j : Nat) : BootMapping :=
  ⟨R.addr (j * pgsize), R.target k v + BitVec.ofNat 64 (j * pgsize), R.perm⟩

/-- All rounds of a range. -/
def rounds (n : Nat) (R : KernelRange) : List BootMapping :=
  (List.range (R.size n / pgsize)).map (R.round k v)

variable {k v}

/-- A round of a range that is for the page of `R.addr i`. -/
theorem eq_round {R R' : KernelRange} {i : Nat} {x : BootMapping} (hn : n ≤ maxNpages)
    (hi : i < R.size n) (hx : x ∈ R'.rounds k v n) (hv : vpn x.va = vpn (R.addr i)) :
    R' = R ∧ x = R.round k v (i / pgsize) := by
  obtain ⟨j, hj, rfl⟩ := List.mem_map.mp hx
  have hj : j * pgsize < R'.size n := by
    rw [mem_range] at hj
    simp only [pgsize] at hj ⊢
    omega
  have hlt := R.end_lt hn
  have hlt' := R'.end_lt hn
  have hpage := (vpn_eq_iff (by rw [round, R'.addr_toNat hn hj]; omega)
    (by rw [R.addr_toNat hn hi]; omega)).mp hv
  obtain ⟨rfl, hij⟩ := eq_of_page_eq hn hj hi hpage
  refine ⟨rfl, congrArg _ ?_⟩
  simp only [pgsize] at hij ⊢
  omega

theorem round_mem {R : KernelRange} {i : Nat} (hi : i < R.size n) (hmod : R.size n % pgsize = 0) :
    R.round k v (i / pgsize) ∈ R.rounds k v n := by
  refine List.mem_map.mpr ⟨i / pgsize, List.mem_range.mpr ?_, rfl⟩
  simp only [pgsize] at hmod ⊢
  omega

theorem size_mod (R : KernelRange) : R.size n % pgsize = 0 := by
  cases R with
  | upages | uenvs | kernel => exact Nat.mul_mod_left _ _
  | stack c =>
    show kstksize.toNat % pgsize = 0
    decide

theorem vpn_round {R : KernelRange} {i : Nat} (hn : n ≤ maxNpages) (hi : i < R.size n) :
    vpn (R.round k v (i / pgsize)).va = vpn (R.addr i) := by
  have hlt := R.end_lt hn
  have hm := R.start_mod
  have hi' : i / pgsize * pgsize < R.size n := by
    simp only [pgsize]
    omega
  rw [round, vpn_eq_iff (by rw [R.addr_toNat hn hi']; omega) (by rw [R.addr_toNat hn hi]; omega),
    R.addr_toNat hn hi', R.addr_toNat hn hi]
  simp only [pgsize]
  omega

end KernelRange

namespace KernelImage

variable (k : KernelImage) {n : Nat}

/-- The first CPU. -/
def bootCpu : Fin ncpu := ⟨0, by decide⟩

/-- The rounds for the boot stack, which those for the first CPU's stack undo. -/
def bootRounds : List BootMapping :=
  regionOf (kstacktop - kstksize) kstksize (k.bootstack - kernbase) 3#32

/-- A call of `boot_map_region` for a range. -/
theorem regionOf_eq_rounds (R : KernelRange) (v : BootVars) (size : Word)
    (hsize : (size.toNat + (pgsize - 1)) / pgsize = R.size n / pgsize) :
    regionOf R.start size (R.target k v) R.perm = R.rounds k v n := by
  rw [regionOf, hsize]
  rfl

theorem mappings_eq (hn : n ≤ maxNpages) : k.mappings n =
    KernelRange.upages.rounds k (k.bootVars n) n ++ KernelRange.uenvs.rounds k (k.bootVars n) n ++
      k.bootRounds ++ KernelRange.kernel.rounds k (k.bootVars n) n ++
      (List.finRange ncpu).flatMap fun c => (KernelRange.stack c).rounds k (k.bootVars n) n := by
  simp only [maxNpages] at hn
  have hmul : ∀ m : Nat, m * pgsize / pgsize = m := fun m => Nat.mul_div_cancel m (by decide)
  have h1 := k.regionOf_eq_rounds (n := n) .upages (k.bootVars n)
    (BitVec.ofNat 64 n * sizeofPageInfo) (by
      rw [KernelRange.size, hmul, BitVec.toNat_mul, sizeofPageInfo]
      simp only [BitVec.toNat_ofNat, Nat.reducePow, Nat.reduceMod, pagesFor, pgsize]
      omega)
  have h2 := k.regionOf_eq_rounds (n := n) .uenvs (k.bootVars n) (roundUpPg sizeofEnvs) (by
      rw [KernelRange.size, hmul]
      decide)
  have h3 := k.regionOf_eq_rounds (n := n) .kernel (k.bootVars n) (BitVec.ofNat 64 n * 4096#64) (by
      rw [KernelRange.size, hmul, BitVec.toNat_mul]
      simp only [BitVec.toNat_ofNat, Nat.reducePow, Nat.reduceMod, pgsize]
      omega)
  have h4 : ∀ c : Fin ncpu, k.stackMappings c = (KernelRange.stack c).rounds k (k.bootVars n) n :=
    fun c => k.regionOf_eq_rounds (.stack c) (k.bootVars n) kstksize
      (show (kstksize.toNat + (pgsize - 1)) / pgsize = kstksize.toNat / pgsize by decide)
  have hp : KernelRange.upages.target k (k.bootVars n) = page2pa k.pagesPage := kva_sub _
  have he : KernelRange.uenvs.target k (k.bootVars n) = page2pa (k.envsPage n) := kva_sub _
  rw [hp] at h1
  rw [he] at h2
  rw [← h1, ← h2, ← h3, ← funext h4, mappings, ← map_coe_finRange_eq_range, flatMap_map]
  rfl

/-- The boot stack's rounds are for the pages of the first CPU's stack. -/
theorem vpn_bootRounds {x : BootMapping} (hx : x ∈ k.bootRounds) :
    ∃ j, j * pgsize < (KernelRange.stack bootCpu).size n ∧
      x.va = (KernelRange.stack bootCpu).addr (j * pgsize) := by
  have hcount : (kstksize.toNat + (pgsize - 1)) / pgsize = 16 := by decide
  have hsize : (KernelRange.stack bootCpu).size n = 16 * pgsize := rfl
  have hstart : (KernelRange.stack bootCpu).start = kstacktop - kstksize := by decide
  obtain ⟨j, hj, rfl⟩ := List.mem_map.mp hx
  refine ⟨j, ?_, by rw [KernelRange.addr, hstart]⟩
  exact Nat.mul_lt_mul_of_pos_right (List.mem_range.mp hj) (by decide)

section

variable (hn : n ≤ maxNpages)
include hn

/-- **What is mapped in a range**: the last round for each of its pages is the range's own. -/
theorem mapOf_addr {R : KernelRange} {i : Nat} (hi : i < R.size n) :
    mapOf (k.mappings n) (vpn (R.addr i)) =
      some (R.round k (k.bootVars n) (i / pgsize)).leaf := by
  have hmem := R.round_mem (k := k) (v := k.bootVars n) hi R.size_mod
  have hv := R.vpn_round (k := k) (v := k.bootVars n) hn hi
  rw [k.mappings_eq hn, mapOf_append]
  have hall : ∀ R', ∀ x ∈ KernelRange.rounds k (k.bootVars n) n R', vpn x.va = vpn (R.addr i) →
      R' = R ∧ x.leaf = (R.round k (k.bootVars n) (i / pgsize)).leaf := by
    intro R' x hx hxv
    obtain ⟨hR, hx⟩ := KernelRange.eq_round hn hi hx hxv
    exact ⟨hR, by rw [hx]⟩
  by_cases hstack : ∃ c, R = .stack c
  · obtain ⟨c, rfl⟩ := hstack
    rw [mapOf_eq_some ⟨_, List.mem_flatMap.mpr ⟨c, mem_finRange c, hmem⟩, hv⟩, Option.some_or]
    intro x hx hxv
    obtain ⟨c', -, hx⟩ := List.mem_flatMap.mp hx
    exact (hall _ x hx hxv).2
  · rw [mapOf_eq_none, Option.none_or]
    · refine mapOf_eq_some ⟨_, ?_, hv⟩ fun x hx hxv => ?_
      · simp only [mem_append]
        cases R with
        | upages => exact .inl (.inl (.inl hmem))
        | uenvs => exact .inl (.inl (.inr hmem))
        | kernel => exact .inr hmem
        | stack c => exact absurd ⟨c, rfl⟩ hstack
      · simp only [mem_append] at hx
        rcases hx with ((hx | hx) | hx) | hx
        · exact (hall _ x hx hxv).2
        · exact (hall _ x hx hxv).2
        · obtain ⟨j, hj, hva⟩ := k.vpn_bootRounds (n := n) hx
          rw [hva] at hxv
          have hlt := R.end_lt hn
          have hlt' := (KernelRange.stack bootCpu).end_lt hn
          have hpage := (vpn_eq_iff (by rw [KernelRange.addr_toNat _ hn hj]; omega)
            (by rw [R.addr_toNat hn hi]; omega)).mp hxv
          exact absurd ⟨bootCpu, (KernelRange.eq_of_page_eq hn hj hi hpage).1.symm⟩ hstack
        · exact (hall _ x hx hxv).2
    · intro x hx hxv
      obtain ⟨c, -, hx⟩ := List.mem_flatMap.mp hx
      exact hstack ⟨c, (hall _ x hx hxv).1.symm⟩

/-- The ranges for the user have rounds of their own. -/
theorem shared_mem {R : KernelRange} (hR : R.Shared) {i : Nat} (hi : i < R.size n) :
    R.round k (k.bootVars n) (i / pgsize) ∈ k.mappings n := by
  have hmem := R.round_mem (k := k) (v := k.bootVars n) hi R.size_mod
  rw [k.mappings_eq hn]
  simp only [mem_append]
  rcases hR with rfl | rfl
  · exact .inl (.inl (.inl (.inl hmem)))
  · exact .inl (.inl (.inl (.inr hmem)))

/-- Each round is for a page of a range. -/
theorem mem_mappings {x : BootMapping} (hx : x ∈ k.mappings n) :
    ∃ (R : KernelRange) (j : Nat), j * pgsize < R.size n ∧ x.va = R.addr (j * pgsize) := by
  have hround : ∀ R : KernelRange, x ∈ R.rounds k (k.bootVars n) n →
      ∃ j, j * pgsize < R.size n ∧ x.va = R.addr (j * pgsize) := by
    intro R hx
    obtain ⟨j, hj, rfl⟩ := List.mem_map.mp hx
    refine ⟨j, ?_, rfl⟩
    rw [mem_range] at hj
    simp only [pgsize] at hj ⊢
    omega
  rw [k.mappings_eq hn] at hx
  simp only [mem_append, mem_flatMap] at hx
  rcases hx with (((hx | hx) | hx) | hx) | ⟨c, -, hx⟩
  · exact ⟨_, hround _ hx⟩
  · exact ⟨_, hround _ hx⟩
  · exact ⟨_, k.vpn_bootRounds hx⟩
  · exact ⟨_, hround _ hx⟩
  · exact ⟨_, hround _ hx⟩

/-- **Nothing else is mapped.** -/
theorem exists_range {va : Word} (hc : Canonical va) (h : mapOf (k.mappings n) (vpn va) ≠ none) :
    ∃ (R : KernelRange) (i : Nat), i < R.size n ∧ va = R.addr i := by
  have hex : ∃ x ∈ k.mappings n, vpn x.va = vpn va := by
    by_contra hno
    exact h (mapOf_eq_none fun x hx hv => hno ⟨x, hx, hv⟩)
  obtain ⟨x, hx, hv⟩ := hex
  obtain ⟨R, j, hj, hva⟩ := k.mem_mappings hn hx
  have hlt := R.end_lt hn
  have hmod := R.size_mod (n := n)
  have hm := R.start_mod
  have hnum := R.addr_toNat hn hj
  rw [← hva] at hnum
  -- an address with these index fields is below `2 ^ 47`, and in the page of the round
  have hlow : va.toNat < 2 ^ 47 := by
    refine hc.resolve_right fun hhigh => ?_
    have hpml4 := congrArg (fun v : Vpn => v.1.val) hv
    simp only [vpn, pml4, field_val] at hpml4
    omega
  have hpage := (vpn_eq_iff (by omega) (by omega)).mp hv
  refine ⟨R, va.toNat - R.start.toNat, ?_, BitVec.eq_of_toNat_eq ?_⟩
  · simp only [pgsize] at hj hmod hnum
    omega
  · rw [R.addr_toNat hn]
    · simp only [pgsize] at hj hmod hnum
      omega
    · simp only [pgsize] at hj hmod hnum
      omega

end

end KernelImage

/-! ### The entries of an address -/

variable {s : Pmap} {r : Nat} {va w : Word}

namespace KernelRange

variable {k : KernelImage} {v : BootVars} {n : Nat}

/-- The flags of a range's entries. -/
theorem leaf_and (R : KernelRange) (j : Nat) {c : Word} (hc : ~~~0xFFF#64 &&& c = 0) :
    (R.round k v j).leaf &&& c = (R.perm.signExtend 64 ||| pteP) &&& c := by
  rw [BootMapping.leaf, BitVec.or_assoc, BitVec.and_or_distrib_right, pteAddr, BitVec.and_assoc, hc]
  simp [round]

theorem leaf_user (R : KernelRange) (j : Nat) : (R.round k v j).leaf &&& pteU ≠ 0 ↔ R.Shared := by
  rw [R.leaf_and j (by decide), Shared]
  cases R with
  | upages | uenvs | kernel | stack c => simp [perm, pteP, pteU]

theorem leaf_readOnly (R : KernelRange) (j : Nat) (h : R.Shared) :
    (R.round k v j).leaf &&& pteW = 0 := by
  rw [R.leaf_and j (by decide)]
  rcases h with rfl | rfl
  · decide
  · decide

theorem flags_shared {R : KernelRange} {j : Nat} (h : R.Shared) :
    (R.round k v j).flags &&& pteU ≠ 0 := by
  rcases h with rfl | rfl
  · exact (show ((4#32).signExtend 64 ||| pteP) &&& pteU ≠ 0 by decide)
  · exact (show ((5#32).signExtend 64 ||| pteP) &&& pteU ≠ 0 by decide)

/-- Targets are page addresses. -/
theorem target_mod (R : KernelRange) : (R.target k (k.bootVars n)).toNat % 4096 = 0 := by
  have hpage : ∀ p, (kva p - kernbase).toNat % 4096 = 0 := by
    intro p
    rw [kva_sub, page2pa, BitVec.toNat_shiftLeft, Nat.shiftLeft_eq]
    omega
  cases R with
  | upages => exact hpage _
  | uenvs => exact hpage _
  | kernel => rfl
  | stack c =>
    have halign := mod_of_pgoff k.percpuKstacks_aligned
    show (k.percpuKstacks + kstksize * BitVec.ofNat 64 c - kernbase).toNat % 4096 = 0
    rw [BitVec.toNat_sub, BitVec.toNat_add, BitVec.toNat_mul]
    simp only [kstksize, kernbase, BitVec.toNat_mul, BitVec.toNat_ofNat, Nat.reducePow,
      Nat.reduceMod, Nat.reduceMul]
    omega

/-- The physical address that a range's entry gives. -/
theorem leaf_pa (R : KernelRange) (hn : n ≤ maxNpages) {i : Nat} (hi : i < R.size n) :
    pteAddr (R.round k (k.bootVars n) (i / pgsize)).leaf + pgoff (R.addr i) =
      R.target k (k.bootVars n) + BitVec.ofNat 64 i := by
  have hperm : (R.perm.signExtend 64 ||| pteP).toNat < 4096 := by
    cases R with
    | upages | uenvs | kernel => decide
    | stack c => exact (show ((3#32).signExtend 64 ||| pteP).toNat < 4096 by decide)
  have hleaf : pteAddr (R.round k (k.bootVars n) (i / pgsize)).leaf =
      pteAddr (R.target k (k.bootVars n) + BitVec.ofNat 64 (i / pgsize * pgsize)) :=
    BootMapping.pteAddr_leaf hperm
  have hT := R.target_mod (k := k) (n := n)
  have hm := R.start_mod
  refine BitVec.eq_of_toNat_eq ?_
  rw [hleaf, BitVec.toNat_add, pteAddr_toNat, pgoff_toNat, R.addr_toNat hn hi, BitVec.toNat_add,
    BitVec.toNat_add, BitVec.toNat_ofNat, BitVec.toNat_ofNat]
  simp only [pgsize]
  omega

end KernelRange

/-! ### After `x64_vm_init` -/

/-- No more pages are detected than `UPAGES` has room for. -/
theorem countPages_le (a b : Word) : (Detect.countPages a b).toNat ≤ maxNpages := by
  have hmax : Detect.maxNpages.toNat = maxNpages := by decide
  have hcut : (Detect.maxNpages - 1024#64).toNat ≤ maxNpages := by decide
  simp only [Detect.countPages]
  split <;> split
  · exact hcut
  · rename_i h
    exact BitVec.not_lt.mp h
  · exact hcut
  · rename_i h
    exact BitVec.not_lt.mp h

theorem detect_npages_le {mc : BitVec 32 → BitVec 32} {mem : Bytes} {list : Nat → Nat} {mbinfo : Nat}
    {z : MemSize} (h : Detect.i386DetectMemory (m := Id) mc mem list mbinfo = .ok z) :
    z.npages.toNat ≤ maxNpages := by
  simp only [Detect.i386DetectMemory, pure, bind] at h
  split at h
  · cases h
  · split at h
    · cases h
    · split at h
      · obtain rfl := Except.ok.inj h
        exact countPages_le _ _
      · obtain rfl := Except.ok.inj h
        exact countPages_le _ _

/-- The state in which `x64_vm_init` runs: `page_free_list` is null, and there is no `pages` array. -/
def MemSize.pmap (z : MemSize) (hz : z.npages.toNat ≤ maxNpages) (mem : Nat → Word)
    (ref : Nat → BitVec 16) (link : Nat → Option Nat) : Pmap :=
  ⟨z.npages.toNat, hz, mem, ref, link, none⟩

/-- There are enough free pages for the tables: as many as there are tables, and none of the free
pages is one that `boot_alloc` has handed out. -/
def KernelImage.EnoughFree (k : KernelImage) (npagesBasemem n : Nat) : Prop :=
  (tableNodes (k.mappings n)).card ≤ ((k.bootInfo n npagesBasemem).free n).length ∧
    ∀ p ∈ (k.bootInfo n npagesBasemem).free n, p < k.firstPage ∨ k.bootEnd n ≤ p

theorem gap_toNat (c : Fin ncpu) :
    (kstacktopOf c - kstksize - kstkgap).toNat = 0x8003fe8000 - 0x18000 * c.val := by
  revert c
  decide +kernel

/-- The map that the rounds leave is the kernel's address space. -/
theorem BootInv.kernelSpace {k : KernelImage} {N : Nat} {L : List Nat}
    (h : BootInv k.firstPage N (k.mappings s.npages) s L) (hfirst : k.firstPage < 2 ^ 40) :
    KernelSpace k (k.bootVars s.npages) s := by
  have hn := s.npages_le
  have hroot : kptr (k.bootVars s.npages).bootPml4e / 512 = k.firstPage := by
    rw [KernelImage.bootVars, kptr_kva hfirst]
    exact Nat.mul_div_cancel _ (by decide)
  -- the entry of an address in a range is that of the range's round
  have hentry : ∀ (R : KernelRange) i, i < R.size s.npages → ∃ t₁ t₂ u,
      Path s k.firstPage (vpn (R.addr i)) t₁ t₂ u ∧ s.walk k.firstPage (R.addr i) =
        some ⟨s.mem (slot k.firstPage (pml4 (R.addr i))), s.mem (slot t₁ (pdpe (R.addr i))),
          s.mem (slot t₂ (pdx (R.addr i))), (R.round k (k.bootVars s.npages) (i / pgsize)).leaf⟩ :=
    fun R i hi => walk_of_view (by rw [h.view, k.mapOf_addr hn hi])
  have honly : ∀ va, Canonical va → s.walk k.firstPage va ≠ none →
      ∃ (R : KernelRange) (i : Nat), i < R.size s.npages ∧ va = R.addr i := by
    intro va hc hw
    refine k.exists_range hn hc fun hnone => hw (walk_of_view_none (whole_node (Nat.le_refl 3)) ?_)
    rw [h.view, hnone]
  refine ⟨?_, ?_, ?_, ?_, ?_, ?_⟩
  · intro R i hi
    obtain ⟨t₁, t₂, u, -, hw⟩ := hentry R i hi
    rw [hroot]
    exact ⟨_, hw, R.leaf_pa hn hi⟩
  · rw [hroot]
    exact honly
  · intro c i hi
    rw [hroot]
    by_contra hw
    have hi : i < 0x8000 := hi
    have hc : c.val < 4 := c.isLt
    have hgap : (kstacktopOf c - kstksize - kstkgap + BitVec.ofNat 64 i).toNat =
        0x8003fe8000 - 0x18000 * c.val + i := by
      rw [BitVec.toNat_add, gap_toNat, BitVec.toNat_ofNat]
      omega
    obtain ⟨R, j, hj, hva⟩ := honly _ (.inl (by rw [hgap]; omega)) hw
    rw [hva, R.addr_toNat hn hj] at hgap
    rcases R.spans hn with ⟨-, h1, h2⟩ | ⟨-, h1, h2⟩ | ⟨-, h1, h2⟩ | ⟨c', -, hc', h1, h2⟩ <;> omega
  · intro R i e hi hw
    rw [hroot] at hw
    obtain ⟨t₁, t₂, u, hp, hw'⟩ := hentry R i hi
    obtain rfl := Option.some.inj (hw.symm.trans hw')
    constructor
    · intro hu
      exact (R.leaf_user _).mp hu.2.2.2
    · intro hR
      obtain ⟨t1', t2', u', hp', b1, b2, b3⟩ := h.user _ (k.shared_mem hn hR hi)
        (KernelRange.flags_shared hR)
      rw [R.vpn_round hn hi] at hp' b1 b2 b3
      obtain ⟨rfl, rfl, rfl⟩ := hp.unique hp'
      exact ⟨b1, b2, b3, (R.leaf_user _).mpr hR⟩
  · intro R i e hi hw hR hwr
    rw [hroot] at hw
    obtain ⟨t₁, t₂, u, hp, hw'⟩ := hentry R i hi
    obtain rfl := Option.some.inj (hw.symm.trans hw')
    exact hwr (R.leaf_readOnly _ hR)
  · intro R R' i j hi hj heq
    exact (KernelRange.eq_of_page_eq hn hi hj (by rw [heq])).1

/-- **The kernel's address space**, for every size of memory that is detected. -/
theorem x64VmInit_kernelSpace {mc : BitVec 32 → BitVec 32} {bytes : Bytes} {list : Nat → Nat}
    {mbinfo : Nat} {z : MemSize}
    (hz : Detect.i386DetectMemory (m := Id) mc bytes list mbinfo = .ok z) (k : KernelImage)
    (hroom : k.bootEnd z.npages.toNat ≤ z.npages.toNat)
    (hfree : k.EnoughFree z.npagesBasemem.toNat z.npages.toNat) (mem : Nat → Word)
    (ref : Nat → BitVec 16) (link : Nat → Option Nat) :
    ∃ v s', (x64VmInit k z.npagesBasemem.toNat).run (z.pmap (detect_npages_le hz) mem ref link) =
      .ok (v, s') ∧ s'.npages = z.npages.toNat ∧ KernelSpace k v s' := by
  have hlt : k.firstPage < k.bootEnd z.npages.toNat := by
    simp only [KernelImage.bootEnd, KernelImage.envsPage, KernelImage.pagesPage]
    omega
  have hsafe : k.firstPage ∉ (k.bootInfo z.npages.toNat z.npagesBasemem.toNat).free
      z.npages.toNat := by
    intro hmem
    rcases hfree.2 _ hmem with h | h <;> omega
  obtain ⟨s', L', hrun, hnp, hinv⟩ := x64VmInit_run
    (s := z.pmap (detect_npages_le hz) mem ref link) (k := k) z.npagesBasemem.toNat rfl hroom hsafe
    hfree.1
  refine ⟨_, s', hrun, hnp, ?_⟩
  have hnp' : s'.npages = (z.pmap (detect_npages_le hz) mem ref link).npages := hnp
  rw [← hnp'] at hinv ⊢
  have hle := detect_npages_le hz
  simp only [maxNpages] at hle
  exact hinv.kernelSpace (by omega)

/-- A kernel that ends at 4 megabytes. -/
def smallImage : KernelImage where
  endDebug := 0x80043ff123#64
  pml4phys := 0x110
  bootstack := 0x8004300000#64
  percpuKstacks := 0x8004310000#64
  bootstack_aligned := by decide
  percpuKstacks_aligned := by decide
  endDebug_le := by decide
  bootstack_le := by decide
  percpuKstacks_le := by decide
  percpuKstacks_end := by decide

theorem smallImage_bootInfo : smallImage.bootInfo 4096 160 = ⟨160, 0x46b, 0x110⟩ := by
  congr 1

/-- What a machine of 16 megabytes maps is below one page directory. -/
theorem smallImage_directory {x : BootMapping} (hx : x ∈ smallImage.mappings 4096) :
    pml4 x.va = 1 ∧ pdpe x.va = 0 := by
  have hn : 4096 ≤ maxNpages := by decide
  obtain ⟨R, j, hj, hva⟩ := smallImage.mem_mappings hn hx
  have hnum := R.addr_toNat hn hj
  have hspan : 0x8000000000 ≤ R.start.toNat ∧ R.start.toNat + R.size 4096 ≤ 0x8040000000 := by
    have hsize : KernelRange.size 4096 .kernel = 4096 * 4096 := rfl
    rcases R.spans hn with ⟨-, h1, h2⟩ | ⟨-, h1, h2⟩ | ⟨rfl, h1, -⟩ | ⟨c, -, hc, h1, h2⟩ <;> omega
  rw [← hva] at hnum
  rw [pml4, pdpe, Fin.ext_iff, Fin.ext_iff, field_val, field_val, hnum]
  omega

theorem smallImage_enough : smallImage.EnoughFree 160 4096 := by
  rw [KernelImage.EnoughFree, smallImage_bootInfo]
  have hlen : 514 ≤ ((⟨160, 0x46b, 0x110⟩ : BootInfo).free 4096).length := by decide +kernel
  refine ⟨?_, fun p hp => ?_⟩
  · have hsub : tableNodes (smallImage.mappings 4096) ⊆
        insert [1] (insert [1, 0] (Finset.univ.image fun i : Fin 512 => [1, 0, i])) := by
      intro ρ hρ
      rw [tableNodes, mem_toFinset, mem_flatMap] at hρ
      obtain ⟨x, hx, hρ⟩ := hρ
      obtain ⟨h1, h2⟩ := smallImage_directory hx
      rw [vpn_path, h1, h2] at hρ
      simp only [mem_cons, not_mem_nil, or_false] at hρ
      rcases hρ with rfl | rfl | rfl <;> simp
    have h1 := Finset.card_le_card hsub
    have h2 := Finset.card_insert_le [1] (insert [1, 0] (Finset.univ.image fun i : Fin 512 => [1, 0, i]))
    have h3 := Finset.card_insert_le [1, 0] (Finset.univ.image fun i : Fin 512 => [1, 0, i])
    have h4 := Finset.card_image_le (s := Finset.univ) (f := fun i : Fin 512 => [1, 0, i])
    rw [Finset.card_univ, Fintype.card_fin] at h4
    omega
  · have hfirst : smallImage.firstPage = 0x400 := by decide
    have hend : smallImage.bootEnd 4096 = 0x46b := rfl
    have hfree := inuse_eq_false.mp (BootInfo.mem_free.mp hp).2
    dsimp only at hfree
    omega

/-- 16 megabytes of memory. -/
theorem x64VmInit_kernelSpace_solid : ∃ v s', (x64VmInit smallImage 160).run
    (MemSize.pmap ⟨160, 4096⟩ (by decide) (fun _ => 0xAA) (fun _ => 0) (fun _ => none)) =
      .ok (v, s') ∧ s'.npages = 4096 ∧ KernelSpace smallImage v s' :=
  x64VmInit_kernelSpace solidMap_detected smallImage (by decide) smallImage_enough _ _ _

end JosVmm
