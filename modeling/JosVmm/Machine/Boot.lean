import JosVmm.Machine.Tables

/-!
# Machine — Boot

`page_init` of `kern/pmap.c`: every page is marked in use or free, and the free ones are linked
in increasing order.  Before it runs, `x64_vm_init` has zeroed the `pages` array and the root
table `boot_pml4e`, which `boot_alloc` took from the memory below `nextfree`.

`x64_vm_init` as a whole follows: what `boot_alloc` gives it are kernel addresses, so these are
words here, and `kptr` is the word of physical memory that one points to.  The arrays `pages` and
`envs` have their own place in the model, so only the root table and the bytes of `envs` are
cleared in memory.
-/

namespace JosVmm

open Function List

/-- What `page_init` reads: `npages_basemem`, the page number of `PADDR(nextfree)`, and that of
`pml4phys`, the boot loader's page tables. -/
structure BootInfo where
  npagesBasemem : Nat
  nextfree : Nat
  pml4phys : Nat

/-- `MPENTRY_PADDR / PGSIZE`. -/
def mpentryPage : Nat := 0x7000 / pgsize

/-- The value of `inuse` for page `i` at the end of the loop body's tests. -/
def BootInfo.inuse (b : BootInfo) (i : Nat) : Bool := Id.run do
  let mut inuse := true
  -- the bottom basemem bytes are free except page 0
  if i ≠ 0 ∧ i < b.npagesBasemem then
    inuse := false
  if i = mpentryPage then
    inuse := true
  -- the memory past the kernel is free
  if b.nextfree ≤ i then
    inuse := false
  if b.pml4phys ≤ i ∧ i < b.pml4phys + 5 then
    inuse := true
  return inuse

/-- `pages[i].pp_ref = inuse; pages[i].pp_link = NULL;` -/
def Pmap.mark (s : Pmap) (i : Nat) (inuse : Bool) : Pmap := { s with
  ppRef := update s.ppRef i (if inuse then 1#16 else 0#16)
  ppLink := update s.ppLink i none }

/-- One round of the loop of `page_init`; the second component is `last`. -/
def pageInitRound (b : BootInfo) (st : Pmap × Option Nat) (i : Nat) : Pmap × Option Nat :=
  let s := st.1.mark i (b.inuse i)
  if b.inuse i then
    (s, st.2)
  else
    match st.2 with
    | some l => ({ s with ppLink := update s.ppLink l (some i) }, some i)
    | none => ({ s with pageFreeList := some i }, some i)

/-- `page_init`. -/
def pageInit (b : BootInfo) (s : Pmap) : Pmap :=
  ((List.range s.npages).foldl (pageInitRound b) (s, none)).1

/-! ### The kernel's address space -/

/-- `KERNBASE`, and the addresses of `inc/memlayout.h` below it. -/
def kernbase : Word := 0x8004000000#64
def kstacktop : Word := kernbase
def kstksize : Word := 16#64 * 4096#64
def kstkgap : Word := 8#64 * 4096#64
def ptsize : Word := 4096#64 * 512#64
def ulim : Word := kstacktop - ptsize - ptsize
def upages : Word := ulim - 25#64 * ptsize
def uenvs : Word := upages - ptsize

/-- `NCPU`. -/
def ncpu : Nat := 4

/-- `sizeof(struct PageInfo)`. -/
def sizeofPageInfo : Word := 16#64

/-- `NENV*sizeof(struct Env)`. -/
def sizeofEnvs : Word := 1024#64 * 360#64

/-- `ROUNDUP(a, PGSIZE)`. -/
def roundUpPg (a : Word) : Word := roundDownPg (a + 4096#64 - 1#64)

/-- What the linker places: the end of the kernel with its symbols, the boot loader's page tables,
and the stacks, which are aligned to pages. -/
structure KernelImage where
  endDebug : Word
  pml4phys : Nat
  bootstack : Word
  percpuKstacks : Word
  bootstack_aligned : pgoff bootstack = 0
  percpuKstacks_aligned : pgoff percpuKstacks = 0
  endDebug_le : kernbase ≤ roundUpPg endDebug
  bootstack_le : kernbase ≤ bootstack
  percpuKstacks_le : kernbase ≤ percpuKstacks
  percpuKstacks_end : percpuKstacks.toNat + ncpu * kstksize.toNat ≤ 2 ^ 64

/-- `PADDR(kva)`. -/
def paddrOf (kva : Word) : Pm Word := if kva < kernbase then throw .paddr else pure (kva - kernbase)

/-- The word of physical memory that a kernel address points to. -/
def kptr (kva : Word) : Ptr := (kva - kernbase).toNat / 8

/-- `memset(kva, 0, n)`, of whole words. -/
def memsetZero (kva : Word) (n : Nat) : Pm Unit := modify fun s =>
  s.withMem fun a => if kptr kva ≤ a ∧ a < kptr kva + n / 8 then 0 else s.mem a

/-- `boot_alloc(n)`, with its variable `nextfree` before and after. -/
def bootAlloc (endDebug nextfree : Word) (n : BitVec 32) : Pm (Word × Word) := do
  let nextfree := if nextfree = 0 then roundUpPg endDebug else nextfree
  let top := nextfree + n.setWidth 64
  if top < nextfree ∨ BitVec.ofNat 64 (← get).npages * 4096#64 + kernbase < top then
    throw .noMemory
  else
    return (nextfree, roundUpPg top)

/-- One round of `boot_map_region`. -/
def bootMapPage (pml4e : Ptr) (la pa : Word) (perm : BitVec 32) : Pm Unit := do
  match ← pml4eWalk (some pml4e) la true with
  | some pte => store pte (pteAddr pa ||| perm.signExtend 64 ||| pteP)
  | none => pure ()
  orUpper pml4e la (perm.signExtend 64 ||| pteP)

/-- `boot_map_region(pml4e, la, size, pa, perm)`. -/
def bootMapRegion (pml4e : Ptr) (la size pa : Word) (perm : BitVec 32) : Pm Unit :=
  (List.range ((size.toNat + (pgsize - 1)) / pgsize)).forM fun k =>
    bootMapPage pml4e (la + BitVec.ofNat 64 (k * pgsize)) (pa + BitVec.ofNat 64 (k * pgsize)) perm

/-- `kstacktop` of CPU `i`. -/
def kstacktopOf (i : Nat) : Word := kstacktop - (kstksize + kstkgap) * BitVec.ofNat 64 i

/-- `percpu_kstacks[i]`. -/
def KernelImage.kstack (k : KernelImage) (i : Nat) : Word :=
  k.percpuKstacks + kstksize * BitVec.ofNat 64 i

/-- `mem_init_mp`. -/
def memInitMp (k : KernelImage) (pml4e : Ptr) : Pm Unit :=
  (List.range ncpu).forM fun i => do
    bootMapRegion pml4e (kstacktopOf i - kstksize) kstksize (← paddrOf (k.kstack i)) 3#32

/-- The variables that `x64_vm_init` sets. -/
structure BootVars where
  bootPml4e : Word
  pages : Word
  envs : Word
  deriving DecidableEq

/-- The first part of `x64_vm_init`, after `i386_detect_memory`: the root table and the arrays are
allocated and cleared, and the free pages listed. -/
def bootArrays (k : KernelImage) (npagesBasemem : Nat) : Pm BootVars := do
  let npages := BitVec.ofNat 64 (← get).npages
  let (pml4e, nextfree) ← bootAlloc k.endDebug 0 4096#32
  memsetZero pml4e pgsize
  let _ ← paddrOf pml4e
  let n := npages * sizeofPageInfo
  let (pages, nextfree) ← bootAlloc k.endDebug nextfree (n.setWidth 32)
  modify fun s => { s with ppRef := fun _ => 0, ppLink := fun _ => none }
  let (envs, nextfree) ← bootAlloc k.endDebug nextfree (sizeofEnvs.setWidth 32)
  memsetZero envs sizeofEnvs.toNat
  let (nextfree, _) ← bootAlloc k.endDebug nextfree 0
  let pa ← paddrOf nextfree
  modify (pageInit ⟨npagesBasemem, ppn pa, k.pml4phys⟩)
  return ⟨pml4e, pages, envs⟩

/-- The second part of `x64_vm_init`; the permissions are `PTE_U`, `PTE_U|PTE_P` and
`PTE_W|PTE_P`. -/
def bootMaps (k : KernelImage) (v : BootVars) : Pm Unit := do
  let npages := BitVec.ofNat 64 (← get).npages
  let pml4e := kptr v.bootPml4e
  bootMapRegion pml4e upages (npages * sizeofPageInfo) (← paddrOf v.pages) 4#32
  bootMapRegion pml4e uenvs (roundUpPg sizeofEnvs) (← paddrOf v.envs) 5#32
  bootMapRegion pml4e (kstacktop - kstksize) kstksize (← paddrOf k.bootstack) 3#32
  bootMapRegion pml4e kernbase (npages * 4096#64) 0 3#32
  memInitMp k pml4e
  let pdpe ← kaddr (pteAddr (← load (pml4e + 1)))
  let _ ← kaddr (pteAddr (← load pdpe))

/-- `x64_vm_init`, after `i386_detect_memory`. -/
def x64VmInit (k : KernelImage) (npagesBasemem : Nat) : Pm BootVars := do
  let v ← bootArrays k npagesBasemem
  bootMaps k v
  return v

/-! ### What it leaves -/

/-- The pages below `n` that are free. -/
def BootInfo.free (b : BootInfo) (n : Nat) : List Nat := (List.range n).filter fun i => !b.inuse i

/-- The state of the loop after `n` rounds. -/
structure PageInitInv (b : BootInfo) (s₀ : Pmap) (n : Nat) (st : Pmap × Option Nat) : Prop where
  chain : Support.Chain st.1.ppLink st.1.pageFreeList (b.free n)
  unlinked : ∀ p, p ∉ b.free n → st.1.ppLink p = none
  last : st.2 = (b.free n).getLast?
  ref : ∀ p, st.1.ppRef p = if p < n ∧ b.inuse p then 1#16 else 0#16
  mem : st.1.mem = s₀.mem
  npages : st.1.npages = s₀.npages

variable {b : BootInfo} {s s₀ : Pmap} {n : Nat}

theorem BootInfo.free_succ (b : BootInfo) (n : Nat) :
    b.free (n + 1) = if b.inuse n then b.free n else b.free n ++ [n] := by
  rw [BootInfo.free, range_succ, filter_append, ← BootInfo.free]
  cases h : b.inuse n <;> simp [h]

theorem BootInfo.mem_free {p : Nat} : p ∈ b.free n ↔ p < n ∧ b.inuse p = false := by
  simp [BootInfo.free]

theorem PageInitInv.ref_mark {st : Pmap × Option Nat} (h : PageInitInv b s₀ n st) (p : Nat) :
    (st.1.mark n (b.inuse n)).ppRef p = if p < n + 1 ∧ b.inuse p then 1#16 else 0#16 := by
  show update st.1.ppRef n _ p = _
  by_cases e : p = n
  · subst e
    simp
  · have hlt : p < n + 1 ↔ p < n := by omega
    rw [update_of_ne e, h.ref p]
    simp only [hlt]

theorem PageInitInv.link_mark {st : Pmap × Option Nat} (h : PageInitInv b s₀ n st) {p : Nat}
    (hp : p ∉ b.free n) : (st.1.mark n (b.inuse n)).ppLink p = none := by
  by_cases e : p = n
  · subst e; exact update_self ..
  · exact (update_of_ne e ..).trans (h.unlinked p hp)

/-- **One round of the loop.** -/
theorem PageInitInv.round {st : Pmap × Option Nat} (h : PageInitInv b s₀ n st) :
    PageInitInv b s₀ (n + 1) (pageInitRound b st n) := by
  obtain ⟨s, last⟩ := st
  have hn : n ∉ b.free n := fun hc => by have := (BootInfo.mem_free.mp hc).1; omega
  have hfree := b.free_succ n
  have hchain : Support.Chain (s.mark n (b.inuse n)).ppLink s.pageFreeList (b.free n) := by
    refine Support.Chain.congr (fun q hq => update_of_ne ?_ _ _) h.chain
    rintro rfl
    exact hn hq
  unfold pageInitRound
  by_cases hu : b.inuse n = true
  · -- in use: nothing is linked
    rw [if_pos hu] at hfree
    rw [if_pos hu]
    exact ⟨hfree ▸ hchain, fun p hp => h.link_mark (hfree ▸ hp), hfree ▸ h.last, h.ref_mark,
      h.mem, h.npages⟩
  · rw [if_neg hu] at hfree
    rw [if_neg hu]
    cases hl : last with
    | none =>
      -- the first free page
      have hnil : b.free n = [] := List.getLast?_eq_none_iff.mp (h.last.symm.trans hl)
      rw [hnil, nil_append] at hfree
      refine ⟨?_, fun p _ => h.link_mark (by simp [hnil]), by rw [hfree]; rfl, h.ref_mark, h.mem,
        h.npages⟩
      rw [hfree]
      exact ⟨rfl, update_self ..⟩
    | some l =>
      have hlast : (b.free n).getLast? = some l := h.last.symm.trans hl
      refine ⟨?_, fun p hp => ?_, by rw [hfree, getLast?_concat], h.ref_mark, h.mem,
        h.npages⟩
      · rw [hfree]
        exact h.chain.snoc hn hlast
      · rw [hfree, mem_append, not_or] at hp
        have hne : p ≠ l := by rintro rfl; exact hp.1 (mem_of_getLast? hlast)
        exact (update_of_ne hne ..).trans (h.link_mark hp.1)

/-- **What `page_init` leaves**: the free pages in increasing order on the list, with count zero,
and every other page with count one. -/
theorem pageInit_spec (href : ∀ p, s.ppRef p = 0#16) (hlink : ∀ p, s.ppLink p = none)
    (hfree : s.pageFreeList = none) : ∃ last, PageInitInv b s s.npages (pageInit b s, last) := by
  have hloop : ∀ n, PageInitInv b s n ((List.range n).foldl (pageInitRound b) (s, none)) := by
    intro n
    induction n with
    | zero => exact ⟨hfree, fun p _ => hlink p, rfl, fun p => by simp [href], rfl, rfl⟩
    | succ n ih =>
      rw [range_succ, foldl_append]
      exact ih.round
  exact ⟨_, hloop s.npages⟩

end JosVmm
