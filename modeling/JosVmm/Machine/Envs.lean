import JosVmm.Machine.Kernel

/-!
# Machine — Environments

Allocation and release of environments (`kern/env.c`), and the two system calls of
`kern/syscall.c` that act on guests.  `sched_yield`, which `env_destroy` calls last, is a step of
its own.
-/

namespace JosVmm
open Support.Prog Function BitVec

/-- `NENV`. -/
def nenv : Nat := 1024

/-- `ENVX(envid)`. -/
def envx (envid : EnvId) : EnvIx := Fin.ofNat 1024 envid.toNat

/-- An element of `envs` as `x64_vm_init` clears it. -/
def zeroEnv : Env where
  envTf := {}
  envLink := none
  envId := 0
  envParentId := 0
  envType := .user
  envStatus := .free
  envRuns := 0
  envPml4e := none
  envCr3 := 0
  envPgfaultUpcall := 0
  envIpcRecving := false
  envVmxinfo := {}

/-- `env_init`; its loop writes each element once. -/
def envInit (k : Kernel) : Kernel := { k with
  envs := fun i => { k.envs i with
    envStatus := .free
    envLink := if h : i.val + 1 < 1024 then some ⟨i + 1, h⟩ else none }
  envFreeList := some 0 }

/-- The `env_id` the next environment in slot `e` gets, from the previous one. -/
def newEnvId (old : EnvId) (e : EnvIx) : EnvId :=
  let generation := (old + 4096#32) &&& ~~~1023#32
  (if generation.sle 0#32 then 4096#32 else generation) ||| BitVec.ofNat 32 e

/-- `envid2env`: the pointer it stores, or the error. -/
def envid2env (envid : EnvId) (checkperm : Bool) : Km (Except Err (Option EnvIx)) := do
  let k ← get
  if envid = 0 then
    return .ok k.curenv
  else
    let e := envx envid
    if (k.envs e).envStatus = .free ∨ (k.envs e).envId ≠ envid then
      return .error .badEnv
    else if checkperm = true ∧ k.curenv ≠ some e then
      let cur ← deref k.curenv
      if (k.envs e).envParentId ≠ (k.envs cur).envId then
        return .error .badEnv
      else
        return .ok (some e)
    else
      return .ok (some e)

/-- `PADDR(kva)`. -/
def paddr (kva : Option Ptr) : Pm Word :=
  match kva with
  | none => throw .paddr
  | some p => pure (BitVec.ofNat 64 (8 * p))

/-- A pointer to a table; a null pointer faults when it is followed. -/
def table (kva : Option Ptr) : Pm Ptr :=
  match kva with
  | none => throw .pageFault
  | some p => pure p

/-- A 4-byte store: `a` counts in units of 4 bytes. -/
def storeDword (a : Nat) (d : BitVec 32) : Pm Unit := do
  let w ← load (a / 2)
  store (a / 2) (if a % 2 = 0 then (w &&& 0xFFFFFFFF00000000#64) ||| d.setWidth 64
    else (w &&& 0xFFFFFFFF#64) ||| (d.setWidth 64 <<< 32))

/-- `memmove(kva, …)` of a sequence of 4-byte values. -/
def copyDwords (kva : Ptr) (l : List (BitVec 32)) : Pm Unit :=
  l.zipIdx.forM fun (d, i) => storeDword (2 * kva + i) d

/-- The 4-byte value at `a`, which counts in units of 4 bytes. -/
def dwordAt (m : Nat → Word) (a : Nat) : BitVec 32 :=
  if a % 2 = 0 then (m (a / 2)).setWidth 32 else (m (a / 2) >>> 32).setWidth 32

theorem highMask_bit : ∀ i < 64, (0xFFFFFFFF00000000#64).getLsbD i = decide (32 ≤ i) := by decide

theorem lowMask_bit : ∀ i < 64, (0xFFFFFFFF#64).getLsbD i = decide (i < 32) := by decide

section

variable (w : Word) (d : BitVec 32)
include w d

theorem setLow_low : ((w &&& 0xFFFFFFFF00000000#64) ||| d.setWidth 64 : Word).setWidth 32 = d := by
  refine eq_of_getLsbD_eq fun i hi => ?_
  simp only [getLsbD_setWidth, getLsbD_or, getLsbD_and, highMask_bit i (by omega)]
  grind

theorem setLow_high :
    (((w &&& 0xFFFFFFFF00000000#64) ||| d.setWidth 64 : Word) >>> 32).setWidth 32 =
      (w >>> 32).setWidth 32 := by
  refine eq_of_getLsbD_eq fun i hi => ?_
  simp only [getLsbD_setWidth, getLsbD_ushiftRight, getLsbD_or,
    getLsbD_and, highMask_bit (32 + i) (by omega), getLsbD_of_ge d (32 + i) (by omega)]
  grind

theorem setHigh_low :
    ((w &&& 0xFFFFFFFF#64) ||| (d.setWidth 64 <<< 32) : Word).setWidth 32 = w.setWidth 32 := by
  refine eq_of_getLsbD_eq fun i hi => ?_
  simp only [getLsbD_setWidth, getLsbD_shiftLeft, getLsbD_or, getLsbD_and, lowMask_bit i (by omega)]
  grind

theorem setHigh_high :
    (((w &&& 0xFFFFFFFF#64) ||| (d.setWidth 64 <<< 32) : Word) >>> 32).setWidth 32 = d := by
  refine eq_of_getLsbD_eq fun i hi => ?_
  simp only [getLsbD_setWidth, getLsbD_ushiftRight, getLsbD_shiftLeft,
    getLsbD_or, getLsbD_and, lowMask_bit (32 + i) (by omega)]
  grind

end

/-- A 4-byte store. -/
theorem storeDword_run {s : Pmap} {a : Nat} (h : a / 2 < s.npages * 512) (d : BitVec 32) : ∃ w,
    (storeDword a d).run s = .ok ((), s.setWord (a / 2) w) ∧
      ∀ c, dwordAt (s.setWord (a / 2) w).mem c = if c = a then d else dwordAt s.mem c := by
  rw [storeDword, bind_ok (load_run h)]
  refine ⟨_, store_run h _, fun c => ?_⟩
  rw [dwordAt, dwordAt, Pmap.setWord_mem, update_apply]
  by_cases hc : c / 2 = a / 2
  · rw [if_pos hc, hc]
    by_cases ha : a % 2 = 0
    · rw [if_pos ha]
      by_cases hce : c % 2 = 0
      · rw [if_pos hce, if_pos (by omega), setLow_low]
      · rw [if_neg hce, if_neg (by omega), if_neg hce, setLow_high]
    · rw [if_neg ha]
      by_cases hce : c % 2 = 0
      · rw [if_pos hce, if_neg (by omega), if_pos hce, setHigh_low]
      · rw [if_neg hce, if_pos (by omega), setHigh_high]
  · rw [if_neg hc, if_neg (show c ≠ a from fun h => hc (by rw [h]))]

/-- A copy of values into the page `p`, from its value `k` on. -/
theorem copyDwords_run {p : Nat} : ∀ (l : List (BitVec 32)) (k : Nat) {s : Pmap}, p < s.npages →
    k + l.length ≤ 1024 → ∃ w,
    ((l.zipIdx k).forM fun (d, i) => storeDword (2 * (p * 512) + i) d).run s =
      .ok ((), s.withMem w) ∧
    (∀ a, a / 512 ≠ p → w a = s.mem a) ∧
    ∀ i, dwordAt w (2 * (p * 512) + i) =
      if k ≤ i then (l[i - k]?).getD (dwordAt s.mem (2 * (p * 512) + i))
      else dwordAt s.mem (2 * (p * 512) + i)
  | [], k, s, _, _ => ⟨s.mem, rfl, fun _ _ => rfl, fun i => by simp⟩
  | d :: l, k, s, hp, hk => by
    rw [List.length_cons] at hk
    have hpage : (2 * (p * 512) + k) / 2 / 512 = p := by omega
    obtain ⟨w, hw, hd⟩ := storeDword_run (s := s) (a := 2 * (p * 512) + k) (by omega) d
    obtain ⟨w', hw', hag, hds⟩ := copyDwords_run l (k + 1)
      (s := s.setWord ((2 * (p * 512) + k) / 2) w) hp (by omega)
    refine ⟨w', ?_, fun a ha => ?_, fun i => ?_⟩
    · rw [List.zipIdx_cons, List.forM_eq_forM, List.forM_cons, bind_ok hw, ← List.forM_eq_forM, hw']
      rfl
    · rw [hag a ha]
      exact Pmap.setWord_of_ne fun e => ha (by rw [e, hpage])
    · rw [hds i, hd]
      rcases Nat.lt_trichotomy i k with h | rfl | h
      · rw [if_neg (by omega), if_neg (by omega), if_neg (by omega)]
      · rw [if_neg (by omega), if_pos rfl, if_pos (Nat.le_refl _), Nat.sub_self]
        rfl
      · rw [if_pos (by omega), if_neg (by omega), if_pos (by omega),
          show i - k = (i - (k + 1)) + 1 by omega, List.getElem?_cons_succ]

/-! ### User environments -/

/-- `env_setup_vm`. -/
def envSetupVm (e : EnvIx) : Km (Except Err Unit) := do
  match ← onPmap (pageAlloc true) with
  | none => return .error .noMem
  | some p =>
    onPmap (incRef p)
    let kva ← onPmap (page2kva p)
    modifyEnv e fun v => { v with envPml4e := some kva, envCr3 := page2pa p }
    let boot := (← get).bootPml4e
    onPmap do
      zeroPage kva
      store (kva + 1) (← load (boot + 1))
      -- `PML4(UVPT)` is 2
      store (kva + 2) (page2pa p ||| pteP ||| pteU)
    return .ok ()

/-- `env_alloc`: the new environment. -/
def envAlloc (parentId : EnvId) : Km (Except Err EnvIx) := do
  match (← get).envFreeList with
  | none => return .error .noFreeEnv
  | some e =>
    match ← envSetupVm e with
    | .error r => return .error r
    | .ok () =>
      modifyEnv e fun v => { v with
        envId := newEnvId v.envId e
        envParentId := parentId
        envType := .user
        envStatus := .runnable
        envRuns := 0
        envTf := { tfDs := 0x23, tfEs := 0x23, tfSs := 0x23, tfRsp := 0xef7fe000,
                   tfCs := 0x1b, tfEflags := 0x200 }
        envPgfaultUpcall := 0
        envIpcRecving := false }
      modify fun k => { k with envFreeList := (k.envs e).envLink }
      return .ok e

/-- The loop of `env_free` over the pages of one page table. -/
def flushTable (tbl pt : Ptr) (pdpeno pdeno : Nat) : Pm Unit :=
  -- `PTX(~0)` is 511, so the last entry of a table is not looked at
  (List.range 511).forM fun pteno => do
    if (← load (pt + pteno)) &&& pteP ≠ 0 then
      pageRemove (some tbl) (BitVec.ofNat 64 (pdpeno * 2 ^ 30 + pdeno * 2 ^ 21 + pteno * 2 ^ 12))

/-- The loop of `env_free` over the page tables of one page directory. -/
def flushDir (tbl pgdir : Ptr) (pdpeno : Nat) : Pm Unit :=
  -- `PDX(UTOP)` is 4 and `PDX(0xFFFFFFFF)` is 511
  (List.range (if pdpeno = 3 then 4 else 511)).forM fun pdeno => do
    let pde ← load (pgdir + pdeno)
    if pde &&& pteP ≠ 0 then
      flushTable tbl (← kaddr (pteAddr pde)) pdpeno pdeno
      store (pgdir + pdeno) 0
      pageDecref (← pa2page (pteAddr pde))

/-- The part of `env_free` that releases the address space rooted at `tbl`. -/
def flushUser (tbl : Ptr) : Pm Unit := do
  let pml4e ← load tbl
  if pml4e &&& pteP ≠ 0 then
    let pdpt ← kaddr (pteAddr pml4e)
    (List.range 4).forM fun pdpeno => do
      let pdpe ← load (pdpt + pdpeno)
      if pdpe &&& pteP ≠ 0 then
        flushDir tbl (← kaddr (pteAddr pdpe)) pdpeno
        let pa := pteAddr (← load (pdpt + pdpeno))
        store (pdpt + pdpeno) 0
        pageDecref (← pa2page pa)
    pageDecref (← pa2page (pteAddr (← load tbl)))
  store tbl 0

/-- The last lines of `env_free` and `env_guest_free`. -/
def releaseEnv (e : EnvIx) : Km Unit := do
  let link := (← get).envFreeList
  modifyEnv e fun v => { v with envStatus := .free, envLink := link }
  modify fun k => { k with envFreeList := some e }

/-! ### Guests -/

/-- `page_decref(pa2page(PADDR(kva)))`. -/
def decrefKva (kva : Option Ptr) : Pm Unit := do
  pageDecref (← pa2page (← paddr kva))

/-- The page of `vmx_init_vmcs`: zeroed, counted, and starting with the VMCS revision id. -/
def vmcsRegion (vmcsRevId : BitVec 32) : Pm (Option Nat) := do
  match ← pageAlloc true with
  | none => return none
  | some p =>
    incRef p
    storeDword (2 * (← page2kva p)) vmcsRevId
    return some p

/-- `vmx_init_vmcs`.  The length field it asserts on has 12 bits. -/
def vmxInitVmcs : Km (Option Nat) := do
  let vmxBasicMsr := (← get).cpu.msr 0x480#32
  onPmap (vmcsRegion (vmxBasicMsr.setWidth 32))

/-- A zeroed page, counted once; with none left the pages `undo` are released again. -/
def countedPage (undo : List Nat) : Pm (Option Nat) := do
  match ← pageAlloc true with
  | none =>
    undo.forM pageDecref
    return none
  | some p =>
    incRef p
    return some p

/-- `memset(p, 0, sizeof(struct PageInfo))`. -/
def clearPageInfo (p : Nat) : Pm Unit := modify fun s =>
  { s with ppRef := update s.ppRef p 0, ppLink := update s.ppLink p none }

/-- The EPT root of a new guest. -/
def guestRoot (e : EnvIx) : Km (Option Nat) := do
  match ← onPmap (pageAlloc true) with
  | none => return none
  | some p =>
    onPmap (clearPageInfo p)
    onPmap (incRef p)
    let kva ← onPmap (page2kva p)
    modifyEnv e fun v => { v with envPml4e := some kva, envCr3 := page2pa p }
    return some p

/-- The VMCS of a new guest with the root `p`.  `vmx_init_vmcs` has counted the page already. -/
def guestVmcs (e : EnvIx) (p : Nat) : Km (Option Nat) := do
  match ← vmxInitVmcs with
  | none =>
    onPmap (pageDecref p)
    return none
  | some q =>
    onPmap (incRef q)
    let kva ← onPmap (page2kva q)
    modifyEnv e fun v => { v with envVmxinfo.vmcs := some kva }
    return some q

/-- Another page of a new guest, at `kva`, recorded by `install kva`. -/
def guestPage (e : EnvIx) (undo : List Nat) (install : Ptr → VmxGuestInfo → VmxGuestInfo) :
    Km (Option Nat) := do
  match ← onPmap (countedPage undo) with
  | none => return none
  | some p =>
    let kva ← onPmap (page2kva p)
    modifyEnv e fun v => { v with envVmxinfo := install kva v.envVmxinfo }
    return some p

/-- The page for the MSR load and store areas, one half each. -/
def msrAreas (kva : Ptr) (v : VmxGuestInfo) : VmxGuestInfo :=
  { v with msrHostArea := some kva, msrGuestArea := some (kva + 256) }

def ioBitmapA (kva : Ptr) (v : VmxGuestInfo) : VmxGuestInfo := { v with ioBmapA := some kva }

def ioBitmapB (kva : Ptr) (v : VmxGuestInfo) : VmxGuestInfo := { v with ioBmapB := some kva }

/-- The page allocations of `env_guest_alloc` for the environment `e`, in order. -/
def guestPages (e : EnvIx) : Km (Except Err Unit) := do
  match ← guestRoot e with
  | none => return .error .noMem
  | some p =>
    match ← guestVmcs e p with
    | none => return .error .noMem
    | some q =>
      match ← guestPage e [p, q] msrAreas with
      | none => return .error .noMem
      | some r =>
        match ← guestPage e [p, q, r] ioBitmapA with
        | none => return .error .noMem
        | some s =>
          match ← guestPage e [p, q, r, s] ioBitmapB with
          | none => return .error .noMem
          | some _ => return .ok ()

/-- `env_guest_alloc`. -/
def envGuestAlloc (parentId : EnvId) : Km (Except Err EnvIx) := do
  match (← get).envFreeList with
  | none => return .error .noFreeEnv
  | some e =>
    modifyEnv e fun v => { v with envVmxinfo := {} }
    match ← guestPages e with
    | .error r => return .error r
    | .ok () =>
      let vcpu := (← get).vcpuCount
      modifyEnv e fun v => { v with
        envId := newEnvId v.envId e
        envParentId := parentId
        envType := .guest
        envStatus := .runnable
        envRuns := 0
        envVmxinfo.vcpunum := vcpu
        envTf := {}
        envPgfaultUpcall := 0
        envIpcRecving := false }
      modify fun k => { k with
        vcpuCount := k.vcpuCount + 1
        envFreeList := (k.envs e).envLink }
      return .ok e

/-- The part of `env_guest_free` that releases the pages of the guest. -/
def releaseGuest (v : Env) : Pm Unit := do
  decrefKva v.envVmxinfo.vmcs
  decrefKva v.envVmxinfo.msrHostArea
  decrefKva v.envVmxinfo.ioBmapA
  decrefKva v.envVmxinfo.ioBmapB
  freeGuestMem (← table v.envPml4e)
  pageDecref (← pa2page v.envCr3)

/-- `env_guest_free`. -/
def envGuestFree (e : EnvIx) : Km Unit := do
  onPmap (releaseGuest (← getEnv e))
  modifyEnv e fun v => { v with envPml4e := none, envCr3 := 0 }
  releaseEnv e

/-- `env_free`. -/
def envFree (e : EnvIx) : Km Unit := do
  let v ← getEnv e
  if v.envType = .guest then
    envGuestFree e
  else
    onPmap do flushUser (← table v.envPml4e)
    modifyEnv e fun v => { v with envPml4e := none, envCr3 := 0 }
    onPmap do pageDecref (← pa2page v.envCr3)
    releaseEnv e

/-- `if (curenv == e) curenv = NULL`. -/
def Kernel.leave (k : Kernel) (e : EnvIx) : Kernel :=
  if k.curenv = some e then { k with curenv := none } else k

/-- `env_destroy`, up to the call of `sched_yield`. -/
def envDestroy (e : EnvIx) : Km Unit := do
  let k ← get
  if (k.envs e).envStatus = .running ∧ k.curenv ≠ some e then
    modifyEnv e fun v => { v with envStatus := .dying }
  else
    envFree e
    modify fun k => k.leave e

/-! ### System calls -/

/-- `BIT(val, x) == 1`. -/
def bit {w : Nat} (val : BitVec w) (x : Nat) : Bool := (val >>> x) &&& 1 == 1

/-- `vmx_check_support`. -/
def vmxCheckSupport : Km Bool := do return bit ((← get).cpu.cpuid 1#32).ecx 5

/-- `vmx_check_ept`. -/
def vmxCheckEpt : Km Bool := do
  let k ← get
  return bit (k.cpu.msr 0x482#32) 63 && bit (k.cpu.msr 0x48B#32) 33

/-- What `sys_env_mkguest` sets in a new guest. -/
def configureGuest (e : EnvIx) (gphysz gRIP : Word) : Km Unit :=
  modifyEnv e fun v => { v with
    envStatus := .notRunnable
    envVmxinfo.physSz := gphysz
    envTf.tfRip := gRIP }

/-- `sys_env_mkguest`: the id of the new guest. -/
def sysEnvMkguest (gphysz gRIP : Word) : Km (Except Err EnvId) := do
  if !(← vmxCheckSupport) then
    return .error .noVmx
  else if !(← vmxCheckEpt) then
    return .error .noEpt
  else
    let cur ← deref (← get).curenv
    match ← envGuestAlloc (← getEnv cur).envId with
    | .error r => return .error r
    | .ok e =>
      configureGuest e gphysz gRIP
      return .ok (← getEnv e).envId

/-- `UTOP`. -/
def utop : Word := 0x8000800000#64

/-- The addresses below `UTOP` are in the ranges of two entries of the root. -/
theorem pml4_of_lt_utop {va : Word} (h : va < utop) : pml4 va = 0 ∨ pml4 va = 1 := by
  have hlt : va.toNat < 0x8000800000 := BitVec.lt_def.mp h
  rw [pml4, Fin.ext_iff, Fin.ext_iff, field_val]
  omega

/-- `sys_ept_map`, once both environments are found. -/
def eptMap (src g : Env) (srcva guestPa : Word) (perm : BitVec 32) : Pm (Except Err Unit) := do
  match ← pageLookup src.envPml4e srcva with
  | none => return .error .inval
  | some (map, pte) =>
    if perm = 0 ∨ (perm &&& 2#32 ≠ 0 ∧ (← load pte) &&& pteW = 0) then
      return .error .inval
    else
      match ← eptPageInsert g.envPml4e map guestPa perm false with
      | .error r => return .error r
      | .ok () =>
        incRef map
        return .ok ()

/-- `sys_ept_map`. -/
def sysEptMap (srcenvid : EnvId) (srcva : Word) (guest : EnvId) (guestPa : Word)
    (perm : BitVec 32) : Km (Except Err Unit) := do
  match ← envid2env srcenvid true with
  | .error r => return .error r
  | .ok srcenv =>
    match ← envid2env guest true with
    | .error r => return .error r
    | .ok guestenv =>
      let g ← getEnv (← deref guestenv)
      if utop ≤ srcva ∨ pgoff srcva ≠ 0 ∨ pgoff guestPa ≠ 0 ∨
          g.envVmxinfo.physSz ≤ guestPa then
        return .error .inval
      else
        let src ← getEnv (← deref srcenv)
        onPmap (eptMap src g srcva guestPa perm)

end JosVmm
