import JosVmm.Machine.Icode

/-!
# Machine — VM exits

The exit handlers of `vmm/vmexits.c` and `vmexit` of `vmm/vmx.c`, over the current VMCS.  A handler
is given the environment whose trapframe and guest info the source passes to it.  `sched_yield`,
which `vmexit` calls last, is a step of its own.

What the source takes from elsewhere is a parameter: the contents of the uninitialised `mbinfo` on
the stack, and the image of the shell that `VMX_VMCALL_BACKTOHOST` starts.
-/

namespace JosVmm
open Support Support.Prog Function

/-! ### VMCS access -/

/-- `vmcs_read64(field)`. -/
def vmcsRead64 (f : VmcsField) : Km Word := do
  let cpu := (← get).cpu
  match cpu.vmptr with
  | none => throw .noVmcs
  | some p => return (cpu.vmcs p).field f

/-- `vmcs_read32(field)`. -/
def vmcsRead32 (f : VmcsField) : Km (BitVec 32) := do return (← vmcsRead64 f).setWidth 32

/-- One field of a VMCS. -/
def Vmcs.setField (v : Vmcs) (f : VmcsField) (w : Word) : Vmcs :=
  { v with field := update v.field f w }

/-- `vmcs_write64(field, value)`. -/
def vmcsWrite64 (f : VmcsField) (w : Word) : Km Unit := do
  let k ← get
  match k.cpu.vmptr with
  | none => throw .noVmcs
  | some p => set { k with
      cpu.vmcs := update k.cpu.vmcs p ((k.cpu.vmcs p).setField f w)
      cpu.vmwrites := (p, f, w) :: k.cpu.vmwrites }

/-- `vmcs_write32(field, value)`. -/
def vmcsWrite32 (f : VmcsField) (w : BitVec 32) : Km Unit := vmcsWrite64 f (w.setWidth 64)

/-- A field of the VMCS on page `p`, with the history. -/
def Kernel.vmwrite (k : Kernel) (p : Nat) (f : VmcsField) (w : Word) : Kernel :=
  { k with
    cpu.vmcs := update k.cpu.vmcs p ((k.cpu.vmcs p).setField f w)
    cpu.vmwrites := (p, f, w) :: k.cpu.vmwrites }

theorem vmcsRead64_run {k : Kernel} {p : Nat} (h : k.cpu.vmptr = some p) (f : VmcsField) :
    (vmcsRead64 f).run k = .ok ((k.cpu.vmcs p).field f, k) := by
  rw [vmcsRead64, bind_get]
  dsimp only
  rw [h]
  rfl

theorem vmcsRead32_run {k : Kernel} {p : Nat} (h : k.cpu.vmptr = some p) (f : VmcsField) :
    (vmcsRead32 f).run k = .ok (((k.cpu.vmcs p).field f).setWidth 32, k) := by
  rw [vmcsRead32, bind_ok (vmcsRead64_run h f)]
  rfl

theorem vmcsRead64_keeps {P : Kernel → Prop} {f : VmcsField} :
    Ensures P (vmcsRead64 f) fun _ => P := by
  refine .bind .get fun k => ?_
  dsimp only
  split
  · exact .throw
  · exact .skip

theorem vmcsRead32_keeps {P : Kernel → Prop} {f : VmcsField} :
    Ensures P (vmcsRead32 f) fun _ => P := by
  exact .bind vmcsRead64_keeps fun _ => .skip

theorem vmcsWrite64_run {k : Kernel} {p : Nat} (h : k.cpu.vmptr = some p) (f : VmcsField)
    (w : Word) : (vmcsWrite64 f w).run k = .ok ((), k.vmwrite p f w) := by
  rw [vmcsWrite64, bind_get]
  split
  · rename_i hn
    rw [h] at hn
    cases hn
  · rename_i q hq
    obtain rfl : q = p := Option.some.inj (hq.symm.trans h)
    rfl

theorem vmcsWrite32_run {k : Kernel} {p : Nat} (h : k.cpu.vmptr = some p) (f : VmcsField)
    (w : BitVec 32) : (vmcsWrite32 f w).run k = .ok ((), k.vmwrite p f (w.setWidth 64)) :=
  vmcsWrite64_run h f _

theorem vmcsWrite64_eq_ok {k k' : Kernel} {f : VmcsField} {w : Word} {u : Unit}
    (h : (vmcsWrite64 f w).run k = .ok (u, k')) :
    ∃ p, k.cpu.vmptr = some p ∧ k' = k.vmwrite p f w := by
  rcases Option.eq_none_or_eq_some k.cpu.vmptr with hn | ⟨p, hp⟩
  · rw [vmcsWrite64, bind_get] at h
    split at h
    · cases h
    · rename_i q hq
      rw [hn] at hq
      cases hq
  · rw [vmcsWrite64_run hp] at h
    cases h
    exact ⟨p, hp, rfl⟩

theorem Kernel.vmwrite_launch (k : Kernel) (p q : Nat) (f : VmcsField) (w : Word) :
    ((k.vmwrite p f w).cpu.vmcs q).launch = (k.cpu.vmcs q).launch := by
  change (update k.cpu.vmcs p ((k.cpu.vmcs p).setField f w) q).launch = _
  rw [update_apply]
  split
  · rename_i hq
    rw [hq]
    rfl
  · rfl

@[simp] theorem Vmcs.setField_field (v : Vmcs) (f g : VmcsField) (w : Word) :
    (v.setField f w).field g = if g = f then w else v.field g :=
  update_apply ..

theorem Kernel.vmwrite_field (k : Kernel) (p q : Nat) (f g : VmcsField) (w : Word) :
    ((k.vmwrite p f w).cpu.vmcs q).field g =
      if q = p ∧ g = f then w else (k.cpu.vmcs q).field g := by
  change (update k.cpu.vmcs p ((k.cpu.vmcs p).setField f w) q).field g = _
  rw [update_apply]
  by_cases hq : q = p
  · rw [if_pos hq, Vmcs.setField_field, hq]
    simp
  · rw [if_neg hq, if_neg fun h => hq h.1]

/-! ### EPT violations -/

/-- `CGA_BUF`. -/
def cgaBuf : Word := 0xB8000#64

/-- The page of the CGA buffer. -/
def cgaPage : Nat := 0xB8

/-- `IOPHYSMEM`. -/
def iophysmem : Word := 0xA0000#64

/-- `EXTPHYSMEM`. -/
def extphysmem : Word := 0x100000#64

/-- `assert(r >= 0)` on the result of an insertion. -/
def assertOk (r : Except Err Unit) : Pm Unit :=
  match r with
  | .ok () => pure ()
  | .error _ => throw .assertFailed

/-- `handle_eptviolation` for a fault at `gpa`. -/
def eptFault (eptrt : Option Ptr) (physSz gpa : Word) : Pm Bool := do
  if gpa < iophysmem ∨ (extphysmem ≤ gpa ∧ gpa < physSz) then
    match ← pageAlloc false with
    | none => return false
    | some p =>
      assertOk (← eptPageInsert eptrt p (roundDownPg gpa) (epteFull.setWidth 32) false)
      return true
  else if cgaBuf ≤ gpa ∧ gpa < cgaBuf + 4096#64 then
    assertOk (← eptPageInsert eptrt (← pa2page cgaBuf) cgaBuf (epteFull.setWidth 32) false)
    return true
  else
    return false

/-- `handle_eptviolation`. -/
def handleEptviolation (eptrt : Option Ptr) (ginfo : VmxGuestInfo) : Km Bool := do
  let gpa ← vmcsRead64 .guestPhysicalAddr
  onPmap (eptFault eptrt ginfo.physSz gpa)

/-! ### The memory map of a guest -/

/-- `multiboot_map_addr`. -/
def multibootMapAddr : Word := 0x6000#64

/-- One `memory_map_t`. -/
def memoryMap (base length : Word) (type : BitVec 32) : List (BitVec 32) :=
  [20#32, base.setWidth 32, (base >>> 32).setWidth 32, length.setWidth 32,
    (length >>> 32).setWidth 32, type]

/-- `boot_map`: low memory, the I/O hole and the rest. -/
def bootMap (physSz : Word) : List (BitVec 32) :=
  memoryMap 0 iophysmem 1#32 ++
  memoryMap iophysmem (extphysmem - iophysmem) 2#32 ++
  memoryMap extphysmem (physSz - extphysmem) 1#32

/-- `mbinfo`: three of its 13 fields are set, the others hold what was on the stack. -/
def mbinfo (stack : Fin 13 → BitVec 32) : List (BitVec 32) :=
  List.ofFn fun i =>
    if i = 0 then 0x40#32
    else if i = 11 then 72#32
    else if i = 12 then multibootMapAddr.setWidth 32 + 52#32
    else stack i

/-- The `VMX_VMCALL_MBMAP` case of `handle_vmcall`, up to the registers; `stack` is what
`mbinfo` holds before. -/
def mbmap (stack : Fin 13 → BitVec 32) (eptrt : Option Ptr) (physSz : Word) : Pm Bool := do
  match ← pageAlloc false with
  | none => return false
  | some pp =>
    incRef pp
    let hostVa ← page2kva pp
    copyDwords hostVa (mbinfo stack ++ bootMap physSz)
    let _ ← eptPageInsert eptrt pp multibootMapAddr (epteFull.setWidth 32) true
    return true

/-- The `VMX_VMCALL_MBMAP` case of `handle_vmcall` for the guest `e`. -/
def vmcallMbmap (stack : Fin 13 → BitVec 32) (e : EnvIx) : Km Bool := do
  let v ← getEnv e
  let handled ← onPmap (mbmap stack v.envPml4e v.envVmxinfo.physSz)
  if handled then
    modifyEnv e fun v => { v with envTf.tfRegs.regRbx := multibootMapAddr }
  return handled

/-! ### Interrupts -/

/-- `VMCS_PROC_BASED_VMEXEC_CTL_INTRWINEXIT`. -/
def intrwinexit : BitVec 32 := 0x4#32

/-- `handle_interrupts`. -/
def handleInterrupts (hostVector : BitVec 32) : Km Bool := do
  let rflags ← vmcsRead64 .guestRflags
  if rflags &&& 0x200#64 = 0 then
    let ctls ← vmcsRead32 .procBasedCtls
    vmcsWrite32 .procBasedCtls (ctls ||| intrwinexit)
  else
    vmcsWrite32 .vmentryInterruptionInfo hostVector
  return true

/-- `handle_interrupt_window`. -/
def handleInterruptWindow (hostVector : BitVec 32) : Km Bool := do
  let ctls ← vmcsRead32 .procBasedCtls
  vmcsWrite32 .procBasedCtls (ctls &&& ~~~intrwinexit)
  vmcsWrite32 .vmentryInterruptionInfo hostVector
  return true

/-! ### Emulated instructions -/

/-- `tf->tf_rip += vmcs_read32(VMCS_32BIT_VMEXIT_INSTRUCTION_LENGTH)`. -/
def skipInstruction (e : EnvIx) : Km Unit := do
  let length ← vmcsRead32 .vmexitInstructionLength
  modifyEnv e fun v => { v with envTf.tfRip := v.envTf.tfRip + length.setWidth 64 }

/-- The registers of the trapframe of `e`. -/
def modifyRegs (e : EnvIx) (f : PushRegs → PushRegs) : Km Unit :=
  modifyEnv e fun v => { v with envTf.tfRegs := f v.envTf.tfRegs }

/-- `find_msr_in_region`.  The loop does not advance `entry`. -/
def findMsrInRegion (msrIdx : BitVec 32) (area : Ptr) : Nat → Pm (Option Ptr)
  | 0 => return none
  | n + 1 => do
    if (← load area).setWidth 32 = msrIdx then
      return some area
    else
      findMsrInRegion msrIdx area n

/-- `EFER_MSR`. -/
def eferMsr : Word := 0xC0000080#64

/-- The entry of `EFER` in the guest's area, which `handle_rdmsr` and `handle_wrmsr` assert. -/
def eferEntry (ginfo : VmxGuestInfo) : Pm Ptr := do
  match ← findMsrInRegion (eferMsr.setWidth 32) (← table ginfo.msrGuestArea)
      ginfo.msrCount.toInt.toNat with
  | none => throw .assertFailed
  | some entry => return entry

/-- `handle_rdmsr`. -/
def handleRdmsr (e : EnvIx) : Km Bool := do
  let v ← getEnv e
  if v.envTf.tfRegs.regRcx = eferMsr then
    let entry ← onPmap (eferEntry v.envVmxinfo)
    let val ← onPmap (load (entry + 1))
    modifyRegs e fun r => { r with regRdx := val <<< 32, regRax := val &&& 0xFFFFFFFF#64 }
    skipInstruction e
    return true
  else
    return false

/-- `EFER_LME`. -/
def eferLme : Nat := 8

/-- `VMCS_VMENTRY_x64_GUEST`. -/
def vmentryX64Guest : BitVec 32 := 0x200#32

/-- `handle_wrmsr`. -/
def handleWrmsr (e : EnvIx) : Km Bool := do
  let v ← getEnv e
  let r := v.envTf.tfRegs
  if r.regRcx = eferMsr then
    let entry ← onPmap (eferEntry v.envVmxinfo)
    let curVal ← onPmap (load (entry + 1))
    let newVal := (r.regRdx <<< 32) ||| r.regRax
    if bit curVal eferLme = false ∧ bit newVal eferLme = true then
      let entryCtls ← vmcsRead32 .vmentryControls
      vmcsWrite32 .vmentryControls (entryCtls ||| vmentryX64Guest)
    onPmap (store (entry + 1) newVal)
    skipInstruction e
    return true
  else
    return false

/-- What the data port gives for the index `port`: the sizes of base and extended memory in
kilobytes, a byte at a time.  `phys_sz` is signed. -/
def nvramRead (physSz : Word) (port : BitVec 32) : Option Word :=
  let extmem := physSz.sdiv 1024#64 - 1024#64
  -- `NVRAM_BASELO`, `NVRAM_BASEHI`, `NVRAM_EXTLO` and `NVRAM_EXTHI`
  if port = 0x15#32 then some (640#64 &&& 0xFF#64)
  else if port = 0x16#32 then some ((640#64 >>> 8) &&& 0xFF#64)
  else if port = 0x17#32 then some (extmem &&& 0xFF#64)
  else if port = 0x18#32 then some (extmem.sshiftRight 8 &&& 0xFF#64)
  else none

/-- `IO_RTC`. -/
def ioRtc : Word := 0x70#64

/-- `handle_ioinstr`. -/
def handleIoinstr (e : EnvIx) : Km Bool := do
  let qualification ← vmcsRead64 .vmexitQualification
  let portNumber := (qualification >>> 16) &&& 0xFFFF#64
  let isIn := bit qualification 3
  let v ← getEnv e
  if portNumber = ioRtc ∧ isIn = false then
    modify fun k => { k with portIortc := v.envTf.tfRegs.regRax.setWidth 32 }
    skipInstruction e
    return true
  else if portNumber = ioRtc + 1#64 ∧ isIn = true then
    match nvramRead v.envVmxinfo.physSz (← get).portIortc with
    | none => return false
    | some rax =>
      modifyRegs e fun r => { r with regRax := rax }
      skipInstruction e
      return true
  else
    return false

/-- `handle_cpuid`. -/
def handleCpuid (e : EnvIx) : Km Bool := do
  let v ← getEnv e
  let leaf := v.envTf.tfRegs.regRax.setWidth 32
  let c := (← get).cpu.cpuid leaf
  let ecx := if leaf = 1#32 then c.ecx &&& ~~~32#32 else c.ecx
  modifyRegs e fun r => { r with
    regRax := c.eax.setWidth 64
    regRbx := c.ebx.setWidth 64
    regRcx := ecx.setWidth 64
    regRdx := c.edx.setWidth 64 }
  skipInstruction e
  return true

/-! ### Calls of the guest -/

/-- `VMX_VMCALL_BACKTOHOST`: the guest waits, and a new shell is started. -/
def vmcallBacktohost (userSh : Image) : Km Unit := do
  let cur ← deref (← get).curenv
  modifyEnv cur fun v => { v with envStatus := .notRunnable }
  envCreate userSh .user

/-- `handle_vmcall`.  The two cases that send and receive messages call `syscall`, which panics
first; `lapic_eoi` does nothing that is modelled. -/
def handleVmcall (stack : Fin 13 → BitVec 32) (userSh : Image) (e : EnvIx) : Km Bool := do
  let rax := (← getEnv e).envTf.tfRegs.regRax
  if rax = 1#64 then
    vmcallMbmap stack e
  else if rax = 2#64 then
    throw .syscall
  else if rax = 3#64 then
    skipInstruction e
    throw .syscall
  else if rax = 4#64 then
    return true
  else if rax = 5#64 then
    vmcallBacktohost userSh
    return true
  else if rax = 6#64 then
    let vmdiskNumber := (← get).vmdiskNumber
    modifyRegs e fun r => { r with regRax := vmdiskNumber.signExtend 64 }
    return true
  else
    return false

/-! ### The exit -/

/-- The reasons `vmexit` tells apart. -/
inductive ExitReason where
  | externalInt | interruptWindow | rdmsr | wrmsr | eptViolation | ioInstruction | cpuid | vmcall
  | hlt | other
  deriving DecidableEq, Repr

/-- `exit_reason & EXIT_REASON_MASK`. -/
def exitReason (reason : BitVec 32) : ExitReason :=
  let r := reason &&& 0xFFFF#32
  if r = 0x1#32 then .externalInt
  else if r = 0x7#32 then .interruptWindow
  else if r = 0x1F#32 then .rdmsr
  else if r = 0x20#32 then .wrmsr
  else if r = 0x30#32 then .eptViolation
  else if r = 0x1E#32 then .ioInstruction
  else if r = 0xA#32 then .cpuid
  else if r = 0x12#32 then .vmcall
  else if r = 0xC#32 then .hlt
  else .other

/-- The `switch` of `vmexit`, for the current environment `e`. -/
def handleExit (stack : Fin 13 → BitVec 32) (userSh : Image) (e : EnvIx) : ExitReason → Km Bool
  | .externalInt => do
    let hostVector ← vmcsRead32 .vmexitInterruptionInfo
    modify fun k => { k with hostVector := hostVector }
    handleInterrupts hostVector
  | .interruptWindow => do handleInterruptWindow (← get).hostVector
  | .rdmsr => handleRdmsr e
  | .wrmsr => handleWrmsr e
  | .eptViolation => do
    let v ← getEnv e
    handleEptviolation v.envPml4e v.envVmxinfo
  | .ioInstruction => handleIoinstr e
  | .cpuid => handleCpuid e
  | .vmcall => handleVmcall stack userSh e
  | .hlt => do
    envDestroy e
    return true
  | .other => return false

/-- `vmexit`, up to the call of `sched_yield`. -/
def vmexit (stack : Fin 13 → BitVec 32) (userSh : Image) : Km Unit := do
  let reason ← vmcsRead32 .vmexitReason
  let e ← deref (← get).curenv
  let handled ← handleExit stack userSh e (exitReason reason)
  if !handled then
    envDestroy e

end JosVmm
