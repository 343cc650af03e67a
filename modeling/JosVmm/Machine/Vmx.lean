import JosVmm.Machine.Vmexits

/-!
# Machine — Entering a guest

`vmx_vmrun` and `asm_vmrun` of `vmm/vmx.c`, with the initialisation of a VMCS, and the places of
`kern/sched.c` and `kern/env.c` that call `vmx_vmrun`.

The processor follows the state machine of a VMCS: `VMCLEAR` makes it clear, `VMLAUNCH` needs a
clear one and makes it launched, `VMRESUME` needs a launched one.  Each instruction may also fail
for other reasons; an `Outcome` says which do not.  A guest that is entered runs until its exit,
which is a step of its own; the registers are the subject of `Vmx.Switch`.
-/

namespace JosVmm
open Support Support.Prog

/-! ### Instructions -/

/-- Which instructions of one call of `vmx_vmrun` find nothing wrong but the state of the VMCS. -/
structure Outcome where
  vmclear : Bool
  vmptrld : Bool
  entry : Bool

def logVmx (p : Nat) (ev : VmxEvent) : Km Unit := modify fun k =>
  { k with cpu.vmxlog := (p, ev) :: k.cpu.vmxlog }

def setLaunch (p : Nat) (st : LaunchState) : Km Unit := modify fun k =>
  { k with cpu.vmcs := Function.update k.cpu.vmcs p { k.cpu.vmcs p with launch := st } }

/-- `vmclear(vmcs_region)`: whether it succeeds.  A current VMCS is current no longer. -/
def vmclear (ok : Bool) (vmcsRegion : Word) : Km Bool := do
  let p := ppn vmcsRegion
  logVmx p (.vmclear ok)
  if ok then
    setLaunch p .clear
    modify fun k => if k.cpu.vmptr = some p then { k with cpu.vmptr := none } else k
  return ok

/-- `vmptrld(vmcs_region)`: whether it succeeds. -/
def vmptrld (ok : Bool) (vmcsRegion : Word) : Km Bool := do
  if ok then
    modify fun k => { k with cpu.vmptr := some (ppn vmcsRegion) }
  return ok

/-- `VMLAUNCH`, or `VMRESUME`: whether the guest is entered. -/
def vmenter (ok launch : Bool) : Km Bool := do
  match (← get).cpu.vmptr with
  | none => return false
  | some p =>
    let st := ((← get).cpu.vmcs p).launch
    let entered := ok && st == (if launch then .clear else .launched)
    logVmx p (if launch then .vmlaunch entered else .vmresume entered)
    if entered then
      setLaunch p .launched
    return entered

/-! ### Initialisation -/

/-- `vmcs_write64`, `vmcs_write32` and `vmcs_write16`, one after the other. -/
def vmcsWriteAll (l : List (VmcsField × Word)) : Km Unit :=
  l.forM fun (f, w) => vmcsWrite64 f w

/-- `vmcs_host_init`.  It does not write the stack pointer. -/
def vmcsHostInit : Km Unit := do
  let h := (← get).cpu.host
  vmcsWriteAll [(.hostCr0, h.cr0), (.hostCr3, h.cr3), (.hostCr4, h.cr4),
    -- `GD_KD`, `GD_KT` and `GD_TSS0`
    (.hostSelector .es, 0x10), (.hostSelector .ss, 0x10), (.hostSelector .ds, 0x10),
    (.hostSelector .fs, 0x10), (.hostSelector .gs, 0x10), (.hostSelector .cs, 0x08),
    (.hostSelector .tr, (((0x28 >>> 3) + h.cpuId * 2) <<< 3) &&& 0xFFFF),
    (.hostBase .idtr, h.idtrBase), (.hostBase .gdtr, h.gdtrBase), (.hostBase .fs, 0),
    (.hostBase .gs, 0), (.hostBase .tr, h.cpuTs), (.hostRip, h.vmxReturn)]

/-- `vmcs_guest_init`. -/
def vmcsGuestInit : Km Unit :=
  vmcsWriteAll [(.guestSelector .cs, 0), (.guestSelector .es, 0), (.guestSelector .ss, 0),
    (.guestSelector .ds, 0), (.guestSelector .fs, 0), (.guestSelector .gs, 0),
    (.guestSelector .tr, 0), (.guestSelector .ldtr, 0),
    (.guestBase .cs, 0), (.guestBase .es, 0), (.guestBase .ss, 0), (.guestBase .ds, 0),
    (.guestBase .fs, 0), (.guestBase .gs, 0), (.guestBase .ldtr, 0), (.guestBase .gdtr, 0),
    (.guestBase .idtr, 0), (.guestBase .tr, 0),
    (.guestLimit .cs, 0xFFFF), (.guestLimit .es, 0xFFFF), (.guestLimit .ss, 0xFFFF),
    (.guestLimit .ds, 0xFFFF), (.guestLimit .fs, 0xFFFF), (.guestLimit .gs, 0xFFFF),
    (.guestLimit .ldtr, 0xFFFF), (.guestLimit .tr, 0xFFFFF), (.guestLimit .gdtr, 0x30),
    (.guestLimit .idtr, 0x3FF),
    (.guestAccessRights .cs, 0x93), (.guestAccessRights .es, 0x93), (.guestAccessRights .ss, 0x93),
    (.guestAccessRights .ds, 0x93), (.guestAccessRights .fs, 0x93), (.guestAccessRights .gs, 0x93),
    (.guestAccessRights .ldtr, 0x82), (.guestAccessRights .tr, 0x8b),
    (.guestActivityState, 0), (.guestInterruptibilityState, 0),
    -- `CR0_NE` and `CR4_VMXE`
    (.guestCr3, 0), (.guestCr0, 0x20), (.guestCr4, 0x2000),
    (.guestLinkPointer, 0xffffffff), (.guestLinkPointerHi, 0xffffffff),
    (.guestDr7, 0), (.guestRflags, 0x2)]

/-- `bitmap_setup`: the ports `IO_RTC` and `IO_RTC + 1` are in word 1. -/
def bitmapSetup (ginfo : VmxGuestInfo) : Pm Unit := do
  let bmap ← table ginfo.ioBmapA
  [0x70, 0x71].forM fun port => do
    store (bmap + port / 64) ((← load (bmap + port / 64)) ||| (1#64 <<< (port % 64)))

/-- `msr_setup`: one entry, for `EFER`. -/
def msrSetup (ginfo : VmxGuestInfo) (efer : Word) : Pm Unit := do
  let host ← table ginfo.msrHostArea
  storeDword (2 * host) (eferMsr.setWidth 32)
  store (host + 1) efer
  let guest ← table ginfo.msrGuestArea
  storeDword (2 * guest) (eferMsr.setWidth 32)

/-- `vmx_read_capability_msr`: the high and the low word. -/
def vmxReadCapabilityMsr (cpu : Cpu) (msr : BitVec 32) : BitVec 32 × BitVec 32 :=
  ((cpu.msr msr >>> 32).setWidth 32, (cpu.msr msr).setWidth 32)

/-- The controls that `vmcs_ctls_init` writes: those that must be one and those it adds, without
those it clears and those that must be zero. -/
def ctls (cpu : Cpu) (msr set clear : BitVec 32) : Word :=
  let (mayBeOne, mustBeOne) := vmxReadCapabilityMsr cpu msr
  ((((mustBeOne ||| set) &&& ~~~clear) &&& mayBeOne).setWidth 64)

/-- `vmcs_ctls_init`. -/
def vmcsCtlsInit (e : EnvIx) : Km Unit := do
  let cpu := (← get).cpu
  let v ← getEnv e
  let ginfo := v.envVmxinfo
  if bit (vmxReadCapabilityMsr cpu 0x482#32).1 31 = false then
    throw .assertFailed
  else
    let msrGuestArea ← onPmap (paddr ginfo.msrGuestArea)
    let msrHostArea ← onPmap (paddr ginfo.msrHostArea)
    let ioBmapA ← onPmap (paddr ginfo.ioBmapA)
    let ioBmapB ← onPmap (paddr ginfo.ioBmapB)
    let msrCount := ginfo.msrCount.setWidth 64
    vmcsWriteAll [(.pinBasedCtls, ctls cpu 0x481#32 0x1#32 0),
      (.procBasedCtls, ctls cpu 0x482#32 0x82000080#32 0x18200#32),
      (.secondaryCtls, ctls cpu 0x48B#32 0x82#32 0),
      (.vmexitControls, ctls cpu 0x483#32 0x8200#32 0),
      (.vmexitMsrStoreAddr, msrGuestArea), (.vmexitMsrStoreCount, msrCount),
      (.vmexitMsrLoadAddr, msrHostArea), (.vmexitMsrLoadCount, msrCount),
      (.vmentryMsrLoadAddr, msrGuestArea), (.vmentryMsrLoadCount, msrCount),
      (.vmentryControls, ctls cpu 0x484#32 0 0),
      (.eptptr, v.envCr3 ||| (3#64 <<< 3)),
      (.exceptionBitmap, ginfo.exceptionBmap.setWidth 64),
      (.ioBitmapA, ioBmapA), (.ioBitmapB, ioBmapB)]

/-- The first run of a guest: its VMCS is cleared, made current and filled. -/
def vmcsSetup (o : Outcome) (e : EnvIx) (vmcsPhyAddr : Word) : Km Bool := do
  if !(← vmclear o.vmclear vmcsPhyAddr) then
    return false
  else if !(← vmptrld o.vmptrld vmcsPhyAddr) then
    return false
  else
    vmcsHostInit
    vmcsGuestInit
    logVmx (ppn vmcsPhyAddr) .init
    let v ← getEnv e
    onPmap (bitmapSetup v.envVmxinfo)
    let efer := (← get).cpu.msr (eferMsr.setWidth 32)
    modifyEnv e fun v => { v with envVmxinfo.msrCount := 1#32 }
    onPmap (msrSetup v.envVmxinfo efer)
    vmcsCtlsInit e
    return true

/-! ### Running a guest -/

/-- `asm_vmrun` up to the guest: whether it is entered.  `tf_ds` has 16 bits, and is compared as
32 bits with the zero that follows it. -/
def asmVmrun (ok : Bool) (e : EnvIx) : Km Bool := do
  let cur ← getEnv (← deref (← get).curenv)
  modifyEnv e fun v => { v with envTf.tfDs := cur.envRuns.setWidth 16, envTf.tfEs := 0 }
  let launched := (← getEnv e).envTf.tfDs.setWidth 32
  let entered ← vmenter ok (launched == 1#32)
  if !entered then
    modifyEnv e fun v => { v with envTf.tfEs := 1 }
  return entered

/-- The part of `vmx_vmrun` that makes the VMCS of `e` current; `runs` is the counter of `e`. -/
def vmcsLoad (o : Outcome) (e : EnvIx) (runs : BitVec 32) (vmcsPhyAddr : Word) : Km Bool :=
  if runs = 1#32 then vmcsSetup o e vmcsPhyAddr else vmptrld o.vmptrld vmcsPhyAddr

/-- The part of `vmx_vmrun` after it. -/
def vmcsEnter (ok : Bool) (e : EnvIx) : Km Bool := do
  let cur ← getEnv (← deref (← get).curenv)
  vmcsWrite64 .guestRsp cur.envTf.tfRsp
  vmcsWrite64 .guestRip cur.envTf.tfRip
  asmVmrun ok e

/-- `vmx_vmrun` up to the guest: whether it is entered. -/
def vmxVmrun (o : Outcome) (e : EnvIx) : Km (Except Err Bool) := do
  let v ← getEnv e
  if v.envType ≠ .guest then
    return .error .inval
  else
    let pa ← onPmap (paddr v.envVmxinfo.vmcs)
    if !(← vmcsLoad o e v.envRuns pa) then
      return .error .vmcsInit
    else
      return .ok (← vmcsEnter o.entry e)

/-- `asm_vmrun` after a VM exit: `rsp` and `rip` of the guest go to the trapframe. -/
def saveRip : Km Unit := do
  let cur ← deref (← get).curenv
  let rsp ← vmcsRead64 .guestRsp
  let rip ← vmcsRead64 .guestRip
  modifyEnv cur fun v => { v with envTf.tfRsp := rsp, envTf.tfRip := rip }

/-- The rest of `asm_vmrun` after a VM exit, up to the call of `sched_yield`. -/
def asmVmreturn (stack : Fin 13 → BitVec 32) (userSh : Image) : Km Unit := do
  saveRip
  vmexit stack userSh

/-- `vmx_init_vmxon`; `ok` says that the checks of the control registers and the `VMXON`
instruction succeed. -/
def vmxInitVmxon (ok : Bool) : Km (Except Err Unit) := do
  match ← vmxInitVmcs with
  | none => return .error .noMem
  | some p =>
    if ok then
      modify fun k => { k with cpu.isVmxRoot := true }
      return .ok ()
    else
      onPmap (pageDecref p)
      return .error .vmxOn

/-- `vmxon` of `kern/sched.c`: whether it returns 0. -/
def vmxon (ok : Bool) : Km Bool := do
  if (← get).cpu.isVmxRoot then
    return true
  else
    match ← vmxInitVmxon ok with
    | .error _ => return false
    | .ok () => return true

/-- `curenv` becomes `e`, which runs once more. -/
def switchTo (e : EnvIx) : Km Unit := do
  match (← get).curenv with
  | none => pure ()
  | some cur => modifyEnv cur fun v =>
    { v with envStatus := if v.envStatus = .running then .runnable else v.envStatus }
  modify fun k => { k with curenv := some e }
  modifyEnv e fun v => { v with envStatus := .running, envRuns := v.envRuns + 1#32 }

/-- What `sched_yield` does with a runnable guest. -/
def schedGuest (ok : Bool) (o : Outcome) (e : EnvIx) : Km Unit := do
  if ← vmxon ok then
    switchTo e
    let _ ← vmxVmrun o e

/-- What `sched_yield` does with the guest that ran last, if nothing else is runnable. -/
def schedIdle (ok : Bool) (o : Outcome) (e : EnvIx) : Km Unit := do
  if ← vmxon ok then
    modifyEnv e fun v => { v with envRuns := v.envRuns + 1#32 }
    let _ ← vmxVmrun o e

/-- `env_run` of a guest; a guest that is current already is not counted. -/
def envRunGuest (o : Outcome) (e : EnvIx) : Km Unit := do
  if (← get).curenv ≠ some e then
    switchTo e
  if (← getEnv e).envStatus = .running then
    let _ ← vmxVmrun o e
  else
    throw .assertFailed

/-! ### Resuming a guest -/

/-- The loop of `vmx_sel_resume` over the slots that are left: slots are counted by their type
alone. -/
def selectVm (envs : EnvIx → Env) (num : Int) : List EnvIx → Int → Option EnvIx
  | [], _ => none
  | e :: l, vmCount =>
    if (envs e).envType = .guest then
      if vmCount + 1 = num then some e else selectVm envs num l (vmCount + 1)
    else selectVm envs num l vmCount

/-- `vmx_sel_resume`. -/
def vmxSelResume (num : Int) : Km Bool := do
  match selectVm (← get).envs num (List.finRange 1024) 0 with
  | none => return false
  | some e =>
    modifyEnv e fun v => { v with envStatus := .runnable }
    return true

end JosVmm
