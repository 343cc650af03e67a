import JosVmm.Machine.Tables

/-!
# Machine — Kernel state

The environment table of `kern/env.c` and the processor state that the VMM drives through VMX
instructions, around the page allocator and the tables.  A `struct Env *` into `envs` is an index
of the table, and `none` is the null pointer.

The VMCS regions are the processor's: `vmcs` gives the contents of the region in each physical
page, `vmptr` the current one.  `vmwrites` and `vmxlog` are the history of `VMWRITE`s and of the
other VMX instructions on each region, newest first, which no code reads.
-/

namespace JosVmm
open Support Support.Prog Function

/-! ### Environments -/

/-- `enum EnvType`. -/
inductive EnvType where
  | user | fs | ns | guest | idle
  deriving DecidableEq, Repr

/-- The values of `env_status`. -/
inductive EnvStatus where
  | free | dying | runnable | running | notRunnable
  deriving DecidableEq, Repr

/-- `envid_t`. -/
abbrev EnvId := BitVec 32

/-- An element of `envs`, which has `NENV` of them. -/
abbrev EnvIx := Fin 1024

/-- `struct PushRegs`. -/
structure PushRegs where
  regR15 : Word := 0
  regR14 : Word := 0
  regR13 : Word := 0
  regR12 : Word := 0
  regR11 : Word := 0
  regR10 : Word := 0
  regR9 : Word := 0
  regR8 : Word := 0
  regRsi : Word := 0
  regRdi : Word := 0
  regRbp : Word := 0
  regRdx : Word := 0
  regRcx : Word := 0
  regRbx : Word := 0
  regRax : Word := 0

/-- `struct Trapframe`; a default one is all zero. -/
structure Trapframe where
  tfRegs : PushRegs := {}
  tfEs : BitVec 16 := 0
  tfDs : BitVec 16 := 0
  tfErr : Word := 0
  tfRip : Word := 0
  tfCs : BitVec 16 := 0
  tfEflags : Word := 0
  tfRsp : Word := 0
  tfSs : BitVec 16 := 0

/-- `struct VmxGuestInfo`; a default one is all zero. -/
structure VmxGuestInfo where
  physSz : Word := 0
  vmcs : Option Ptr := none
  exceptionBmap : BitVec 32 := 0
  ioBmapA : Option Ptr := none
  ioBmapB : Option Ptr := none
  msrCount : BitVec 32 := 0
  msrHostArea : Option Ptr := none
  msrGuestArea : Option Ptr := none
  vcpunum : BitVec 32 := 0

/-- `struct Env`. -/
structure Env where
  envTf : Trapframe
  envLink : Option EnvIx
  envId : EnvId
  envParentId : EnvId
  envType : EnvType
  envStatus : EnvStatus
  envRuns : BitVec 32
  envPml4e : Option Ptr
  envCr3 : Word
  envPgfaultUpcall : Word
  envIpcRecving : Bool
  envVmxinfo : VmxGuestInfo

/-! ### The processor -/

/-- The segments, and the two descriptor tables, of the VMCS. -/
inductive Segment where
  | cs | es | ss | ds | fs | gs | tr | ldtr | gdtr | idtr
  deriving DecidableEq, Repr

/-- The VMCS fields the VMM reads and writes. -/
inductive VmcsField where
  | guestPhysicalAddr | vmexitReason | vmexitInterruptionInfo | vmexitInstructionLength
  | vmexitQualification | guestRflags | guestRip | guestRsp | procBasedCtls
  | vmentryInterruptionInfo | vmentryControls
  | guestSelector (s : Segment) | guestBase (s : Segment) | guestLimit (s : Segment)
  | guestAccessRights (s : Segment) | guestActivityState | guestInterruptibilityState
  | guestCr0 | guestCr3 | guestCr4 | guestLinkPointer | guestLinkPointerHi | guestDr7
  | hostSelector (s : Segment) | hostBase (s : Segment) | hostCr0 | hostCr3 | hostCr4 | hostRip
  | hostRsp | pinBasedCtls | secondaryCtls | vmexitControls | vmexitMsrStoreAddr
  | vmexitMsrStoreCount | vmexitMsrLoadAddr | vmexitMsrLoadCount | vmentryMsrLoadAddr
  | vmentryMsrLoadCount | eptptr | exceptionBitmap | ioBitmapA | ioBitmapB
  deriving DecidableEq, Repr

/-- The launch state of a VMCS region.  Before the first `VMCLEAR` there is none. -/
inductive LaunchState where
  | uninit | clear | launched
  deriving DecidableEq, Repr

structure Vmcs where
  field : VmcsField → Word
  launch : LaunchState

/-- What `CPUID` returns. -/
structure Cpuid where
  eax : BitVec 32
  ebx : BitVec 32
  ecx : BitVec 32
  edx : BitVec 32

/-- What `vmcs_host_init` reads of the processor and the kernel; `vmxReturn` is the address of
`.Lvmx_return`. -/
structure HostRegs where
  cr0 : Word := 0
  cr3 : Word := 0
  cr4 : Word := 0
  idtrBase : Word := 0
  gdtrBase : Word := 0
  cpuTs : Word := 0
  cpuId : Word := 0
  vmxReturn : Word := 0

/-- The VMX instructions that change or use the launch state, with their success, and the
initialisation of the VMCS. -/
inductive VmxEvent where
  | vmclear (ok : Bool) | init | vmlaunch (ok : Bool) | vmresume (ok : Bool)
  deriving DecidableEq, Repr

/-- What the VMM sees of a processor; `cpuid` is given the value of `eax`. -/
structure Cpu where
  cpuid : BitVec 32 → Cpuid
  msr : BitVec 32 → Word
  vmptr : Option Nat
  vmcs : Nat → Vmcs
  vmwrites : List (Nat × VmcsField × Word)
  vmxlog : List (Nat × VmxEvent) := []
  isVmxRoot : Bool := false
  host : HostRegs := {}

/-! ### The kernel -/

structure Kernel where
  pm : Pmap
  envs : EnvIx → Env
  envFreeList : Option EnvIx
  curenv : Option EnvIx
  bootPml4e : Ptr
  vcpuCount : BitVec 32
  vmdiskNumber : BitVec 32
  /-- The static variable of `vmexit`. -/
  hostVector : BitVec 32
  /-- The static variable of `handle_ioinstr`. -/
  portIortc : BitVec 32
  cpu : Cpu

abbrev Km := StateT Kernel (Except Panic)

/-- A computation on memory and the page structures. -/
def onPmap {α : Type} (x : Pm α) : Km α := fun k =>
  match x.run k.pm with
  | .ok (a, s) => .ok (a, { k with pm := s })
  | .error p => .error p

/-- The environment a pointer points to; a null pointer faults. -/
def deref (e : Option EnvIx) : Km EnvIx :=
  match e with
  | none => throw .pageFault
  | some e => pure e

def getEnv (e : EnvIx) : Km Env := do return (← get).envs e

def modifyEnv (e : EnvIx) (f : Env → Env) : Km Unit := modify fun k =>
  { k with envs := update k.envs e (f (k.envs e)) }

namespace Kernel

variable {k : Kernel} {e e' : EnvIx}

def withPm (k : Kernel) (s : Pmap) : Kernel := { k with pm := s }

def setEnv (k : Kernel) (e : EnvIx) (v : Env) : Kernel :=
  { k with envs := update k.envs e v }

@[simp] theorem withPm_pm (s : Pmap) : (k.withPm s).pm = s := rfl
@[simp] theorem withPm_envs (s : Pmap) : (k.withPm s).envs = k.envs := rfl
@[simp] theorem withPm_withPm (s s' : Pmap) : (k.withPm s).withPm s' = k.withPm s' := rfl
@[simp] theorem setEnv_pm (v : Env) : (k.setEnv e v).pm = k.pm := rfl
@[simp] theorem setEnv_envs (v : Env) : (k.setEnv e v).envs = update k.envs e v := rfl
@[simp] theorem setEnv_setEnv (v v' : Env) : (k.setEnv e v).setEnv e v' = k.setEnv e v' := by
  rw [setEnv, setEnv, setEnv, update_idem]

theorem setEnv_withPm (v : Env) (s : Pmap) :
    (k.setEnv e v).withPm s = (k.withPm s).setEnv e v := rfl

end Kernel

variable {α : Type} {k k' : Kernel} {e : EnvIx}

theorem onPmap_ok {x : Pm α} {a : α} {s : Pmap} (h : x.run k.pm = .ok (a, s)) :
    (onPmap x).run k = .ok (a, k.withPm s) := by
  show onPmap x k = _
  rw [onPmap, h]
  rfl

theorem onPmap_error {x : Pm α} {p : Panic} (h : x.run k.pm = .error p) :
    (onPmap x).run k = .error p := by
  show onPmap x k = _
  rw [onPmap, h]

theorem onPmap_withPm {x : Pm α} {a : α} {s s' : Pmap} (h : x.run s = .ok (a, s')) :
    (onPmap x).run (k.withPm s) = .ok (a, k.withPm s') :=
  onPmap_ok (k := k.withPm s) h

theorem onPmap_eq_ok {x : Pm α} {a : α} (h : (onPmap x).run k = .ok (a, k')) :
    ∃ s, x.run k.pm = .ok (a, s) ∧ k' = k.withPm s := by
  change onPmap x k = _ at h
  rw [onPmap] at h
  cases hx : x.run k.pm with
  | error p => rw [hx] at h; cases h
  | ok r =>
    rw [hx] at h
    obtain ⟨rfl, rfl⟩ := Prod.mk.inj (Except.ok.inj h)
    exact ⟨r.2, rfl, rfl⟩

theorem getEnv_run : (getEnv e).run k = .ok (k.envs e, k) := rfl

theorem getEnv_keeps {P : Kernel → Prop} : Ensures P (getEnv e) fun _ => P := fun _ _ _ h hrun => by
  cases hrun
  exact h

theorem modifyEnv_run (f : Env → Env) :
    (modifyEnv e f).run k = .ok ((), k.setEnv e (f (k.envs e))) := rfl

theorem deref_eq_ok {o : Option EnvIx} (h : (deref o).run k = .ok (e, k')) :
    o = some e ∧ k' = k := by
  cases o with
  | none => cases h
  | some e' =>
    obtain ⟨rfl, rfl⟩ := Prod.mk.inj (Except.ok.inj h)
    exact ⟨rfl, rfl⟩

theorem deref_run : (deref (some e)).run k = .ok (e, k) := rfl

end JosVmm
