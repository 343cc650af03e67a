import JosVmm.Machine.Vmx

/-!
# Machine — The scheduler

`sched_yield` and `sched_halt` of `kern/sched.c` and `env_run` of `kern/env.c`, each up to the
point where it leaves for an environment: `env_pop_tf`, or the call of `vmx_vmrun`.
-/

namespace JosVmm
open Support.Prog

/-- What a call of `sched_yield` ends in.  `back` is its return, with a guest found runnable and
`vmxon` failing. -/
inductive Choice where
  | envRun (e : EnvIx)
  | vmrun (e : EnvIx)
  | halt
  | back
  deriving DecidableEq, Repr

/-- `env_run`, up to `env_pop_tf` or `vmx_vmrun`. -/
def envRun (e : EnvIx) : Km Unit := do
  if (← get).curenv ≠ some e then
    switchTo e
  if (← getEnv e).envStatus ≠ .running then
    throw .assertFailed

/-- The loop of `sched_yield`: the first runnable slot among the next `m` after `i`. -/
def firstRunnable (envs : EnvIx → Env) : Nat → EnvIx → Option EnvIx
  | 0, _ => none
  | m + 1, i =>
    if (envs (i + 1)).envStatus = .runnable then some (i + 1) else firstRunnable envs m (i + 1)

/-- `sched_halt`; without any environment left it stays in the monitor. -/
def schedHalt : Km Unit := do
  let k ← get
  if ∃ e, (k.envs e).envStatus = .runnable ∨ (k.envs e).envStatus = .running ∨
      (k.envs e).envStatus = .dying then
    modify fun k => { k with curenv := none }

/-- What `sched_yield` does when the loop has found nothing. -/
def schedLast (ok : Bool) (idle : Option EnvIx) : Km Choice := do
  match idle with
  | none =>
    schedHalt
    return .halt
  | some c =>
    let v ← getEnv c
    if v.envStatus = .running then
      if v.envType = .guest then
        if ← vmxon ok then
          modifyEnv c fun v => { v with envRuns := v.envRuns + 1#32 }
          return .vmrun c
        else
          schedHalt
          return .halt
      else
        envRun c
        return .envRun c
    else
      schedHalt
      return .halt

/-- The slot that the loop of `sched_yield` starts after. -/
def Kernel.startSlot (k : Kernel) : EnvIx :=
  match k.curenv with
  | none => 0
  | some c => envx (k.envs c).envId

/-- `sched_yield`; `ok` says that the checks of `vmx_init_vmxon`, if it is called, succeed. -/
def schedYield (ok : Bool) : Km Choice := do
  let k ← get
  match firstRunnable k.envs nenv k.startSlot with
  | some e =>
    if (k.envs e).envType = .guest then
      if ← vmxon ok then
        switchTo e
        return .vmrun e
      else
        return .back
    else
      envRun e
      return .envRun e
  | none => schedLast ok k.curenv

/-- Successive calls of `sched_yield`. -/
def yields (ok : Bool) : Nat → Km (List Choice)
  | 0 => return []
  | n + 1 => do
    let c ← schedYield ok
    return c :: (← yields ok n)

end JosVmm
