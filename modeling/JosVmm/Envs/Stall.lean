import JosVmm.Envs.Fairness
import JosVmm.Guests.Atomic
import JosVmm.Vmx.Launch

/-!
# Environments — a guest that cannot start

`sched_yield` searches for the first runnable environment, and looks no further if that is a guest
that cannot be started: it returns to its caller, whatever else is runnable.  So while an
environment that is no guest is runnable, a call dispatches one exactly if the first runnable
environment is no guest and not the current one, or is a guest for which `vmxon`, the instructions
on its VMCS and the entry succeed (`schedYield_leaves_iff`).

What a call needs is computed backwards over its steps, by `returns_bind` and one rule for each of
the functions it calls.
-/

namespace JosVmm
open Support Support.Prog Support.Cyclic Function Kernel

variable {k : Kernel} {s : Pmap} {e : EnvIx} {o : Outcome} {p : Nat} {pa : Word} {L : List Nat}
  {α : Type}

/-- How a call of `sched_yield` ends. -/
inductive Ending where
  /-- `env_run` left for the environment. -/
  | ran (e : EnvIx)
  /-- The guest was entered. -/
  | entered (e : EnvIx)
  /-- The processor is halted. -/
  | halted
  /-- It returned to its caller. -/
  | returned
  deriving DecidableEq, Repr

/-- `sched_yield` with its calls of `vmx_vmrun`.  If the guest is not entered, the call returns, or
it halts if there was nothing else to run. -/
def schedYieldEnd (ok : Bool) (o : Outcome) : Km Ending := do
  let k ← get
  match ← schedYield ok with
  | .envRun e => return .ran e
  | .vmrun e =>
    match ← vmxVmrun o e with
    | .ok true => return .entered e
    | _ =>
      if (firstRunnable k.envs nenv k.startSlot).isSome then
        return .returned
      else
        schedHalt
        return .halted
  | .halt => return .halted
  | .back => return .returned

/-- An environment was dispatched. -/
def Ending.Leaves (r : Ending) : Prop := ∃ e, r = .ran e ∨ r = .entered e

theorem Ending.not_leaves_returned : ¬ Leaves .returned := by
  rintro ⟨_, h | h⟩
  · cases h
  · cases h

/-! ### What each step needs -/

theorem returns_onPmap {x : Pm α} {Q : α → Kernel → Prop} :
    Returns ((onPmap x).run k) Q ↔ Returns (x.run k.pm) fun a s => Q a (k.withPm s) := by
  cases h : x.run k.pm with
  | error er =>
    have hrun : (onPmap x).run k = .error er := by
      show onPmap x k = _
      rw [onPmap, h]
    rw [hrun]
    exact Iff.rfl
  | ok r =>
    rw [onPmap_ok h]
    exact Iff.rfl

theorem returns_load {a : Ptr} {Q : Word → Pmap → Prop} :
    Returns ((load a).run s) Q ↔ a < s.npages * 512 ∧ Q (s.mem a) s := by
  by_cases h : a < s.npages * 512
  · rw [load_run h]
    exact (and_iff_right h).symm
  · have hrun : (load a).run s = .error .pageFault := if_neg h
    rw [hrun]
    exact iff_of_false id fun h' => h h'.1

theorem returns_store {a : Ptr} {w : Word} {Q : Unit → Pmap → Prop} :
    Returns ((store a w).run s) Q ↔ a < s.npages * 512 ∧ Q () (s.setWord a w) := by
  by_cases h : a < s.npages * 512
  · rw [store_run h]
    exact (and_iff_right h).symm
  · have hrun : (store a w).run s = .error .pageFault := if_neg h
    rw [hrun]
    exact iff_of_false id fun h' => h h'.1

theorem returns_table {a : Option Ptr} {Q : Ptr → Pmap → Prop} :
    Returns ((table a).run s) Q ↔ ∃ t, a = some t ∧ Q t s := by
  cases a with
  | none => exact iff_of_false id nofun
  | some t => exact ⟨fun h => ⟨t, rfl, h⟩, by rintro ⟨_, ⟨⟩, h⟩; exact h⟩

theorem returns_paddr {a : Option Ptr} {Q : Word → Pmap → Prop} :
    Returns ((paddr a).run s) Q ↔ ∃ t, a = some t ∧ Q (BitVec.ofNat 64 (8 * t)) s := by
  cases a with
  | none => exact iff_of_false id nofun
  | some t => exact ⟨fun h => ⟨t, rfl, h⟩, by rintro ⟨_, ⟨⟩, h⟩; exact h⟩

/-! ### The first run of a guest -/

/-- What `vmx_vmrun` follows and asserts when it fills the VMCS of a guest for the first time. -/
structure Fillable (k : Kernel) (ginfo : VmxGuestInfo) : Prop where
  ioBmapA : ∃ a, ginfo.ioBmapA = some a ∧ a + 1 < k.pm.npages * 512
  ioBmapB : ∃ a, ginfo.ioBmapB = some a
  msrHostArea : ∃ a, ginfo.msrHostArea = some a ∧ a + 1 < k.pm.npages * 512
  msrGuestArea : ∃ a, ginfo.msrGuestArea = some a ∧ a < k.pm.npages * 512
  /-- The secondary controls exist. -/
  secondary : bit (vmxReadCapabilityMsr k.cpu 0x482#32).1 31 = true

theorem returns_bitmapSetup {ginfo : VmxGuestInfo} {Q : Nat → Prop} :
    (Returns ((bitmapSetup ginfo).run s) fun _ s' => Q s'.npages) ↔
      (∃ a, ginfo.ioBmapA = some a ∧ a + 1 < s.npages * 512) ∧ Q s.npages := by
  rw [bitmapSetup, returns_bind, returns_table]
  simp only [List.forM_eq_forM, List.forM_cons, List.forM_nil, returns_bind, returns_load,
    returns_store]
  constructor
  · rintro ⟨a, ha, hlt, -, -, -, hQ⟩
    exact ⟨⟨a, ha, hlt⟩, hQ⟩
  · rintro ⟨⟨a, ha, hlt⟩, hQ⟩
    exact ⟨a, ha, hlt, hlt, hlt, hlt, hQ⟩

theorem returns_msrSetup {ginfo : VmxGuestInfo} {efer : Word} {Q : Nat → Prop} :
    (Returns ((msrSetup ginfo efer).run s) fun _ s' => Q s'.npages) ↔
      (∃ a, ginfo.msrHostArea = some a ∧ a + 1 < s.npages * 512) ∧
      (∃ a, ginfo.msrGuestArea = some a ∧ a < s.npages * 512) ∧ Q s.npages := by
  rw [msrSetup, returns_bind, returns_table]
  simp only [storeDword, returns_bind, returns_load, returns_store, returns_table]
  have hhalf : ∀ a : Nat, 2 * a / 2 = a := fun a => by omega
  constructor
  · rintro ⟨a, ha, -, -, hlt, b, hb, hlt', -, hQ⟩
    rw [hhalf] at hlt'
    exact ⟨⟨a, ha, hlt⟩, ⟨b, hb, hlt'⟩, hQ⟩
  · rintro ⟨⟨a, ha, hlt⟩, ⟨b, hb, hlt'⟩, hQ⟩
    have hlt0 : 2 * a / 2 < s.npages * 512 := (hhalf a).symm ▸ Nat.lt_of_succ_lt hlt
    have hlt1 : 2 * b / 2 < s.npages * 512 := (hhalf b).symm ▸ hlt'
    exact ⟨a, ha, hlt0, hlt0, hlt, b, hb, hlt1, hlt1, hQ⟩

/-- What the instructions on a VMCS leave alone. -/
structure SameButVmcs (k k' : Kernel) : Prop where
  pm : k'.pm = k.pm
  envs : k'.envs = k.envs
  msr : k'.cpu.msr = k.cpu.msr

theorem SameButVmcs.trans {k k' k'' : Kernel} (h : SameButVmcs k k') (h' : SameButVmcs k' k'') :
    SameButVmcs k k'' :=
  ⟨h'.pm.trans h.pm, h'.envs.trans h.envs, h'.msr.trans h.msr⟩

theorem fillable_congr {k k' : Kernel} (hn : k'.pm.npages = k.pm.npages)
    (hm : k'.cpu.msr = k.cpu.msr) (ginfo : VmxGuestInfo) :
    Fillable k' ginfo ↔ Fillable k ginfo := by
  have hmsr : ∀ m, vmxReadCapabilityMsr k'.cpu m = vmxReadCapabilityMsr k.cpu m := fun m => by
    rw [vmxReadCapabilityMsr, vmxReadCapabilityMsr, hm]
  constructor
  · rintro ⟨hA, hB, hh, hg, hbit⟩
    rw [hn] at hA hh hg
    exact ⟨hA, hB, hh, hg, hmsr _ ▸ hbit⟩
  · rintro ⟨hA, hB, hh, hg, hbit⟩
    rw [← hn] at hA hh hg
    exact ⟨hA, hB, hh, hg, (hmsr _).symm ▸ hbit⟩

theorem vmclear_run (k : Kernel) (pa : Word) :
    ∃ k', (vmclear true pa).run k = .ok (true, k') ∧ SameButVmcs k k' := by
  rw [vmclear, logVmx, bind_ok (s := k) rfl, if_pos rfl, setLaunch, bind_ok rfl, bind_ok rfl]
  refine ⟨_, rfl, ?_⟩
  dsimp only
  split
  · exact ⟨rfl, rfl, rfl⟩
  · exact ⟨rfl, rfl, rfl⟩

section

variable (h : k.cpu.vmptr = some p)
include h

theorem vmcsWriteAll_run (l : List (VmcsField × Word)) :
    ∃ k', (vmcsWriteAll l).run k = .ok ((), k') ∧ k'.cpu.vmptr = some p ∧ SameButVmcs k k' := by
  induction l generalizing k with
  | nil => exact ⟨k, rfl, h, rfl, rfl, rfl⟩
  | cons fw l ih =>
    obtain ⟨k', hrun, hp, hs⟩ := ih (k := k.vmwrite p fw.1 fw.2) h
    refine ⟨k', ?_, hp, hs.pm, hs.envs, hs.msr⟩
    rw [vmcsWriteAll, List.forM_eq_forM, List.forM_cons, bind_ok (vmcsWrite64_run h _ _)]
    exact hrun

theorem vmcsHostInit_run :
    ∃ k', vmcsHostInit.run k = .ok ((), k') ∧ k'.cpu.vmptr = some p ∧ SameButVmcs k k' := by
  rw [vmcsHostInit, bind_get]
  exact vmcsWriteAll_run h _

theorem vmcsGuestInit_run :
    ∃ k', vmcsGuestInit.run k = .ok ((), k') ∧ k'.cpu.vmptr = some p ∧ SameButVmcs k k' :=
  vmcsWriteAll_run h _

theorem returns_vmcsWriteAll (l : List (VmcsField × Word)) {φ : Prop} :
    (Returns ((vmcsWriteAll l).run k) fun _ _ => φ) ↔ φ := by
  obtain ⟨k', hrun, -⟩ := vmcsWriteAll_run h l
  rw [hrun]
  exact Iff.rfl

theorem returns_vmcsCtlsInit {φ : Prop} :
    (Returns ((vmcsCtlsInit e).run k) fun _ _ => φ) ↔
      bit (vmxReadCapabilityMsr k.cpu 0x482#32).1 31 = true ∧
        (∃ a, (k.envs e).envVmxinfo.msrGuestArea = some a) ∧
        (∃ a, (k.envs e).envVmxinfo.msrHostArea = some a) ∧
        (∃ a, (k.envs e).envVmxinfo.ioBmapA = some a) ∧
        (∃ a, (k.envs e).envVmxinfo.ioBmapB = some a) ∧ φ := by
  rw [vmcsCtlsInit, bind_get, bind_ok getEnv_run]
  cases hbit : bit (vmxReadCapabilityMsr k.cpu 0x482#32).1 31 with
  | false => exact iff_of_false id fun h => by cases h.1
  | true =>
    rw [if_neg (by simp)]
    simp only [returns_bind, returns_onPmap, returns_paddr]
    constructor
    · rintro ⟨a, ha, b, hb, c, hc, d, hd, hφ⟩
      exact ⟨trivial, ⟨a, ha⟩, ⟨b, hb⟩, ⟨c, hc⟩, ⟨d, hd⟩, (returns_vmcsWriteAll h _).mp hφ⟩
    · rintro ⟨-, ⟨a, ha⟩, ⟨b, hb⟩, ⟨c, hc⟩, ⟨d, hd⟩, hφ⟩
      exact ⟨a, ha, b, hb, c, hc, d, hd, (returns_vmcsWriteAll h _).mpr hφ⟩

/-- The end of the first run, after the bitmaps. -/
theorem returns_msrCtls (ginfo : VmxGuestInfo) (hg : (k.envs e).envVmxinfo = ginfo) : (Returns ((do
      let efer := (← get).cpu.msr (eferMsr.setWidth 32)
      modifyEnv e fun v => { v with envVmxinfo.msrCount := 1#32 }
      onPmap (msrSetup ginfo efer)
      vmcsCtlsInit e
      return true : Km Bool).run k) fun r _ => r = true) ↔
    (∃ a, ginfo.msrHostArea = some a ∧ a + 1 < k.pm.npages * 512) ∧
      (∃ a, ginfo.msrGuestArea = some a ∧ a < k.pm.npages * 512) ∧
      (∃ a, ginfo.ioBmapA = some a) ∧ (∃ a, ginfo.ioBmapB = some a) ∧
      bit (vmxReadCapabilityMsr k.cpu 0x482#32).1 31 = true := by
  rw [bind_get, bind_ok (modifyEnv_run _), returns_bind, returns_onPmap]
  have hctls : ∀ s : Pmap, (Returns ((do
      vmcsCtlsInit e
      return true : Km Bool).run ((k.setEnv e { k.envs e with
        envVmxinfo.msrCount := 1#32 }).withPm s)) fun r _ => r = true) ↔
      bit (vmxReadCapabilityMsr k.cpu 0x482#32).1 31 = true ∧
        (∃ a, ginfo.msrGuestArea = some a) ∧ (∃ a, ginfo.msrHostArea = some a) ∧
        (∃ a, ginfo.ioBmapA = some a) ∧ (∃ a, ginfo.ioBmapB = some a) ∧ True := fun s => by
    rw [returns_bind, ← hg]
    refine (returns_vmcsCtlsInit (e := e) (k := (k.setEnv e { k.envs e with
        envVmxinfo.msrCount := 1#32 }).withPm s) h).trans ?_
    simp only [withPm_envs, setEnv_envs, update_self]
    exact Iff.rfl
  simp only [hctls]
  rw [returns_msrSetup (Q := fun _ => _)]
  constructor
  · rintro ⟨hh, hgs, hbit, -, -, ha, hb, -⟩
    exact ⟨hh, hgs, ha, hb, hbit⟩
  · rintro ⟨⟨a, ha, hlt⟩, ⟨b, hb, hlt'⟩, hA, hB, hbit⟩
    exact ⟨⟨a, ha, hlt⟩, ⟨b, hb, hlt'⟩, hbit, ⟨b, hb⟩, ⟨a, ha⟩, hA, hB, trivial⟩

/-- The first run, once the VMCS is current and has its host and guest fields. -/
theorem returns_vmcsFill {q : Nat} : (Returns ((do
      logVmx q .init
      let v ← getEnv e
      onPmap (bitmapSetup v.envVmxinfo)
      let efer := (← get).cpu.msr (eferMsr.setWidth 32)
      modifyEnv e fun v => { v with envVmxinfo.msrCount := 1#32 }
      onPmap (msrSetup v.envVmxinfo efer)
      vmcsCtlsInit e
      return true : Km Bool).run k) fun r _ => r = true) ↔
    Fillable k (k.envs e).envVmxinfo := by
  rw [logVmx, bind_ok (s := k) rfl, bind_ok getEnv_run, returns_bind, returns_onPmap]
  refine (returns_congr fun _ s _ => returns_msrCtls (k := { k with
    pm := s
    cpu.vmxlog := (q, .init) :: k.cpu.vmxlog }) h _ rfl).trans ?_
  refine (returns_bitmapSetup (s := k.pm) (Q := fun n =>
    (∃ a, (k.envs e).envVmxinfo.msrHostArea = some a ∧ a + 1 < n * 512) ∧
      (∃ a, (k.envs e).envVmxinfo.msrGuestArea = some a ∧ a < n * 512) ∧
      (∃ a, (k.envs e).envVmxinfo.ioBmapA = some a) ∧
      (∃ a, (k.envs e).envVmxinfo.ioBmapB = some a) ∧
      bit (vmxReadCapabilityMsr k.cpu 0x482#32).1 31 = true)).trans ?_
  constructor
  · rintro ⟨hA, hh, hgs, -, hB, hbit⟩
    exact ⟨hA, hB, hh, hgs, hbit⟩
  · rintro ⟨⟨a, ha, hlt⟩, hB, hh, hgs, hbit⟩
    exact ⟨⟨a, ha, hlt⟩, hh, hgs, ⟨a, ha⟩, hB, hbit⟩

end

/-- **The first run fills the VMCS** if the instructions succeed and the guest's pages are there. -/
theorem returns_vmcsSetup : (Returns ((vmcsSetup o e pa).run k) fun r _ => r = true) ↔
    o.vmclear = true ∧ o.vmptrld = true ∧ Fillable k (k.envs e).envVmxinfo := by
  rw [vmcsSetup]
  cases hc : o.vmclear with
  | false => exact iff_of_false (fun h => by cases h) fun h => by cases h.1
  | true =>
    obtain ⟨k₁, hrun1, hs1⟩ := vmclear_run k pa
    rw [bind_ok hrun1]
    cases hl : o.vmptrld with
    | false => exact iff_of_false (fun h => by cases h) fun h => by cases h.2.1
    | true =>
      obtain ⟨k₂, hrun2, hp2, hs2⟩ : ∃ k', (vmptrld true pa).run k₁ = .ok (true, k') ∧
          k'.cpu.vmptr = some (ppn pa) ∧ SameButVmcs k₁ k' := ⟨_, rfl, rfl, rfl, rfl, rfl⟩
      obtain ⟨k₃, hrun3, hp3, hs3⟩ := vmcsHostInit_run hp2
      obtain ⟨k₄, hrun4, hp4, hs4⟩ := vmcsGuestInit_run hp3
      have hs := ((hs1.trans hs2).trans hs3).trans hs4
      rw [if_neg (by simp), bind_ok hrun2, if_neg (by simp), bind_ok hrun3, bind_ok hrun4]
      refine (returns_vmcsFill hp4).trans ?_
      rw [hs.envs, fillable_congr (by rw [hs.pm]) hs.msr]
      exact ⟨fun hf => ⟨rfl, rfl, hf⟩, fun hf => hf.2.2⟩

/-! ### Entering a guest -/

theorem vmenter_run (ok launch : Bool) (h : k.cpu.vmptr = some p) :
    ∃ k', (vmenter ok launch).run k = .ok (entered ok launch (launchOf k p), k') := by
  rw [vmenter, bind_get, h]
  dsimp only
  rw [bind_get, logVmx, bind_ok (s := k) rfl]
  cases hen : ok && (k.cpu.vmcs p).launch == (if launch then .clear else .launched) with
  | false => exact ⟨_, by rw [show entered ok launch (launchOf k p) = false from hen]; rfl⟩
  | true => exact ⟨_, by rw [show entered ok launch (launchOf k p) = true from hen]; rfl⟩

section

variable (ok : Bool) (hcur : k.curenv = some e) (h : k.cpu.vmptr = some p)
include ok hcur h

theorem asmVmrun_run :
    ∃ k', (asmVmrun ok e).run k =
      .ok (entered ok (k.envs e).launches (launchOf k p), k') := by
  rw [asmVmrun, bind_get, hcur, bind_ok deref_run,
    bind_ok getEnv_run, bind_ok (modifyEnv_run _), bind_ok getEnv_run]
  rw [setEnv_envs, update_self]
  obtain ⟨k', hrun⟩ := vmenter_run ok (k.envs e).launches
    (k := k.setEnv e { k.envs e with
      envTf.tfDs := (k.envs e).envRuns.setWidth 16, envTf.tfEs := 0 }) h
  have htail : ∀ r : Bool, ∃ k'', (do
      if !r then
        modifyEnv e fun v => { v with envTf.tfEs := 1 }
      return r : Km Bool).run k' = .ok (r, k'') := by
    intro r
    cases r with
    | false => exact ⟨_, rfl⟩
    | true => exact ⟨_, rfl⟩
  obtain ⟨k'', hrun'⟩ := htail (entered ok (k.envs e).launches (launchOf k p))
  exact ⟨k'', (bind_ok hrun).trans hrun'⟩

theorem vmcsEnter_run :
    ∃ k', (vmcsEnter ok e).run k =
      .ok (entered ok (k.envs e).launches (launchOf k p), k') := by
  rw [vmcsEnter, bind_get, hcur, bind_ok deref_run, bind_ok getEnv_run,
    bind_ok (vmcsWrite64_run h _ _), bind_ok (vmcsWrite64_run (k := k.vmwrite p _ _) h _ _)]
  obtain ⟨k', hrun⟩ := asmVmrun_run ok (p := p)
    (k := (k.vmwrite p .guestRsp (k.envs e).envTf.tfRsp).vmwrite p .guestRip
      (k.envs e).envTf.tfRip) hcur h
  refine ⟨k', hrun.trans ?_⟩
  rw [launchOf, vmwrite_launch, vmwrite_launch]
  rfl

end

/-- `vmx_vmrun` enters the guest `v`, whose run has been counted. -/
def Enterable (k : Kernel) (o : Outcome) (v : Env) : Prop :=
  ∃ a, v.envVmxinfo.vmcs = some a ∧ o.vmptrld = true ∧ o.entry = true ∧
    if v.envRuns = 1#32 then
      o.vmclear = true ∧ Fillable k v.envVmxinfo
    else
      launchOf k (ppn (BitVec.ofNat 64 (8 * a))) = if v.launches then .clear else .launched

theorem entered_iff {ok launch : Bool} {st : LaunchState} : entered ok launch st = true ↔
    ok = true ∧ st = if launch then .clear else .launched := by
  rw [entered, Bool.and_eq_true, beq_iff_eq]

/-- The end of `vmx_vmrun`, with the VMCS on page `p` current. -/
theorem returns_vmcsEnter {ok : Bool} (hcur : k.curenv = some e) (h : k.cpu.vmptr = some p) :
    (Returns ((do return .ok (← vmcsEnter ok e) : Km (Except Err Bool)).run k)
      fun r _ => r = .ok true) ↔
    ok = true ∧ launchOf k p = if (k.envs e).launches then .clear else .launched := by
  obtain ⟨k', hrun⟩ := vmcsEnter_run ok hcur h
  rw [bind_ok hrun, ← entered_iff]
  exact Except.ok.injEq .. ▸ Iff.rfl

theorem returns_vmcsLoad (hcur : k.curenv = some e) : (Returns ((do
      if !(← vmcsLoad o e (k.envs e).envRuns pa) then
        return .error .vmcsInit
      else
        return .ok (← vmcsEnter o.entry e) : Km (Except Err Bool)).run k)
      fun r _ => r = .ok true) ↔
    o.vmptrld = true ∧ o.entry = true ∧
      if (k.envs e).envRuns = 1#32 then
        o.vmclear = true ∧ Fillable k (k.envs e).envVmxinfo
      else
        launchOf k (ppn pa) = if (k.envs e).launches then .clear else .launched := by
  rw [returns_bind, vmcsLoad]
  by_cases hr : (k.envs e).envRuns = 1#32
  · rw [if_pos hr, if_pos hr]
    have hpost : ∀ r k', (vmcsSetup o e pa).run k = .ok (r, k') → ((Returns ((do
        if !r then
          return .error .vmcsInit
        else
          return .ok (← vmcsEnter o.entry e) : Km (Except Err Bool)).run k')
          fun r _ => r = .ok true) ↔
        r = true ∧ o.entry = true) := by
      intro r k' hrun
      cases r with
      | false => exact iff_of_false (fun h => by cases h) fun h => by cases h.1
      | true =>
        -- the VMCS is clear then, and this is the first run
        obtain ⟨hc, hl, -⟩ := returns_vmcsSetup.mp (returns_iff.mpr ⟨true, k', hrun, rfl⟩)
        obtain ⟨-, h⟩ := Lap.vmcsSetup rfl hc hl (Lap.start k (ppn pa)) hrun
        have hlaunch : (k'.envs e).launches = true := by
          rw [Env.launches, (h.runs e).runs, hr]
          rfl
        have hclear : launchOf k' (ppn pa) = .clear := (h.launch _).trans (if_pos rfl)
        refine (returns_vmcsEnter (h.curenv.trans hcur) (h.current rfl)).trans ?_
        rw [hlaunch, hclear]
        simp
    rw [returns_congr hpost, returns_and, returns_vmcsSetup]
    constructor
    · rintro ⟨⟨hc, hl, hf⟩, hen⟩
      exact ⟨hl, hen, hc, hf⟩
    · rintro ⟨hl, hen, hc, hf⟩
      exact ⟨⟨hc, hl, hf⟩, hen⟩
  · rw [if_neg hr, if_neg hr]
    cases hl : o.vmptrld with
    | false => exact iff_of_false (fun h => by cases h) fun h => by cases h.1
    | true =>
      refine Iff.trans ?_ (and_iff_right rfl).symm
      exact returns_vmcsEnter (k := { k with cpu.vmptr := some (ppn pa) }) hcur rfl

/-- **`vmx_vmrun` enters the guest** exactly under these conditions. -/
theorem returns_vmxVmrun (hcur : k.curenv = some e) (hg : (k.envs e).envType = .guest) :
    (Returns ((vmxVmrun o e).run k) fun r _ => r = .ok true) ↔ Enterable k o (k.envs e) := by
  rw [vmxVmrun, bind_ok getEnv_run, if_neg (by simp [hg]), returns_bind, returns_onPmap,
    returns_paddr]
  exact exists_congr fun a => and_congr_right fun _ => returns_vmcsLoad hcur

/-! ### Turning VMX on -/

/-- `vmxon` succeeds: VMX is on, or there is a page for it and nothing else is wrong. -/
def VmxAvailable (ok : Bool) (k : Kernel) : Prop :=
  k.cpu.isVmxRoot = true ∨ ok = true ∧ k.pm.pageFreeList ≠ none

/-- What `vmxon` leaves alone. -/
structure SameButPages (k k' : Kernel) : Prop where
  npages : k'.pm.npages = k.pm.npages
  envs : k'.envs = k.envs
  msr : k'.cpu.msr = k.cpu.msr
  vmcs : k'.cpu.vmcs = k.cpu.vmcs

/-- **`vmxon` succeeds** exactly if VMX is available, and leaves the guests alone. -/
theorem returns_vmxon {ok : Bool} {Q : Bool → Kernel → Prop} {φ : Prop} (h : FreeList k.pm L)
    (hf : ∀ k', ¬ Q false k') (ht : ∀ k', SameButPages k k' → (Q true k' ↔ φ)) :
    Returns ((vmxon ok).run k) Q ↔ VmxAvailable ok k ∧ φ := by
  rw [vmxon, bind_get]
  cases hroot : k.cpu.isVmxRoot with
  | true =>
    refine (ht k ⟨rfl, rfl, rfl, rfl⟩).trans (and_iff_right (.inl hroot)).symm
  | false =>
    rw [if_neg (by simp), vmxInitVmxon, returns_bind, returns_bind]
    cases L with
    | nil =>
      rw [vmxInitVmcs_none h]
      refine iff_of_false (hf k) ?_
      rintro ⟨hroot' | ⟨-, hne⟩, -⟩
      · rw [hroot] at hroot'
        cases hroot'
      · exact hne h.nil
    | cons q L =>
      obtain ⟨w, hrun⟩ := vmxInitVmcs_some h
      rw [hrun]
      cases ok with
      | true =>
        refine (ht { k with pm := (k.pm.countOut q).setWord (q * 512) w, cpu.isVmxRoot := true }
          ⟨rfl, rfl, rfl, rfl⟩).trans (and_iff_right (.inr ⟨rfl, ?_⟩)).symm
        rw [h.head]
        exact Option.some_ne_none q
      | false =>
        refine iff_of_false (fun hret => ?_) ?_
        · change Returns ((onPmap (pageDecref q) >>= _).run _) _ at hret
          rw [returns_bind] at hret
          obtain ⟨_, k', -, hq⟩ := returns_iff.mp hret
          exact hf k' hq
        · rintro ⟨hroot' | ⟨hok, -⟩, -⟩
          · rw [hroot] at hroot'
            cases hroot'
          · cases hok

/-! ### The call -/

theorem exists_firstRunnable (h : ∃ e, (k.envs e).envStatus = .runnable) (i : EnvIx) :
    ∃ e, firstRunnable k.envs nenv i = some e ∧ (k.envs e).envStatus = .runnable := by
  obtain ⟨u, hu⟩ := h
  rw [firstRunnable_eq]
  have hsome : ((next nenv i).find? fun e => decide ((k.envs e).envStatus = .runnable)).isSome :=
    List.find?_isSome.mpr ⟨u, mem_turn i u, decide_eq_true hu⟩
  obtain ⟨e, he⟩ := Option.isSome_iff_exists.mp hsome
  have hrun := List.find?_some he
  exact ⟨e, he, by simpa using hrun⟩

/-- The first runnable environment can be dispatched. -/
def FirstStarts (ok : Bool) (o : Outcome) (k : Kernel) : Prop :=
  ∃ e, firstRunnable k.envs nenv k.startSlot = some e ∧
    if (k.envs e).envType = .guest then
      VmxAvailable ok k ∧ Enterable k o { k.envs e with envRuns := (k.envs e).envRuns + 1#32 }
    else
      k.curenv ≠ some e

theorem enterable_congr {k k' : Kernel} {v v' : Env} (hn : k'.pm.npages = k.pm.npages)
    (hm : k'.cpu.msr = k.cpu.msr) (hv : k'.cpu.vmcs = k.cpu.vmcs) (hr : v'.envRuns = v.envRuns)
    (hi : v'.envVmxinfo = v.envVmxinfo) : Enterable k' o v' ↔ Enterable k o v := by
  have hlaunches : v'.launches = v.launches := by rw [Env.launches, hr, Env.launches]
  have hlaunch : ∀ q, launchOf k' q = launchOf k q := fun q => by rw [launchOf, hv, launchOf]
  simp only [Enterable, hr, hi, hlaunches, hlaunch, fillable_congr hn hm]

theorem switched_envRuns : ((k.switched e).envs e).envRuns = (k.envs e).envRuns + 1#32 := by
  rw [switched]
  dsimp only
  rw [update_self]
  cases k.curenv with
  | none => rfl
  | some c =>
    by_cases hc : e = c
    · subst hc
      dsimp only
      rw [update_self]
      rfl
    · dsimp only
      rw [update_of_ne hc]

/-- What the guest needs when it is run, in terms of the state before the call. -/
theorem SameButPages.enterable {k k' : Kernel} (h : SameButPages k k') (e : EnvIx) :
    Enterable (k'.switched e) o ((k'.switched e).envs e) ↔
      Enterable k o { k.envs e with envRuns := (k.envs e).envRuns + 1#32 } := by
  refine enterable_congr (k := k) h.npages h.msr h.vmcs ?_ ?_
  · rw [switched_envRuns, h.envs]
  · rw [switched_congr Env.envVmxinfo (fun _ _ _ => rfl), h.envs]

/-- **A call dispatches an environment** exactly if it can dispatch the first one it finds. -/
theorem schedYield_leaves_iff {ok : Bool} (hL : FreeList k.pm L)
    (hrun : ∃ e, (k.envs e).envStatus = .runnable ∧ (k.envs e).envType ≠ .guest) :
    (Returns ((schedYieldEnd ok o).run k) fun r _ => r.Leaves) ↔ FirstStarts ok o k := by
  obtain ⟨e, he, hs⟩ := exists_firstRunnable (hrun.imp fun _ h => h.1) k.startSlot
  rw [schedYieldEnd, bind_get, returns_bind, schedYield, bind_get, FirstStarts, he]
  have hex : ∀ P : EnvIx → Prop, (∃ e', some e = some e' ∧ P e') ↔ P e := fun P =>
    ⟨by rintro ⟨_, ⟨⟩, h⟩; exact h, fun h => ⟨e, rfl, h⟩⟩
  rw [hex]
  dsimp only
  by_cases hg : (k.envs e).envType = .guest
  · rw [if_pos hg, if_pos hg, returns_bind]
    refine returns_vmxon hL (fun _ => Ending.not_leaves_returned) fun k' h' => ?_
    have hg' : ((k'.switched e).envs e).envType = .guest := by
      rw [switched_envType, h'.envs, hg]
    rw [if_pos rfl, bind_ok switchTo_run]
    change Returns ((vmxVmrun o e >>= _).run (k'.switched e)) _ ↔ _
    rw [returns_bind, ← h'.enterable e, ← returns_vmxVmrun switched_curenv hg']
    refine returns_congr fun r k'' _ => ?_
    rcases r with err | _ | _
    · exact iff_of_false Ending.not_leaves_returned fun h => by cases h
    · exact iff_of_false Ending.not_leaves_returned fun h => by cases h
    · exact iff_of_true ⟨e, .inr rfl⟩ rfl
  · rw [if_neg hg, if_neg hg]
    by_cases hc : k.curenv = some e
    · rw [returns_bind, envRun_panics hc (by rw [hs]; decide)]
      exact iff_of_false id fun h => h hc
    · rw [bind_ok (envRun_switch hc)]
      exact iff_of_true ⟨e, .inl rfl⟩ hc

/-! ### Two tables -/

/-- Slot 5 is run, for all that the instructions of VMX would do. -/
theorem schedYield_leaves_user :
    Returns ((schedYieldEnd false ⟨false, false, false⟩).run (twoSlots .running .runnable))
      fun r _ => r.Leaves := by
  refine (schedYield_leaves_iff (L := []) ?_ ⟨5, by decide +kernel⟩).mpr ⟨5, by decide +kernel, ?_⟩
  · exact ⟨rfl, fun _ _ => rfl, nofun, nofun⟩
  · rw [if_neg (by decide +kernel)]
    decide +kernel

/-- Slot 5 is a user environment as before, and there is a guest in slot 1. -/
def guestFirst : Kernel :=
  let k := twoSlots .running .runnable
  k.setEnv 1 { k.envs 1 with envStatus := .runnable, envType := .guest }

/-- The guest comes first, and `vmxon` fails: the user environment is not looked at. -/
theorem schedYield_returns : (guestFirst.envs 5).envStatus = .runnable ∧
    (guestFirst.envs 5).envType ≠ .guest ∧
    Returns ((schedYieldEnd false ⟨true, true, true⟩).run guestFirst)
      fun r k => r = .returned ∧ k.curenv = some 0 := by
  decide +kernel

end JosVmm
