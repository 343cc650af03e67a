import JosVmm.Guests.Targets
import JosVmm.Machine.Vmx

/-!
# Vmx — launch states

`vmx_vmrun` decides by the run counter of a guest: at 1 it clears and fills the VMCS, and
`asm_vmrun` executes `VMLAUNCH` if the lower 16 bits of the counter are 1, and `VMRESUME` otherwise.

The runs here are any calls of `vmx_vmrun`, for any number of guests in any order, with whatever
happens between them and with any outcome of the instructions.  If the instructions of the first
run of a guest succeed, and no guest is run more than 65536 times, then each VMCS is launched once,
after it was cleared and filled, and only resumed from then on (`launch_disciplined`).  If
`VMPTRLD` fails in the first run, the second one resumes a VMCS that was never launched
(`resumed_unlaunched`).
-/

namespace JosVmm
open Support Support.Prog Function List

/-! ### Histories -/

/-- What happened to the VMCS on page `p`, in order. -/
def vmxHistory (k : Kernel) (p : Nat) : List VmxEvent :=
  (k.cpu.vmxlog.filterMap fun (q, ev) => if q = p then some ev else none).reverse

/-- The VMCS was launched and not cleared since. -/
def launchedSince (l : List VmxEvent) : Bool :=
  l.foldl (fun b ev => match ev with
    | .vmclear true => false
    | .vmlaunch true => true
    | _ => b) false

/-- The launch-state discipline. -/
structure Disciplined (l : List VmxEvent) : Prop where
  /-- `VMLAUNCH` is executed on a VMCS that is cleared and filled, and not launched since. -/
  launch : ∀ l₁ ok l₂, l = l₁ ++ .vmlaunch ok :: l₂ →
    launchedSince l₁ = false ∧ [.vmclear true, .init].Sublist l₁
  /-- `VMRESUME` is executed on a VMCS that is launched. -/
  resume : ∀ l₁ ok l₂, l = l₁ ++ .vmresume ok :: l₂ → launchedSince l₁ = true
  /-- The initialisation is not repeated. -/
  once : (l.filter fun ev => ev matches .vmclear _ | .init).length ≤ 2

/-! ### Runs -/

/-- The calls of `vmx_vmrun`. -/
inductive RunOp where
  | sched (ok : Bool) (o : Outcome) (e : EnvIx)
  | idle (ok : Bool) (o : Outcome) (e : EnvIx)
  | run (o : Outcome) (e : EnvIx)
  /-- Anything else that leads to the state `k`. -/
  | other (k : Kernel)

def RunOp.exec : RunOp → Km Unit
  | sched ok o e => schedGuest ok o e
  | idle ok o e => schedIdle ok o e
  | run o e => envRunGuest o e
  | other k => set k

/-- The launch state of the VMCS on page `p`. -/
def launchOf (k : Kernel) (p : Nat) : LaunchState := (k.cpu.vmcs p).launch

/-- What `vmx_vmrun` goes by is the same in both environments. -/
structure SameRuns (v v' : Env) : Prop where
  runs : v'.envRuns = v.envRuns
  type : v'.envType = v.envType
  vmcs : v'.envVmxinfo.vmcs = v.envVmxinfo.vmcs

/-- What is between two calls leaves the guests `G` alone. -/
structure SameVmx (G : Finset EnvIx) (k k' : Kernel) : Prop where
  runs : ∀ e ∈ G, SameRuns (k.envs e) (k'.envs e)
  launch : ∀ e ∈ G, launchOf k' (k.envs e).vmcsPage = launchOf k (k.envs e).vmcsPage
  history : ∀ e ∈ G, vmxHistory k' (k.envs e).vmcsPage = vmxHistory k (k.envs e).vmcsPage

/-- The calls are for the guests `G`; the idle one is current. -/
def RunOp.Enabled (G : Finset EnvIx) (k : Kernel) : RunOp → Prop
  | sched _ _ e => e ∈ G
  | idle _ _ e => e ∈ G ∧ k.curenv = some e
  | run _ e => e ∈ G
  | other k' => SameVmx G k k'

/-- The run of a guest: the first one finds nothing wrong, and it is not the 65537th. -/
def RunsWell (v : Env) (o : Outcome) : Prop :=
  v.envRuns.toNat < 65536 ∧ (v.envRuns = 0 → o.vmclear = true ∧ o.vmptrld = true ∧ o.entry = true)

/-- The same for a call; one that is not counted must not be the first or the second. -/
def RunOp.Well (k : Kernel) : RunOp → Prop
  | sched _ o e => RunsWell (k.envs e) o
  | idle _ o e => RunsWell (k.envs e) o
  | run o e => if k.curenv = some e then 2 ≤ (k.envs e).envRuns.toNat else RunsWell (k.envs e) o
  | other _ => True

/-! ### One VMCS at a time -/

/-- `k` differs from `k₀` in the VMCS on page `p`, whose launch state is `st` and whose history has
become `l`; if `loaded`, it is current. -/
structure Lap (k₀ : Kernel) (p : Nat) (loaded : Bool) (st : LaunchState) (l : List VmxEvent)
    (k : Kernel) : Prop where
  current : loaded = true → k.cpu.vmptr = some p
  launch : ∀ q, launchOf k q = if q = p then st else launchOf k₀ q
  history : ∀ q, vmxHistory k q = if q = p then l else vmxHistory k₀ q
  runs : ∀ g, SameRuns (k₀.envs g) (k.envs g)
  curenv : k.curenv = k₀.curenv

variable {k₀ k k' : Kernel} {p : Nat} {loaded ok : Bool} {st : LaunchState} {l : List VmxEvent}
  {e : EnvIx} {o : Outcome} {G : Finset EnvIx} {v : Env} {pa : Word}

theorem SameRuns.refl (v : Env) : SameRuns v v := ⟨rfl, rfl, rfl⟩

theorem SameRuns.trans {u w : Env} (h : SameRuns u v) (h' : SameRuns v w) : SameRuns u w :=
  ⟨h'.runs.trans h.runs, h'.type.trans h.type, h'.vmcs.trans h.vmcs⟩

theorem SameRuns.page {v' : Env} (h : SameRuns v v') : v'.vmcsPage = v.vmcsPage := by
  rw [Env.vmcsPage, h.vmcs, Env.vmcsPage]

theorem Lap.start (k : Kernel) (p : Nat) : Lap k p false (launchOf k p) (vmxHistory k p) k := by
  refine ⟨nofun, fun q => ?_, fun q => ?_, fun g => .refl _, rfl⟩
  · split
    · rename_i hq
      rw [hq]
    · rfl
  · split
    · rename_i hq
      rw [hq]
    · rfl

theorem Lap.onPmap {α : Type} {x : Pm α} :
    Ensures (Lap k₀ p loaded st l) (onPmap x) fun _ => Lap k₀ p loaded st l :=
  fun k a k' h hrun => by
    obtain ⟨s, -, rfl⟩ := onPmap_eq_ok hrun
    exact ⟨h.current, h.launch, h.history, h.runs, h.curenv⟩

theorem Lap.modifyEnv {f : Env → Env} (hf : ∀ v, SameRuns v (f v)) :
    Ensures (Lap k₀ p loaded st l) (modifyEnv e f) fun _ => Lap k₀ p loaded st l :=
  Ensures.modify fun k h => by
    refine ⟨h.current, h.launch, h.history, fun g => ?_, h.curenv⟩
    change SameRuns _ (update k.envs e (f (k.envs e)) g)
    rw [update_apply]
    split
    · rename_i hg
      rw [hg]
      exact (h.runs e).trans (hf _)
    · exact h.runs g

theorem Lap.getEnv : Ensures (Lap k₀ p loaded st l) (getEnv e) fun v k =>
    SameRuns (k₀.envs e) v ∧ Lap k₀ p loaded st l k := fun k a k' h hrun => by
  cases hrun
  exact ⟨h.runs e, h⟩

theorem Lap.vmcsWrite64 {f : VmcsField} {w : Word} :
    Ensures (Lap k₀ p loaded st l) (vmcsWrite64 f w) fun _ => Lap k₀ p loaded st l :=
  fun k a k' h hrun => by
    obtain ⟨q, hq, rfl⟩ := vmcsWrite64_eq_ok hrun
    refine ⟨h.current, fun q' => ?_, h.history, h.runs, h.curenv⟩
    rw [launchOf, Kernel.vmwrite_launch]
    exact h.launch q'

theorem Lap.vmcsWriteAll (ws : List (VmcsField × Word)) :
    Ensures (Lap k₀ p loaded st l) (vmcsWriteAll ws) fun _ => Lap k₀ p loaded st l :=
  Ensures.forM (fun _ => Lap.vmcsWrite64) ws

theorem vmxHistory_cons (k : Kernel) (ev : VmxEvent) (q : Nat) :
    vmxHistory { k with cpu.vmxlog := (p, ev) :: k.cpu.vmxlog } q =
      vmxHistory k q ++ if p = q then [ev] else [] := by
  rw [vmxHistory, vmxHistory, filterMap_cons]
  dsimp only
  split
  · rename_i h
    split at h
    · cases h
    · rename_i hpq
      rw [if_neg hpq, append_nil]
  · rename_i ev' h
    split at h
    · rename_i hpq
      rw [if_pos hpq, reverse_cons, Option.some.inj h]
    · cases h

theorem Lap.logVmx {ev : VmxEvent} :
    Ensures (Lap k₀ p loaded st l) (logVmx p ev) fun _ => Lap k₀ p loaded st (l ++ [ev]) :=
  Ensures.modify fun k h => by
    refine ⟨h.current, h.launch, fun q => ?_, h.runs, h.curenv⟩
    rw [vmxHistory_cons, h.history q]
    by_cases hq : q = p
    · rw [if_pos hq, if_pos hq, if_pos hq.symm]
    · rw [if_neg hq, if_neg hq, if_neg fun h' => hq h'.symm, append_nil]

theorem Lap.setLaunch {st' : LaunchState} :
    Ensures (Lap k₀ p loaded st l) (setLaunch p st') fun _ => Lap k₀ p loaded st' l :=
  Ensures.modify fun k h => by
    refine ⟨h.current, fun q => ?_, h.history, h.runs, h.curenv⟩
    change (update k.cpu.vmcs p { k.cpu.vmcs p with launch := st' } q).launch = _
    rw [update_apply]
    split
    · rfl
    · rename_i hq
      have := h.launch q
      rwa [if_neg hq] at this

/-! ### The instructions -/

theorem Lap.vmclear (hpa : ppn pa = p) :
    Ensures (Lap k₀ p loaded st l) (vmclear true pa) fun r k =>
      r = true ∧ Lap k₀ p false .clear (l ++ [.vmclear true]) k := by
  rw [JosVmm.vmclear, hpa]
  refine .bind Lap.logVmx fun _ => .bind Lap.setLaunch fun _ => ?_
  refine .bind (R := fun _ => Lap k₀ p false .clear (l ++ [.vmclear true])) (.modify fun k h => ?_)
    fun _ => .pure fun _ h => ⟨rfl, h⟩
  split
  · exact ⟨nofun, h.launch, h.history, h.runs, h.curenv⟩
  · exact ⟨nofun, h.launch, h.history, h.runs, h.curenv⟩

theorem Lap.vmptrld (hpa : ppn pa = p) :
    Ensures (Lap k₀ p loaded st l) (vmptrld ok pa) fun r k =>
      r = ok ∧ Lap k₀ p ok st l k := by
  rw [JosVmm.vmptrld]
  cases ok with
  | false => exact .pure fun k h => ⟨rfl, nofun, h.launch, h.history, h.runs, h.curenv⟩
  | true =>
    refine .bind (R := fun _ => Lap k₀ p true st l) (.modify fun k h => ?_)
      fun _ => .pure fun _ h => ⟨rfl, h⟩
    exact ⟨fun _ => congrArg some hpa, h.launch, h.history, h.runs, h.curenv⟩

/-- Whether the entry succeeds, with the VMCS in the state `st`. -/
def entered (ok launch : Bool) (st : LaunchState) : Bool :=
  ok && st == (if launch then .clear else .launched)

/-- The entry in the history. -/
def entryEvent (launch entered : Bool) : VmxEvent :=
  if launch then .vmlaunch entered else .vmresume entered

theorem Lap.vmenter {launch : Bool} :
    Ensures (Lap k₀ p true st l) (vmenter ok launch) fun _ =>
      Lap k₀ p true (if entered ok launch st then .launched else st)
        (l ++ [entryEvent launch (entered ok launch st)]) := fun k a k' h hrun => by
  have hst : (k.cpu.vmcs p).launch = st := (h.launch p).trans (if_pos rfl)
  rw [JosVmm.vmenter, bind_get, h.current rfl] at hrun
  dsimp only at hrun
  rw [bind_get, hst] at hrun
  refine Ensures.of_run (fun _ => Lap k₀ p true (if entered ok launch st then .launched else st)
    (l ++ [entryEvent launch (entered ok launch st)])) h hrun (.bind Lap.logVmx fun _ => ?_)
  cases hen : ok && st == (if launch then .clear else .launched) with
  | false =>
    rw [show entered ok launch st = false from hen]
    exact .skip
  | true =>
    rw [show entered ok launch st = true from hen]
    exact .bind Lap.setLaunch fun _ => .skip

/-! ### The first run -/

theorem Lap.vmcsHostInit :
    Ensures (Lap k₀ p loaded st l) vmcsHostInit fun _ => Lap k₀ p loaded st l := by
  rw [JosVmm.vmcsHostInit]
  exact .bind .get fun _ => Lap.vmcsWriteAll _

theorem Lap.vmcsCtlsInit :
    Ensures (Lap k₀ p loaded st l) (vmcsCtlsInit e) fun _ => Lap k₀ p loaded st l := by
  rw [JosVmm.vmcsCtlsInit]
  refine .bind .get fun _ => .bind getEnv_keeps fun _ => ?_
  dsimp only
  split
  · exact .throw
  · refine .bind Lap.onPmap fun _ => .bind Lap.onPmap fun _ => ?_
    exact .bind Lap.onPmap fun _ => .bind Lap.onPmap fun _ => Lap.vmcsWriteAll _

/-- **The first run** clears the VMCS and fills it. -/
theorem Lap.vmcsSetup (hpa : ppn pa = p) (hc : o.vmclear = true) (hl : o.vmptrld = true) :
    Ensures (Lap k₀ p loaded st l) (vmcsSetup o e pa) fun r k =>
      r = true ∧ Lap k₀ p true .clear (l ++ [.vmclear true, .init]) k := by
  rw [JosVmm.vmcsSetup, hc, hl, hpa]
  refine .bind (Lap.vmclear hpa) fun r => .of_pre fun hr => ?_
  rw [hr]
  refine .bind (Lap.vmptrld hpa) fun r => .of_pre fun hr => ?_
  rw [hr]
  refine .bind Lap.vmcsHostInit fun _ => .bind (Lap.vmcsWriteAll _) fun _ => ?_
  refine .bind Lap.logVmx fun _ => .bind getEnv_keeps fun _ => .bind Lap.onPmap fun _ => ?_
  refine .bind .get fun _ => .bind (Lap.modifyEnv fun _ => ⟨rfl, rfl, rfl⟩) fun _ => ?_
  refine .bind Lap.onPmap fun _ => .bind Lap.vmcsCtlsInit fun _ => .pure fun k h => ⟨rfl, ?_⟩
  rwa [append_assoc] at h

/-! ### Entering -/

/-- `asm_vmrun` launches a guest with these runs. -/
def Env.launches (v : Env) : Bool := (v.envRuns.setWidth 16).setWidth 32 == 1#32

/-- `asm_vmrun` has tried to enter the guest `e`. -/
def Tried (k₀ : Kernel) (p : Nat) (ok : Bool) (e : EnvIx) (st : LaunchState)
    (l : List VmxEvent) : Kernel → Prop :=
  let launch := (k₀.envs e).launches
  Lap k₀ p true (if entered ok launch st then .launched else st)
    (l ++ [entryEvent launch (entered ok launch st)])

theorem Lap.asmVmrun (hcur : k₀.curenv = some e) :
    Ensures (Lap k₀ p true st l) (asmVmrun ok e) fun _ => Tried k₀ p ok e st l := by
  intro k a k' h hrun
  rw [JosVmm.asmVmrun, bind_get, h.curenv, hcur, bind_ok deref_run,
    bind_ok (a := k.envs e) (u := k) rfl] at hrun
  obtain ⟨_, k₁, hmod, hrun⟩ := bind_inv hrun
  have h1 := Ensures.of_run (fun _ => Lap k₀ p true st l) h hmod
    (Lap.modifyEnv fun _ => ⟨rfl, rfl, rfl⟩)
  have hds : (k₁.envs e).envTf.tfDs = (k₀.envs e).envRuns.setWidth 16 := by
    cases hmod
    rw [← (h.runs e).runs]
    change (update k.envs e _ e).envTf.tfDs = _
    rw [update_self]
  rw [bind_ok (a := k₁.envs e) (u := k₁) rfl] at hrun
  dsimp only at hrun
  rw [hds] at hrun
  refine Ensures.of_run (fun _ => Tried k₀ p ok e st l) h1 hrun (.bind Lap.vmenter fun r => ?_)
  cases r with
  | false => exact .bind (Lap.modifyEnv fun _ => ⟨rfl, rfl, rfl⟩) fun _ => .skip
  | true => exact .skip

theorem Lap.vmcsEnter (hcur : k₀.curenv = some e) :
    Ensures (Lap k₀ p true st l) (vmcsEnter ok e) fun _ => Tried k₀ p ok e st l := by
  intro k a k' h hrun
  rw [JosVmm.vmcsEnter, bind_get, h.curenv, hcur,
    bind_ok deref_run, bind_ok (a := k.envs e) (u := k) rfl] at hrun
  exact Ensures.of_run (fun _ => Tried k₀ p ok e st l) h hrun
    (.bind Lap.vmcsWrite64 fun _ => .bind Lap.vmcsWrite64 fun _ => Lap.asmVmrun hcur)

/-- `vmx_vmrun` makes the VMCS current, and enters the guest if that succeeds. -/
theorem Lap.vmxVmrun {Q : Kernel → Prop} (st' : LaunchState) (l' : List VmxEvent)
    (hg : (k₀.envs e).envType = .guest)
    (hv : (k₀.envs e).envVmxinfo.vmcs = some (p * 512)) (hp : p < 2 ^ 52)
    (hload : ∀ pa, ppn pa = p →
      Ensures (Lap k₀ p loaded st l) (vmcsLoad o e (k₀.envs e).envRuns pa) fun r k =>
        if r then Lap k₀ p true st' l' k else Q k)
    (henter : Ensures (Lap k₀ p true st' l') (JosVmm.vmcsEnter o.entry e) fun _ => Q) :
    Ensures (Lap k₀ p loaded st l) (vmxVmrun o e) fun _ => Q := by
  have hppn : ppn (BitVec.ofNat 64 (8 * (p * 512))) = p := by rw [ofNat_page hp, ppn_page2pa hp]
  rw [JosVmm.vmxVmrun]
  refine .bind Lap.getEnv fun v => .of_pre fun hv' => ?_
  rw [hv'.type, hg, if_neg (by simp), hv'.vmcs, hv, hv'.runs]
  refine .bind (R := fun pa k => ppn pa = p ∧ Lap k₀ p loaded st l k)
    (fun k pa k' h hrun => ?_) fun pa => .of_pre fun hpa => .bind (hload pa hpa) fun r => ?_
  · cases hrun
    exact ⟨hppn, h⟩
  · cases r with
    | false => exact .skip
    | true => exact .bind henter fun _ => .skip

section

variable (hcur : k₀.curenv = some e) (hg : (k₀.envs e).envType = .guest)
  (hv : (k₀.envs e).envVmxinfo.vmcs = some (p * 512)) (hp : p < 2 ^ 52)
include hcur hg hv hp

/-- **The first call** of `vmx_vmrun` for a guest launches it. -/
theorem Lap.vmxVmrun_first (hr : (k₀.envs e).envRuns = 1#32)
    (ho : o.vmclear = true ∧ o.vmptrld = true ∧ o.entry = true) :
    Ensures (Lap k₀ p loaded st l) (JosVmm.vmxVmrun o e) fun _ =>
      Lap k₀ p true .launched (l ++ [.vmclear true, .init, .vmlaunch true]) := by
  have hl : (k₀.envs e).launches = true := by rw [Env.launches, hr]; rfl
  refine Lap.vmxVmrun .clear (l ++ [.vmclear true, .init]) hg hv hp (fun pa hpa => ?_) ?_
  · rw [vmcsLoad, if_pos hr]
    intro k r k' h hrun
    obtain ⟨rfl, h'⟩ := Lap.vmcsSetup hpa ho.1 ho.2.1 h hrun
    exact h'
  · intro k r k' h hrun
    have h' := Lap.vmcsEnter hcur h hrun
    rwa [Tried, hl, ho.2.2, append_assoc] at h'

/-- **Every other call** resumes it, or does nothing. -/
theorem Lap.vmxVmrun_next (hr : (k₀.envs e).envRuns ≠ 1#32) (hl : (k₀.envs e).launches = false) :
    Ensures (Lap k₀ p loaded .launched l) (JosVmm.vmxVmrun o e) fun _ k =>
      ∃ loaded rs, (∀ ev ∈ rs, ∃ ok, ev = .vmresume ok) ∧ Lap k₀ p loaded .launched (l ++ rs) k := by
  refine Lap.vmxVmrun .launched l hg hv hp (fun pa hpa => ?_) ?_
  · rw [vmcsLoad, if_neg hr]
    intro k r k' h hrun
    obtain ⟨rfl, h'⟩ := Lap.vmptrld hpa h hrun
    split
    · rename_i hr
      rwa [hr] at h'
    · exact ⟨_, [], nofun, by rwa [append_nil]⟩
  · intro k r k' h hrun
    have h' := Lap.vmcsEnter hcur h hrun
    rw [Tried, hl, ite_self] at h'
    refine ⟨true, _, fun ev hev => ?_, h'⟩
    exact ⟨_, List.mem_singleton.mp hev⟩

end

/-! ### The invariant -/

/-- The guests `G` have a VMCS each. -/
structure OwnVmcs (G : Finset EnvIx) (k : Kernel) : Prop where
  guest : ∀ e ∈ G, (k.envs e).envType = .guest
  vmcs : ∀ e ∈ G, (k.envs e).envVmxinfo.vmcs = some ((k.envs e).vmcsPage * 512)
  lt : ∀ e ∈ G, (k.envs e).vmcsPage < 2 ^ 52
  apart : ∀ e ∈ G, ∀ g ∈ G, (k.envs e).vmcsPage = (k.envs g).vmcsPage → e = g

/-- The guest `e` has been launched, and has been resumed since. -/
structure Launched (k : Kernel) (e : EnvIx) : Prop where
  pos : 1 ≤ (k.envs e).envRuns.toNat
  le : (k.envs e).envRuns.toNat ≤ 65536
  state : launchOf k (k.envs e).vmcsPage = .launched
  history : ∃ rs, (∀ ev ∈ rs, ∃ ok, ev = VmxEvent.vmresume ok) ∧
    vmxHistory k (k.envs e).vmcsPage = [.vmclear true, .init, .vmlaunch true] ++ rs

/-- The guest `e` has not run yet. -/
def Unrun (k : Kernel) (e : EnvIx) : Prop :=
  (k.envs e).envRuns = 0 ∧ vmxHistory k (k.envs e).vmcsPage = []

structure LaunchInv (G : Finset EnvIx) (k : Kernel) : Prop where
  own : OwnVmcs G k
  stage : ∀ e ∈ G, Unrun k e ∨ Launched k e

theorem OwnVmcs.of_same (h : OwnVmcs G k) (hs : ∀ e ∈ G, (k'.envs e).envType = (k.envs e).envType ∧
    (k'.envs e).envVmxinfo.vmcs = (k.envs e).envVmxinfo.vmcs) : OwnVmcs G k' := by
  have hpage : ∀ e ∈ G, (k'.envs e).vmcsPage = (k.envs e).vmcsPage := fun e he => by
    rw [Env.vmcsPage, (hs e he).2, Env.vmcsPage]
  refine ⟨fun e he => ?_, fun e he => ?_, fun e he => ?_, fun e he g hg => ?_⟩
  · rw [(hs e he).1, h.guest e he]
  · rw [(hs e he).2, hpage e he, h.vmcs e he]
  · rw [hpage e he]
    exact h.lt e he
  · rw [hpage e he, hpage g hg]
    exact h.apart e he g hg

/-- A guest is at the same stage if its counter and what happened to its VMCS are the same. -/
theorem stage_of_same (hs : SameRuns (k.envs e) (k'.envs e))
    (hst : launchOf k' (k.envs e).vmcsPage = launchOf k (k.envs e).vmcsPage)
    (hh : vmxHistory k' (k.envs e).vmcsPage = vmxHistory k (k.envs e).vmcsPage)
    (h : Unrun k e ∨ Launched k e) : Unrun k' e ∨ Launched k' e := by
  refine h.imp (fun h => ⟨hs.runs.trans h.1, ?_⟩) fun h => ⟨?_, ?_, ?_, ?_⟩
  · rw [hs.page, hh, h.2]
  · rw [hs.runs]
    exact h.pos
  · rw [hs.runs]
    exact h.le
  · rw [hs.page, hst, h.state]
  · rw [hs.page, hh]
    exact h.history

theorem LaunchInv.other (h : LaunchInv G k) (hs : SameVmx G k k') : LaunchInv G k' :=
  ⟨h.own.of_same fun e he => ⟨(hs.runs e he).type, (hs.runs e he).vmcs⟩, fun e he =>
    stage_of_same (hs.runs e he) (hs.launch e he) (hs.history e he) (h.stage e he)⟩

/-- The guest `e`, which has just been counted, is about to run. -/
structure Ready (G : Finset EnvIx) (o : Outcome) (e : EnvIx) (k : Kernel) : Prop where
  own : OwnVmcs G k
  mem : e ∈ G
  cur : k.curenv = some e
  others : ∀ g ∈ G, g ≠ e → Unrun k g ∨ Launched k g
  stage : ((k.envs e).envRuns = 1#32 ∧ vmxHistory k (k.envs e).vmcsPage = [] ∧
      o.vmclear = true ∧ o.vmptrld = true ∧ o.entry = true) ∨
    (2 ≤ (k.envs e).envRuns.toNat ∧ Launched k e)

theorem launches_eq_false (h : 2 ≤ v.envRuns.toNat) (hle : v.envRuns.toNat ≤ 65536) :
    v.launches = false := by
  rw [Env.launches, beq_eq_false_iff_ne]
  intro h1
  have := congrArg BitVec.toNat h1
  rw [BitVec.toNat_setWidth, BitVec.toNat_setWidth] at this
  have h1 : (1#32).toNat = 1 := rfl
  omega

/-- What a run does to one VMCS keeps the invariant if it launches the guest or resumes it. -/
theorem Ready.lap (h : Ready G o e k) (hle : 1 ≤ (k.envs e).envRuns.toNat)
    (hlt : (k.envs e).envRuns.toNat ≤ 65536)
    (hl : ∃ rs, (∀ ev ∈ rs, ∃ ok, ev = VmxEvent.vmresume ok) ∧
      l = [.vmclear true, .init, .vmlaunch true] ++ rs)
    (h' : Lap k (k.envs e).vmcsPage loaded .launched l k') : LaunchInv G k' := by
  refine ⟨h.own.of_same fun g _ => ⟨(h'.runs g).type, (h'.runs g).vmcs⟩, fun g hg => ?_⟩
  by_cases hge : g = e
  · subst hge
    obtain ⟨rs, hrs, hl⟩ := hl
    refine .inr ⟨?_, ?_, ?_, rs, hrs, ?_⟩
    · rwa [(h'.runs g).runs]
    · rwa [(h'.runs g).runs]
    · rw [(h'.runs g).page, h'.launch, if_pos rfl]
    · rw [(h'.runs g).page, h'.history, if_pos rfl, hl]
  · have hpage : (k.envs g).vmcsPage ≠ (k.envs e).vmcsPage := fun hp =>
      hge (h.own.apart g hg e h.mem hp)
    refine stage_of_same (h'.runs g) ?_ ?_ (h.others g hg hge)
    · rw [h'.launch, if_neg hpage]
    · rw [h'.history, if_neg hpage]

/-- **A call of `vmx_vmrun`** for a guest that is ready keeps the invariant. -/
theorem Ready.vmxVmrun : Ensures (Ready G o e) (vmxVmrun o e) fun _ => LaunchInv G :=
  fun k r k' h hrun => by
    have hg := h.own.guest e h.mem
    have hv := h.own.vmcs e h.mem
    have hp := h.own.lt e h.mem
    obtain ⟨h1, hh, ho⟩ | ⟨h2, hst⟩ := h.stage
    · have h' := Lap.vmxVmrun_first h.cur hg hv hp h1 ho (.start k _) hrun
      rw [hh, nil_append] at h'
      refine h.lap ?_ ?_ ⟨[], nofun, rfl⟩ h' <;> rw [h1] <;> decide
    · have hne : (k.envs e).envRuns ≠ 1#32 := fun h1 => by
        rw [h1] at h2
        exact absurd h2 (by decide)
      have hstart := Lap.start k (k.envs e).vmcsPage
      rw [hst.state] at hstart
      obtain ⟨b, rs', hrs', h'⟩ :=
        Lap.vmxVmrun_next h.cur hg hv hp hne (launches_eq_false h2 hst.le) hstart hrun
      obtain ⟨rs, hrs, hl⟩ := hst.history
      rw [hl, append_assoc] at h'
      refine h.lap hst.pos hst.le ⟨rs ++ rs', fun ev hev => ?_, rfl⟩ h'
      exact (List.mem_append.mp hev).elim (hrs ev) (hrs' ev)

/-! ### Counting a run -/

/-- The guest `e` may be counted. -/
structure Poised (G : Finset EnvIx) (o : Outcome) (e : EnvIx) (k : Kernel) : Prop where
  inv : LaunchInv G k
  mem : e ∈ G
  well : RunsWell (k.envs e) o

theorem Poised.of_same (h : Poised G o e k) (hs : SameVmx G k k') : Poised G o e k' := by
  refine ⟨h.inv.other hs, h.mem, ?_⟩
  rw [RunsWell, (hs.runs e h.mem).runs]
  exact h.well

theorem SameVmx.of_envs (he : ∀ g, SameRuns (k.envs g) (k'.envs g))
    (hv : k'.cpu.vmcs = k.cpu.vmcs) (hl : k'.cpu.vmxlog = k.cpu.vmxlog) : SameVmx G k k' :=
  ⟨fun g _ => he g, fun g _ => by rw [launchOf, hv, launchOf],
    fun g _ => by rw [vmxHistory, hl, vmxHistory]⟩

/-- `vmxon` leaves all but the memory and its own flag. -/
theorem vmxon_eq_ok {r : Bool} (h : (vmxon ok).run k = .ok (r, k')) :
    ∃ s b, k' = { k with pm := s, cpu.isVmxRoot := b } := by
  rw [vmxon, bind_get] at h
  split at h
  · cases h
    exact ⟨k.pm, _, rfl⟩
  · obtain ⟨x, k₁, h1, h⟩ := bind_inv h
    obtain rfl : k' = k₁ := by
      cases x <;> cases h <;> rfl
    rw [vmxInitVmxon] at h1
    obtain ⟨y, k₂, h2, h1⟩ := bind_inv h1
    rw [vmxInitVmcs, bind_get] at h2
    obtain ⟨s, -, rfl⟩ := onPmap_eq_ok h2
    cases y with
    | none =>
      cases h1
      exact ⟨s, _, rfl⟩
    | some p =>
      cases ok with
      | true =>
        cases h1
        exact ⟨s, true, rfl⟩
      | false =>
        obtain ⟨_, k₃, h3, h1⟩ := bind_inv h1
        obtain ⟨s', -, rfl⟩ := onPmap_eq_ok h3
        cases h1
        exact ⟨s', _, rfl⟩

theorem Poised.vmxon {c : Option EnvIx} :
    Ensures (fun k => k.curenv = c ∧ Poised G o e k) (vmxon ok) fun _ k =>
      k.curenv = c ∧ Poised G o e k := fun k r k' h hrun => by
  obtain ⟨s, b, rfl⟩ := vmxon_eq_ok hrun
  exact ⟨h.1, h.2.of_same (.of_envs (fun _ => .refl _) rfl rfl)⟩

/-- **A guest that is counted is ready**: it has run before, or this is its first run. -/
theorem Poised.ready (h : Poised G o e k) (hcur : k'.curenv = some e) (hcpu : k'.cpu = k.cpu)
    (hne : ∀ g, g ≠ e → k'.envs g = k.envs g) (hr : (k'.envs e).envRuns = (k.envs e).envRuns + 1#32)
    (ht : (k'.envs e).envType = (k.envs e).envType)
    (hv : (k'.envs e).envVmxinfo.vmcs = (k.envs e).envVmxinfo.vmcs) : Ready G o e k' := by
  have hpage : (k'.envs e).vmcsPage = (k.envs e).vmcsPage := by
    rw [Env.vmcsPage, hv, Env.vmcsPage]
  have hlaunch : ∀ q, launchOf k' q = launchOf k q := fun q => by rw [launchOf, hcpu, launchOf]
  have hhist : ∀ q, vmxHistory k' q = vmxHistory k q := fun q => by
    rw [vmxHistory, hcpu, vmxHistory]
  have hruns : (k'.envs e).envRuns.toNat = (k.envs e).envRuns.toNat + 1 := by
    have hlt := h.well.1
    rw [hr, BitVec.toNat_add, Nat.mod_eq_of_lt]
    · rfl
    · change _ + 1 < _
      omega
  refine ⟨h.inv.own.of_same fun g _ => ?_, h.mem, hcur, fun g hg hge => ?_, ?_⟩
  · by_cases hge : g = e
    · rw [hge]
      exact ⟨ht, hv⟩
    · rw [hne g hge]
      exact ⟨rfl, rfl⟩
  · refine stage_of_same ?_ (hlaunch _) (hhist _) (h.inv.stage g hg)
    rw [hne g hge]
    exact .refl _
  · obtain ⟨h0, hnil⟩ | hst := h.inv.stage e h.mem
    · refine .inl ⟨by rw [hr, h0]; rfl, by rw [hhist, hpage, hnil], h.well.2 h0⟩
    · have := hst.pos
      have := h.well.1
      refine .inr ⟨by omega, by omega, by omega, ?_, ?_⟩
      · rw [hpage, hlaunch, hst.state]
      · rw [hpage, hhist]
        exact hst.history

theorem Poised.count {f : Env → Env} (hr : ∀ v, (f v).envRuns = v.envRuns + 1#32)
    (ht : ∀ v, (f v).envType = v.envType) (hv : ∀ v, (f v).envVmxinfo.vmcs = v.envVmxinfo.vmcs) :
    Ensures (fun k => k.curenv = some e ∧ Poised G o e k) (modifyEnv e f) fun _ => Ready G o e :=
  Ensures.modify fun k ⟨hcur, h⟩ => by
    have hself : update k.envs e (f (k.envs e)) e = f (k.envs e) := update_self ..
    refine h.ready hcur rfl (fun g hg => update_of_ne hg ..) ?_ ?_ ?_
    · exact (congrArg Env.envRuns hself).trans (hr _)
    · exact (congrArg Env.envType hself).trans (ht _)
    · exact (congrArg (fun v => v.envVmxinfo.vmcs) hself).trans (hv _)

theorem Poised.switchTo : Ensures (Poised G o e) (switchTo e) fun _ => Ready G o e := by
  have hrest : Ensures (Poised G o e) (do
      modify fun k => { k with curenv := some e }
      modifyEnv e fun v => { v with envStatus := .running, envRuns := v.envRuns + 1#32 } : Km Unit)
      fun _ => Ready G o e := by
    refine .bind (R := fun _ k => k.curenv = some e ∧ Poised G o e k) (.modify fun k h => ?_)
      fun _ => ?_
    · exact ⟨rfl, h.of_same (.of_envs (fun _ => .refl _) rfl rfl)⟩
    · exact Poised.count (fun _ => rfl) (fun _ => rfl) fun _ => rfl
  intro k r k' h hrun
  rw [JosVmm.switchTo, bind_get] at hrun
  cases hcur : k.curenv with
  | none =>
    rw [hcur] at hrun
    exact hrest h hrun
  | some cur =>
    rw [hcur] at hrun
    refine Ensures.of_run (fun _ => Ready G o e) h hrun
      (.bind (R := fun _ => Poised G o e) (.modify fun k h => h.of_same ?_) fun _ => hrest)
    refine .of_envs (fun g => ?_) rfl rfl
    change SameRuns _ (update k.envs cur _ g)
    rw [update_apply]
    split
    · rename_i hg
      rw [hg]
      exact ⟨rfl, rfl, rfl⟩
    · exact .refl _

/-! ### Runs -/

theorem Poised.schedGuest : Ensures (Poised G o e) (schedGuest ok o e) fun _ => LaunchInv G := by
  intro k r k' h hrun
  rw [JosVmm.schedGuest] at hrun
  refine Ensures.of_run (fun _ => LaunchInv G) ⟨rfl, h⟩ hrun
    (.bind (Poised.vmxon (c := k.curenv)) fun b => ?_)
  cases b with
  | false => exact .pure fun _ h => h.2.inv
  | true =>
    exact .of_imp (fun _ h => h.2) (.bind Poised.switchTo fun _ => .bind Ready.vmxVmrun
      fun _ => .skip)

theorem Poised.schedIdle :
    Ensures (fun k => k.curenv = some e ∧ Poised G o e k) (schedIdle ok o e) fun _ =>
      LaunchInv G := by
  rw [JosVmm.schedIdle]
  refine .bind Poised.vmxon fun b => ?_
  cases b with
  | false => exact .pure fun _ h => h.2.inv
  | true =>
    exact .bind (Poised.count (fun _ => rfl) (fun _ => rfl) fun _ => rfl) fun _ =>
      .bind Ready.vmxVmrun fun _ => .skip

/-- `env_run` runs a guest that is ready. -/
theorem Ready.running : Ensures (Ready G o e) (do
    if (← getEnv e).envStatus = .running then
      let _ ← JosVmm.vmxVmrun o e
    else throw .assertFailed : Km Unit) fun _ => LaunchInv G := by
  refine .bind getEnv_keeps fun v => ?_
  split
  · exact .bind Ready.vmxVmrun fun _ => .skip
  · exact .throw

theorem LaunchInv.step {op : RunOp} (h : LaunchInv G k) (hen : op.Enabled G k) (hw : op.Well k)
    (hrun : op.exec.run k = .ok ((), k')) : LaunchInv G k' := by
  cases op with
  | sched ok o e => exact Poised.schedGuest ⟨h, hen, hw⟩ hrun
  | idle ok o e => exact Poised.schedIdle ⟨hen.2, h, hen.1, hw⟩ hrun
  | other k₁ =>
    cases hrun
    exact h.other hen
  | run o e =>
    rw [RunOp.exec, envRunGuest, bind_get] at hrun
    by_cases hcur : k.curenv = some e
    · rw [if_neg (not_not.mpr hcur)] at hrun
      rw [RunOp.Well, if_pos hcur] at hw
      refine Ready.running ⟨h.own, hen, hcur, fun g hg _ => h.stage g hg, .inr ⟨hw, ?_⟩⟩ hrun
      refine (h.stage e hen).resolve_left fun h0 => ?_
      rw [h0.1] at hw
      exact absurd hw (by decide)
    · rw [if_pos hcur] at hrun
      rw [RunOp.Well, if_neg hcur] at hw
      exact Ensures.of_run (fun _ => LaunchInv G) ⟨h, hen, hw⟩ hrun
        (.bind Poised.switchTo fun _ => Ready.running)

/-! ### Histories of that shape -/

theorem launchedSince_resumed {rs : List VmxEvent} (h : ∀ ev ∈ rs, ∃ ok, ev = .vmresume ok) :
    launchedSince ([.vmclear true, .init, .vmlaunch true] ++ rs) = true := by
  induction rs using List.reverseRecOn with
  | nil => rfl
  | append_singleton rs ev ih =>
    obtain ⟨ok, rfl⟩ := h ev (by simp)
    rw [← append_assoc, launchedSince, foldl_append]
    exact ih fun ev' h' => h ev' (mem_append_left _ h')

/-- **Launched once and resumed since**: what such a history shows of the discipline. -/
theorem disciplined_resumed {rs : List VmxEvent} (h : ∀ ev ∈ rs, ∃ ok, ev = .vmresume ok) :
    Disciplined ([.vmclear true, .init, .vmlaunch true] ++ rs) := by
  have hmem : ∀ {l₁ l₂ ev}, rs = l₁ ++ ev :: l₂ → ∃ ok, ev = .vmresume ok := fun {l₁ l₂ ev} hl =>
    h ev (by rw [hl]; simp)
  refine ⟨fun l₁ ok l₂ hl => ?_, fun l₁ ok l₂ hl => ?_, ?_⟩
  -- an event stands in the first three places or among the resumptions
  · match l₁ with
    | [] => cases hl
    | [_] => cases hl
    | [_, _] =>
      cases hl
      exact ⟨rfl, List.Sublist.refl _⟩
    | _ :: _ :: _ :: l₁ =>
      injection hl with _ hl
      injection hl with _ hl
      injection hl with _ hl
      obtain ⟨ok', hok⟩ := hmem hl
      cases hok
  · match l₁ with
    | [] => cases hl
    | [_] => cases hl
    | [_, _] => cases hl
    | a :: b :: c :: l₁ =>
      injection hl with ha hl
      injection hl with hb hl
      injection hl with hc hl
      subst ha hb hc
      have hl : rs = l₁ ++ .vmresume ok :: l₂ := hl
      refine launchedSince_resumed fun ev hev => h ev ?_
      rw [hl]
      exact mem_append_left _ hev
  · have hnil : rs.filter (fun ev => ev matches .vmclear _ | .init) = [] := by
      refine List.filter_eq_nil_iff.mpr fun ev hev => ?_
      obtain ⟨ok, rfl⟩ := h ev hev
      nofun
    rw [filter_append, hnil]
    decide

theorem disciplined_nil : Disciplined [] := by
  refine ⟨fun l₁ ok l₂ hl => ?_, fun l₁ ok l₂ hl => ?_, by decide⟩ <;> cases l₁ <;> cases hl

/-- **Launch-state discipline.**  In every run from a state in which the guests `G` have not run,
whose calls of `vmx_vmrun` meet the condition, each of their VMCSs is cleared and filled once,
then launched, and only resumed from then on. -/
theorem launch_disciplined (hown : OwnVmcs G k₀) (hnew : ∀ e ∈ G, Unrun k₀ e)
    (hr : Reach RunOp.exec (fun k op => op.Enabled G k ∧ op.Well k) k₀ k) (he : e ∈ G) :
    Disciplined (vmxHistory k (k.envs e).vmcsPage) := by
  have h : LaunchInv G k := invariant (P := LaunchInv G)
    (fun k k' h ⟨op, hC, hrun⟩ => h.step hC.1 hC.2 hrun) ⟨hown, fun e he => .inl (hnew e he)⟩ hr
  obtain ⟨-, hnil⟩ | hst := h.stage e he
  · rw [hnil]
    exact disciplined_nil
  · obtain ⟨rs, hrs, hh⟩ := hst.history
    rw [hh]
    exact disciplined_resumed hrs

/-- A guest that has not run yet. -/
structure NewGuest (k : Kernel) : Prop where
  reach : GuestReach (fun _ _ => True) (smallMachine capable) k
  own : OwnVmcs {0} k
  unrun : ∀ e ∈ ({0} : Finset EnvIx), Unrun k e

/-- The scheduler picks the guest; the instructions end as in the list. -/
def schedAll (l : List Outcome) : List RunOp := l.map fun o => .sched true o 0

theorem exists_newGuest {l : List Outcome} {P : Kernel → Prop} {C : Kernel → RunOp → Prop}
    (h : Follows GuestOp.exec (fun k op => op.Enabled k ∧ True) (fun k =>
      ((k.envs 0).envType = .guest ∧
        (k.envs 0).envVmxinfo.vmcs = some ((k.envs 0).vmcsPage * 512) ∧
        (k.envs 0).vmcsPage < 2 ^ 52 ∧ (k.envs 0).envRuns = 0 ∧
        vmxHistory k (k.envs 0).vmcsPage = []) ∧
      Follows RunOp.exec C P (schedAll l) k)
      [.alloc 0] (smallMachine capable)) :
    ∃ k₀ k, NewGuest k₀ ∧ Reach RunOp.exec C k₀ k ∧ P k := by
  obtain ⟨k₀, hr, ⟨hg, hv, hlt, h0, hnil⟩, hruns⟩ := h.reach
  obtain ⟨k, hk, hP⟩ := hruns.reach
  have hone : ∀ e ∈ ({0} : Finset EnvIx), e = 0 := fun e he => Finset.mem_singleton.mp he
  refine ⟨k₀, k, ⟨hr, ⟨?_, ?_, ?_, ?_⟩, ?_⟩, hk, hP⟩
  · exact fun e he => hone e he ▸ hg
  · exact fun e he => hone e he ▸ hv
  · exact fun e he => hone e he ▸ hlt
  · exact fun e he g hg _ => (hone e he).trans (hone g hg).symm
  · exact fun e he => hone e he ▸ ⟨h0, hnil⟩

instance (v : Env) (o : Outcome) : Decidable (RunsWell v o) :=
  inferInstanceAs (Decidable (_ ∧ _))

/-- A guest is launched, and then resumed. -/
theorem launch_disciplined_resumed : ∃ k₀ k, NewGuest k₀ ∧
    Reach RunOp.exec (fun k op => op.Enabled {0} k ∧ op.Well k) k₀ k ∧
    vmxHistory k (k.envs 0).vmcsPage =
      [.vmclear true, .init, .vmlaunch true, .vmresume true] ∧
    Disciplined (vmxHistory k (k.envs 0).vmcsPage) := by
  let C (k : Kernel) : RunOp → Bool
    | .sched _ o e => decide (e = 0 ∧ RunsWell (k.envs e) o)
    | _ => false
  obtain ⟨k₀, k, hnew, hr, hh⟩ := exists_newGuest (C := fun k op => C k op = true)
    (P := fun k => vmxHistory k (k.envs 0).vmcsPage =
      [.vmclear true, .init, .vmlaunch true, .vmresume true])
    (l := [⟨true, true, true⟩, ⟨true, true, true⟩]) (by decide +kernel)
  have hr' : Reach RunOp.exec (fun k op => op.Enabled {0} k ∧ op.Well k) k₀ k :=
    hr.mono fun k op hC => by
      cases op with
      | sched ok o e =>
        obtain ⟨he, hw⟩ := of_decide_eq_true hC
        exact ⟨Finset.mem_singleton.mpr he, hw⟩
      | idle ok o e => cases hC
      | run o e => cases hC
      | other k' => cases hC
  refine ⟨k₀, k, hnew, hr', hh, ?_⟩
  exact launch_disciplined hnew.own hnew.unrun hr' (Finset.mem_singleton_self 0)

/-- **A guest is resumed that was never launched**: `VMPTRLD` fails in its first run, and the
second one executes `VMRESUME`. -/
theorem resumed_unlaunched : ∃ k₀ k, NewGuest k₀ ∧
    Reach RunOp.exec (fun k op => op.Enabled {0} k) k₀ k ∧
    vmxHistory k (k.envs 0).vmcsPage = [.vmclear true, .vmresume false] ∧
    ¬ Disciplined (vmxHistory k (k.envs 0).vmcsPage) := by
  let C : RunOp → Bool
    | .sched _ _ e => decide (e = 0)
    | _ => false
  obtain ⟨k₀, k, hnew, hr, hh⟩ := exists_newGuest (C := fun _ op => C op = true)
    (P := fun k => vmxHistory k (k.envs 0).vmcsPage = [.vmclear true, .vmresume false])
    (l := [⟨true, false, true⟩, ⟨true, true, true⟩]) (by decide +kernel)
  refine ⟨k₀, k, hnew, hr.mono fun k op hC => ?_, hh, fun hd => ?_⟩
  · cases op with
    | sched ok o e => exact Finset.mem_singleton.mpr (of_decide_eq_true hC)
    | idle ok o e => cases hC
    | run o e => cases hC
    | other k' => cases hC
  · rw [hh] at hd
    exact absurd (hd.resume [.vmclear true] false [] rfl) (by decide)

end JosVmm
