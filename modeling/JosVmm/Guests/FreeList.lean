import JosVmm.Guests.Targets
import JosVmm.Machine.Vmx

/-!
# Guests — the free list of environments

`env_free_list` should hold the environments whose status is `ENV_FREE`, each once.  The functions
of `kern/env.c` keep it so, and the scheduler runs only what is runnable.  `vmx_sel_resume` counts
the slots of type `ENV_TYPE_GUEST` and makes the one it is told runnable; a slot that held a guest
keeps its type when it is released.  In a run in which it selects no free slot, the list and the
statuses agree (`freeList_exact`); otherwise a slot is runnable and on the list
(`freeSlot_resumed`).
-/

namespace JosVmm
open Support Support.Prog

/-- The environment that an operation releases. -/
def EnvOp.released : EnvOp → Option EnvIx
  | free e | destroy e => some e
  | alloc _ | guestAlloc _ | mkguest _ _ | switch _ | pages _ => none

/-- What changes the list, or a status. -/
inductive TableOp where
  /-- The operations of the environment table. -/
  | table (op : EnvOp)
  /-- The scheduler picks `e`. -/
  | sched (e : EnvIx)
  /-- `VMX_VMCALL_BACKTOHOST` of the current guest. -/
  | backtohost (userSh : Image)
  /-- `vmx_sel_resume(num)` -/
  | selResume (num : Int)

namespace TableOp

def exec : TableOp → Km Unit
  | table op => op.exec
  | sched e => switchTo e
  | backtohost userSh => vmcallBacktohost userSh
  | selResume num => do
    let _ ← vmxSelResume num
    return ()

/-- Environments that are released are live, and those that are picked are runnable. -/
def Enabled (k : Kernel) : TableOp → Prop
  | table op => op.Enabled k ∧ ∀ e ∈ op.released, (k.envs e).envStatus ≠ .free
  | sched e => (k.envs e).envStatus = .runnable
  | backtohost _ | selResume _ => True

/-- `vmx_sel_resume` does not select a free slot. -/
def SelectsLive (k : Kernel) : TableOp → Prop
  | selResume num => ∀ e ∈ selectVm k.envs num (List.finRange 1024) 0,
      (k.envs e).envStatus ≠ .free
  | _ => True

instance (k : Kernel) : ∀ op : TableOp, Decidable (op.Enabled k)
  | table op => inferInstanceAs (Decidable (op.Enabled k ∧ ∀ e ∈ op.released, _))
  | sched _ => inferInstanceAs (Decidable (_ = _))
  | backtohost _ | selResume _ => isTrue trivial

instance (k : Kernel) : ∀ op : TableOp, Decidable (op.SelectsLive k)
  | selResume _ => inferInstanceAs (Decidable (∀ e ∈ selectVm _ _ _ _, _))
  | table _ | sched _ | backtohost _ => isTrue trivial

end TableOp

/-- Runs whose operations all meet the condition `C`. -/
def TableReach (C : Kernel → TableOp → Prop) : Kernel → Kernel → Prop :=
  Reach TableOp.exec fun k op => op.Enabled k ∧ C k op

/-- The free list visits the free environments. -/
def FreeExact (k : Kernel) : Prop :=
  ∃ l, Chain (fun e => (k.envs e).envLink) k.envFreeList l ∧
    ∀ e, e ∈ l ↔ (k.envs e).envStatus = .free

/-- The same, and the current environment is live. -/
structure TableInv (k : Kernel) : Prop where
  free : FreeExact k
  live : ∀ e, k.curenv = some e → (k.envs e).envStatus ≠ .free

variable {k k' : Kernel} {e : EnvIx} {res : Except Err EnvIx} {u : Unit}

/-! ### One slot at a time -/

section

variable (h : TableInv k)
include h

/-- Slots that stay free, or stay live, keep the list. -/
theorem TableInv.of_same (hfl : k'.envFreeList = k.envFreeList)
    (hlink : ∀ e, (k.envs e).envStatus = .free → (k'.envs e).envLink = (k.envs e).envLink)
    (hstat : ∀ e, (k'.envs e).envStatus = .free ↔ (k.envs e).envStatus = .free)
    (hcur : ∀ e, k'.curenv = some e → (k.envs e).envStatus ≠ .free) : TableInv k' := by
  obtain ⟨l, hl, hmem⟩ := h.free
  refine ⟨⟨l, ?_, fun e => ?_⟩, fun e he => ?_⟩
  · rw [hfl]
    exact hl.congr fun e he => hlink e ((hmem e).mp he)
  · rw [hmem, hstat]
  · rw [Ne, hstat]
    exact hcur e he

/-- **A slot that changes and does not become free or live.** -/
theorem TableInv.within {φ : Env → Prop} (hw : Within e k φ k')
    (hlink : ∀ v, φ v → (k.envs e).envStatus = .free → v.envLink = (k.envs e).envLink)
    (hstat : ∀ v, φ v → (v.envStatus = .free ↔ (k.envs e).envStatus = .free)) : TableInv k' := by
  refine h.of_same hw.freeList (fun g hg => ?_) (fun g => ?_) fun g hg => ?_
  · by_cases hge : g = e
    · subst hge
      exact hlink _ hw.self hg
    · rw [hw.others g hge]
  · by_cases hge : g = e
    · subst hge
      exact hstat _ hw.self
    · rw [hw.others g hge]
  · rw [hw.rest] at hg
    exact h.live g hg

theorem TableInv.setEnv {v : Env} (hold : (k.envs e).envStatus ≠ .free)
    (hnew : v.envStatus ≠ .free) : TableInv (k.setEnv e v) := by
  have hw : Within e k (fun v => v.envStatus ≠ .free) (k.setEnv e v) :=
    (Within.start k (φ := fun _ => True) trivial).setEnv hnew
  exact h.within hw (fun v _ hf => absurd hf hold) fun v hv => iff_of_false hv hold

/-- **The head of the list is taken.** -/
theorem TableInv.take {φ : Env → Prop} {c : BitVec 32} (hl : k.envFreeList = some e)
    (hw : Within e (k.take e c) φ k') (hφ : ∀ v, φ v → v.envStatus ≠ .free) : TableInv k' := by
  obtain ⟨l, hchain, hmem⟩ := h.free
  cases l with
  | nil => exact absurd (hl.symm.trans hchain) nofun
  | cons e' l =>
    obtain ⟨hhead, htail⟩ := hchain
    obtain rfl : e = e' := Option.some.inj (hl.symm.trans hhead)
    have hnotin : e ∉ l := (List.nodup_cons.mp (Chain.nodup ⟨hhead, htail⟩)).1
    refine ⟨⟨l, ?_, fun g => ?_⟩, fun g hg => ?_⟩
    · rw [hw.freeList]
      refine htail.congr fun g hg => ?_
      rw [hw.others g fun hge => hnotin (hge ▸ hg)]
      rfl
    · by_cases hge : g = e
      · rw [hge]
        exact iff_of_false hnotin (hφ _ hw.self)
      · rw [hw.others g hge]
        exact ⟨fun hg => (hmem g).mp (.tail _ hg), fun hg =>
          (List.mem_cons.mp ((hmem g).mpr hg)).resolve_left hge⟩
    · rw [hw.rest] at hg
      by_cases hge : g = e
      · rw [hge]
        exact hφ _ hw.self
      · rw [hw.others g hge]
        exact h.live g hg

/-- **A live slot is released**, and left. -/
theorem TableInv.released (hlive : (k.envs e).envStatus ≠ .free) {k₁ : Kernel}
    (hw : Released e k k₁) : TableInv (k₁.leave e) := by
  obtain ⟨l, hchain, hmem⟩ := h.free
  have hnotin : e ∉ l := fun he => hlive ((hmem e).mp he)
  have hcur : k₁.curenv = k.curenv := by rw [hw.rest]; rfl
  have hexact : FreeExact k₁ := by
    refine ⟨e :: l, ⟨hw.freeList, ?_⟩, fun g => ?_⟩
    · dsimp only
      rw [hw.self.link]
      refine hchain.congr fun g hg => ?_
      rw [hw.others g fun hge => hnotin (hge ▸ hg)]
      rfl
    · by_cases hge : g = e
      · rw [hge]
        exact iff_of_true List.mem_cons_self hw.self.status
      · rw [hw.others g hge, List.mem_cons, or_iff_right hge, hmem]
        rfl
  have hother : ∀ g, g ≠ e → k₁.curenv = some g → (k₁.envs g).envStatus ≠ .free := fun g hge hg => by
    rw [hw.others g hge]
    exact h.live g (hcur ▸ hg)
  rw [Kernel.leave]
  split
  · exact ⟨hexact, fun g hg => by cases hg⟩
  · rename_i hne
    exact ⟨hexact, fun g hg => hother g (by rintro rfl; exact hne hg) hg⟩

theorem TableInv.allocates {φ ψ : Env → Env → Prop}
    (hφ : ∀ v₀ v, φ v₀ v → v.envLink = v₀.envLink ∧ v.envStatus = v₀.envStatus)
    (hψ : ∀ v₀ v, ψ v₀ v → v.envStatus ≠ .free) (ha : Allocates k φ ψ res k') : TableInv k' := by
  obtain ⟨-, rfl, -⟩ | ⟨e, hl, ⟨er, -, hw⟩ | ⟨-, hw⟩⟩ := ha
  · exact h
  · exact h.within hw (fun v hv _ => (hφ _ v hv).1) fun v hv => by rw [(hφ _ v hv).2]
  · exact h.take hl hw (hψ _)

end

/-! ### Operations -/

section

variable (h : TableInv k)
include h

theorem TableInv.envAlloc {parentId : EnvId} (hrun : (envAlloc parentId).run k = .ok (res, k')) :
    TableInv k' :=
  h.allocates (fun _ _ hv => ⟨hv.link, hv.status⟩) (fun _ _ hv => by rw [hv.status]; nofun)
    (envAlloc_eq_ok hrun)

/-- **`env_guest_alloc`**: the new environment is live. -/
theorem TableInv.envGuestAlloc {parentId : EnvId}
    (hrun : (envGuestAlloc parentId).run k = .ok (res, k')) :
    TableInv k' ∧ ∀ e, res = .ok e → (k'.envs e).envStatus ≠ .free := by
  have ha := envGuestAlloc_eq_ok hrun
  refine ⟨h.allocates (fun _ _ hv => ⟨hv.link, hv.status⟩) (fun _ _ hv => by rw [hv.status]; nofun)
    ha, ?_⟩
  rintro e rfl
  obtain ⟨-, -, er, hr⟩ | ⟨e', -, ⟨er, hr, -⟩ | ⟨hr, hw⟩⟩ := ha
  · cases hr
  · cases hr
  · cases hr
    rw [hw.self.status]
    nofun

theorem TableInv.mkguest {gphysz gRIP : Word} {res : Except Err EnvId}
    (hrun : (sysEnvMkguest gphysz gRIP).run k = .ok (res, k')) : TableInv k' := by
  obtain rfl | ⟨parentId, r, k₁, h1, ⟨er, -, rfl⟩ | ⟨e, rfl, rfl⟩⟩ := sysEnvMkguest_eq_ok hrun
  · exact h
  · exact (h.envGuestAlloc h1).1
  · obtain ⟨hs, hlive⟩ := h.envGuestAlloc h1
    exact hs.setEnv (hlive e rfl) nofun

/-- **The scheduler** runs an environment that is runnable. -/
theorem TableInv.switchTo (he : (k.envs e).envStatus = .runnable)
    (hrun : (switchTo e).run k = .ok (u, k')) : TableInv k' := by
  have hrest : ∀ {k₁}, TableInv k₁ → (k₁.envs e).envStatus ≠ .free → TableInv
      (({ k₁ with curenv := some e } : Kernel).setEnv e { k₁.envs e with
        envStatus := .running, envRuns := (k₁.envs e).envRuns + 1#32 }) := fun {k₁} h1 hl => by
    have h2 : TableInv { k₁ with curenv := some e } := h1.of_same rfl (fun _ _ => rfl)
      (fun _ => Iff.rfl) fun g hg => by
        obtain rfl : e = g := Option.some.inj hg
        exact hl
    exact h2.setEnv hl nofun
  have hlive : (k.envs e).envStatus ≠ .free := by
    rw [he]
    nofun
  rw [JosVmm.switchTo, bind_get] at hrun
  cases hcur : k.curenv with
  | none =>
    rw [hcur] at hrun
    cases hrun
    exact hrest h hlive
  | some cur =>
    rw [hcur] at hrun
    dsimp only at hrun
    rw [bind_ok (modifyEnv_run _)] at hrun
    cases hrun
    have hold := h.live cur hcur
    have hnew : (if (k.envs cur).envStatus = .running then .runnable
        else (k.envs cur).envStatus) ≠ EnvStatus.free := by
      split
      · nofun
      · exact hold
    refine hrest (h.setEnv hold hnew) ?_
    rw [Kernel.setEnv_envs, Function.update_apply]
    split
    · exact hnew
    · exact hlive

theorem TableInv.backtohost {userSh : Image}
    (hrun : (vmcallBacktohost userSh).run k = .ok (u, k')) : TableInv k' := by
  rw [vmcallBacktohost, bind_get] at hrun
  obtain ⟨cur, k₁, h1, hrun⟩ := bind_inv hrun
  obtain ⟨hcur, hk1⟩ := deref_eq_ok h1
  rw [hk1, bind_ok (modifyEnv_run _)] at hrun
  have h2 := h.setEnv (h.live cur hcur) (v := { k.envs cur with envStatus := .notRunnable }) nofun
  obtain ⟨e, c, hl, hw⟩ := envCreate_eq_ok hrun
  exact h2.take hl hw fun v hv => by rw [hv.1]; nofun

theorem TableInv.selResume {num : Int} {r : Bool}
    (hsel : ∀ e ∈ selectVm k.envs num (List.finRange 1024) 0, (k.envs e).envStatus ≠ .free)
    (hrun : (vmxSelResume num).run k = .ok (r, k')) : TableInv k' := by
  rw [vmxSelResume, bind_get] at hrun
  split at hrun
  · cases hrun
    exact h
  · rename_i e he
    rw [bind_ok (modifyEnv_run _)] at hrun
    cases hrun
    exact h.setEnv (hsel e he) nofun

theorem TableInv.step {op : TableOp} (hen : op.Enabled k) (hC : op.SelectsLive k)
    (hrun : op.exec.run k = .ok (u, k')) : TableInv k' := by
  cases op with
  | table op =>
    cases op with
    | alloc parentId =>
      obtain ⟨_, k₁, h1, hrun1⟩ := bind_inv hrun
      cases hrun1
      exact h.envAlloc h1
    | guestAlloc parentId =>
      obtain ⟨_, k₁, h1, hrun1⟩ := bind_inv hrun
      cases hrun1
      exact (h.envGuestAlloc h1).1
    | mkguest gphysz gRIP =>
      obtain ⟨_, k₁, h1, hrun1⟩ := bind_inv hrun
      cases hrun1
      exact h.mkguest h1
    | free e =>
      obtain ⟨_, k₁, h1, hrun1⟩ := bind_inv hrun
      cases hrun1
      exact h.released (hen.2 e rfl) (envFree_eq_ok h1)
    | destroy e =>
      obtain ⟨-, rfl⟩ | ⟨k₁, hw, rfl⟩ := envDestroy_eq_ok hrun
      · exact h.setEnv (hen.2 e rfl) nofun
      · exact h.released (hen.2 e rfl) hw
    | switch e =>
      cases hrun
      refine h.of_same rfl (fun _ _ => rfl) (fun _ => Iff.rfl) fun g hg => ?_
      obtain rfl : e = g := Option.some.inj hg
      exact hen.1
    | pages m =>
      obtain ⟨s, -, rfl⟩ := onPmap_eq_ok hrun
      exact h.of_same rfl (fun _ _ => rfl) (fun _ => Iff.rfl) h.live
  | sched e => exact h.switchTo hen hrun
  | backtohost userSh => exact h.backtohost hrun
  | selResume num =>
    obtain ⟨_, k₁, h1, hrun1⟩ := bind_inv hrun
    cases hrun1
    exact h.selResume hC h1

end

theorem envInit_tableInv (hcur : k.curenv = none) : TableInv (envInit k) := by
  obtain ⟨l, hl, hall⟩ := envInit_chain k
  refine ⟨⟨l, hl, fun e => iff_of_true ?_ rfl⟩, fun e he => ?_⟩
  · rw [hall]
    exact List.mem_finRange e
  · exact absurd (hcur.symm.trans he) nofun

/-- **The free list holds the free environments.**  In every run from `env_init` in which
`vmx_sel_resume` selects no free slot, `env_free_list` is acyclic, visits no environment twice, and
visits exactly those whose status is `ENV_FREE`. -/
theorem freeList_exact (hcur : k.curenv = none)
    (hr : TableReach (fun k op => op.SelectsLive k) (envInit k) k') :
    ∃ l, Chain (fun e => (k'.envs e).envLink) k'.envFreeList l ∧ l.Nodup ∧
      ∀ e, e ∈ l ↔ (k'.envs e).envStatus = .free := by
  have h : TableInv k' := invariant (P := TableInv)
    (fun _ _ h ⟨_, hC, hrun⟩ => h.step hC.1 hC.2 hrun) (envInit_tableInv hcur) hr
  obtain ⟨l, hl, hmem⟩ := h.free
  exact ⟨l, hl, hl.nodup, hmem⟩

/-- A guest is made, and resumed. -/
theorem freeList_exact_resumed :
    ∃ k, TableReach (fun k op => op.SelectsLive k) (smallMachine capable) k ∧
      (k.envs 0).IsLiveGuest ∧
      ∃ l, Chain (fun e => (k.envs e).envLink) k.envFreeList l ∧ l.Nodup ∧
        ∀ e, e ∈ l ↔ (k.envs e).envStatus = .free := by
  have hrun : Follows TableOp.exec (fun k op => op.Enabled k ∧ op.SelectsLive k)
      (fun k => (k.envs 0).IsLiveGuest) [.table (.guestAlloc 0), .selResume 1]
      (smallMachine capable) := by
    decide +kernel
  obtain ⟨k, hr, hlive⟩ := hrun.reach
  exact ⟨k, hr, hlive, freeList_exact rfl hr⟩

/-- **A free slot is resumed**: a guest is made and released, and `vmx_sel_resume(1)` finds its slot
by the type that is left.  It is runnable, and the next environment that is allocated. -/
theorem freeSlot_resumed : ∃ k, TableReach (fun _ _ => True) (smallMachine capable) k ∧
    k.envFreeList = some 0 ∧ (k.envs 0).envStatus = .runnable ∧
    ¬ ∃ l, Chain (fun e => (k.envs e).envLink) k.envFreeList l ∧ l.Nodup ∧
        ∀ e, e ∈ l ↔ (k.envs e).envStatus = .free := by
  have hrun : Follows TableOp.exec (fun k op => op.Enabled k ∧ True)
      (fun k => k.envFreeList = some 0 ∧ (k.envs 0).envStatus = .runnable)
      [.table (.guestAlloc 0), .table (.free 0), .selResume 1] (smallMachine capable) := by
    decide +kernel
  obtain ⟨k, hr, hfl, hst⟩ := hrun.reach
  refine ⟨k, hr, hfl, hst, ?_⟩
  rintro ⟨l, hl, -, hmem⟩
  have hin : (0 : EnvIx) ∈ l := by
    refine hl.mem_of_reaches ?_
    rw [hfl]
    exact .here 0
  rw [hmem, hst] at hin
  cases hin

end JosVmm
