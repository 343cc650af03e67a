import JosVmm.Guests.Slots

/-!
# Guests — the targets of `sys_ept_map`

`sys_ept_map` does not look at the type of its target; it relies on `phys_sz`, which is zero in an
environment that is no guest.  Only `env_guest_alloc` clears that field.  As long as `env_alloc`
takes slots in which it is zero, every target is a live guest (`eptMap_target_guest`).  A slot that
held a guest keeps its size, and then a user environment is a target (`userEnv_target`).

The runs here are those of the environment table: environments and guests are made, released and
destroyed in any order, and memory changes in any way between.
-/

namespace JosVmm
open Support Support.Prog

/-- What changes the environment table. -/
inductive EnvOp where
  | alloc (parentId : EnvId)
  | guestAlloc (parentId : EnvId)
  | mkguest (gphysz gRIP : Word)
  /-- `env_free`, after which its callers leave the environment. -/
  | free (e : EnvIx)
  | destroy (e : EnvIx)
  /-- Another environment makes the next call. -/
  | switch (e : EnvIx)
  /-- Anything that changes memory and the page structures only. -/
  | pages (m : Pm Unit)

namespace EnvOp

def exec : EnvOp → Km Unit
  | alloc parentId => do
    let _ ← envAlloc parentId
    return ()
  | guestAlloc parentId => do
    let _ ← envGuestAlloc parentId
    return ()
  | mkguest gphysz gRIP => do
    let _ ← sysEnvMkguest gphysz gRIP
    return ()
  | free e => do
    envFree e
    modify fun k => k.leave e
  | destroy e => envDestroy e
  | switch e => modify fun k => { k with curenv := some e }
  | pages m => onPmap m

/-- Live environments run. -/
def Enabled (k : Kernel) : EnvOp → Prop
  | switch e => (k.envs e).envStatus ≠ .free
  | _ => True

/-- `env_alloc` takes a slot whose `phys_sz` is zero. -/
def FreshSlot (k : Kernel) : EnvOp → Prop
  | alloc _ => ∀ e ∈ k.envFreeList, (k.envs e).envVmxinfo.physSz = 0
  | _ => True

instance (k : Kernel) : ∀ op : EnvOp, Decidable (op.Enabled k)
  | switch _ => inferInstanceAs (Decidable (_ ≠ _))
  | alloc _ | guestAlloc _ | mkguest _ _ | free _ | destroy _ | pages _ => isTrue trivial

instance (k : Kernel) : ∀ op : EnvOp, Decidable (op.FreshSlot k)
  | alloc _ => inferInstanceAs (Decidable (∀ e ∈ k.envFreeList, _))
  | guestAlloc _ | mkguest _ _ | free _ | destroy _ | switch _ | pages _ => isTrue trivial

end EnvOp

/-- Runs whose operations all meet the condition `C`. -/
def EnvReach (C : Kernel → EnvOp → Prop) : Kernel → Kernel → Prop :=
  Reach EnvOp.exec fun k op => op.Enabled k ∧ C k op

variable {k k' : Kernel} {e : EnvIx}

/-- A live environment with a `phys_sz` is a guest. -/
def Env.Sized (v : Env) : Prop :=
  v.envStatus ≠ .free → v.envType ≠ .guest → v.envVmxinfo.physSz = 0

/-- The environment in each slot is sized, and the current one is live. -/
def Sized (k : Kernel) : Prop :=
  ∀ e, (k.envs e).Sized ∧ (k.curenv = some e → (k.envs e).envStatus ≠ .free)

/-! ### One slot at a time -/

theorem Sized.within {k₀ : Kernel} {φ : Env → Prop} (h : Sized k₀) (hw : Within e k₀ φ k)
    (hφ : ∀ v, φ v → v.Sized ∧ (k₀.curenv = some e → v.envStatus ≠ .free)) : Sized k := by
  have hcur : k.curenv = k₀.curenv := by rw [hw.rest]
  intro g
  rw [hcur]
  by_cases hg : g = e
  · rw [hg]
    exact hφ _ hw.self
  · rw [hw.others g hg]
    exact h g

section

variable (h : Sized k)
include h

/-- **`env_alloc`**, into a slot without a size. -/
theorem Sized.envAlloc {parentId : EnvId} {res : Except Err EnvIx}
    (hz : ∀ e, k.envFreeList = some e → (k.envs e).envVmxinfo.physSz = 0)
    (hrun : (envAlloc parentId).run k = .ok (res, k')) : Sized k' := by
  obtain ⟨-, rfl, -⟩ | ⟨e, hl, ⟨er, -, hs⟩ | ⟨-, hs⟩⟩ := envAlloc_eq_ok hrun
  · exact h
  · refine h.within hs fun v hv => ⟨fun hst ht => ?_, fun hc => hv.status ▸ (h e).2 hc⟩
    rw [hv.physSz]
    exact (h e).1 (hv.status ▸ hst) (hv.type ▸ ht)
  · have ht : Sized (k.take e k'.vcpuCount) := h
    refine ht.within hs fun v hv => ⟨fun _ _ => hv.physSz.trans (hz e hl), fun _ => ?_⟩
    rw [hv.status]
    nofun

/-- **`env_guest_alloc`**: the new environment is a guest. -/
theorem Sized.envGuestAlloc {parentId : EnvId} {res : Except Err EnvIx}
    (hrun : (envGuestAlloc parentId).run k = .ok (res, k')) :
    Sized k' ∧ ∀ e, res = .ok e → (k'.envs e).envType = .guest := by
  obtain ⟨-, rfl, er, rfl⟩ | ⟨e, hl, ⟨er, rfl, hs⟩ | ⟨rfl, hs⟩⟩ := envGuestAlloc_eq_ok hrun
  · exact ⟨h, nofun⟩
  · refine ⟨h.within hs fun v hv => ⟨fun _ _ => hv.physSz, fun hc => ?_⟩, nofun⟩
    rw [hv.status]
    exact (h e).2 hc
  · have ht : Sized (k.take e k'.vcpuCount) := h
    refine ⟨ht.within hs fun v hv => ⟨fun _ hg => absurd hv.type hg, fun _ => ?_⟩, ?_⟩
    · rw [hv.status]
      nofun
    · rintro e' ⟨⟩
      exact hs.self.type

/-- **`sys_env_mkguest`** gives a size to a guest. -/
theorem Sized.mkguest {gphysz gRIP : Word} {res : Except Err EnvId}
    (hrun : (sysEnvMkguest gphysz gRIP).run k = .ok (res, k')) : Sized k' := by
  obtain rfl | ⟨parentId, r, k₁, h1, ⟨er, -, rfl⟩ | ⟨e, rfl, rfl⟩⟩ := sysEnvMkguest_eq_ok hrun
  · exact h
  · exact (h.envGuestAlloc h1).1
  · obtain ⟨hs, ht⟩ := h.envGuestAlloc h1
    have hw := (Within.start k₁ (e := e) (φ := fun _ => True) trivial).setEnv (ψ := Env.IsLiveGuest)
      (v := { k₁.envs e with
        envStatus := .notRunnable, envVmxinfo.physSz := gphysz, envTf.tfRip := gRIP })
      ⟨nofun, ht e rfl⟩
    exact hs.within hw fun v hv => ⟨fun _ hg => absurd hv.2 hg, fun _ => hv.1⟩

/-- **A slot that is released**, and left. -/
theorem Sized.released {k₁ : Kernel} (hs : Released e k k₁) : Sized (k₁.leave e) := by
  have hcur : k₁.curenv = k.curenv := by rw [hs.rest]; rfl
  have hsized : ∀ g, (k₁.envs g).Sized ∧ (g ≠ e → k₁.curenv = some g →
      (k₁.envs g).envStatus ≠ .free) := fun g => by
    by_cases hg : g = e
    · refine ⟨fun hl => absurd ?_ hl, fun hg' => absurd hg hg'⟩
      rw [hg]
      exact hs.self.status
    · rw [hs.others g hg, hcur]
      exact ⟨(h g).1, fun _ => (h g).2⟩
  rw [Kernel.leave]
  split
  · exact fun g => ⟨(hsized g).1, nofun⟩
  · rename_i hc
    exact fun g => ⟨(hsized g).1, fun hcg => (hsized g).2 (by rintro rfl; exact hc hcg) hcg⟩

/-- **`env_destroy`.** -/
theorem Sized.envDestroy {u : Unit} (hrun : (envDestroy e).run k = .ok (u, k')) : Sized k' := by
  obtain ⟨hr, rfl⟩ | ⟨k₁, hs, rfl⟩ := envDestroy_eq_ok hrun
  · have hw : Within e k (fun v => v.envStatus = .dying ∧ v.Sized)
        (k.setEnv e { k.envs e with envStatus := .dying }) :=
      (Within.start k (φ := fun _ => True) trivial).setEnv
        ⟨rfl, fun _ ht => (h e).1 (by rw [hr]; nofun) ht⟩
    refine h.within hw fun v hv => ⟨hv.2, fun _ => ?_⟩
    rw [hv.1]
    nofun
  · exact h.released hs

end

/-! ### Runs -/

theorem Sized.step {op : EnvOp} {u : Unit} (h : Sized k) (hen : op.Enabled k)
    (hC : op.FreshSlot k) (hrun : op.exec.run k = .ok (u, k')) : Sized k' := by
  cases op with
  | alloc parentId =>
    obtain ⟨_, k₁, h1, hrun1⟩ := bind_inv hrun
    cases hrun1
    exact h.envAlloc hC h1
  | guestAlloc parentId =>
    obtain ⟨_, k₁, h1, hrun1⟩ := bind_inv hrun
    cases hrun1
    exact (h.envGuestAlloc h1).1
  | mkguest gphysz gRIP =>
    obtain ⟨_, k₁, h1, hrun1⟩ := bind_inv hrun
    cases hrun1
    exact h.mkguest h1
  | free e =>
    obtain ⟨_, k₁, h1, hrun1⟩ := bind_inv hrun
    cases hrun1
    exact h.released (envFree_eq_ok h1)
  | destroy e => exact h.envDestroy hrun
  | switch e =>
    cases hrun
    exact fun e' => ⟨(h e').1, fun hc => Option.some.inj hc ▸ hen⟩
  | pages m =>
    obtain ⟨s, -, rfl⟩ := onPmap_eq_ok hrun
    exact h

theorem Sized.reach (h : Sized k) (hr : EnvReach (fun k op => op.FreshSlot k) k k') : Sized k' :=
  invariant (P := Sized) (fun _ _ h ⟨_, hC, hrun⟩ => h.step hC.1 hC.2 hrun) h hr

/-- **Targets are guests.**  In every run from boot whose `env_alloc`s take slots without a size,
a call of `sys_ept_map` that returns 0, or changes anything, has a live guest as its target. -/
theorem eptMap_target_guest {b : BootInfo} {s : Pmap} {cpu : Cpu} {srcenvid guest : EnvId}
    {srcva guestPa : Word} {perm : BitVec 32} {res : Except Err Unit}
    (hr : EnvReach (fun k op => op.FreshSlot k) (bootKernel b s cpu) k)
    (hrun : (sysEptMap srcenvid srcva guest guestPa perm).run k = .ok (res, k'))
    (hres : res = .ok () ∨ k' ≠ k) :
    ∃ g, (envid2env guest true).run k = .ok (.ok (some g), k) ∧ g ∈ liveGuests k := by
  have h₀ : Sized (bootKernel b s cpu) := fun e => ⟨fun hl => absurd rfl hl, nofun⟩
  have h := h₀.reach hr
  obtain ⟨rfl, hne⟩ | ⟨src, g, s', -, hg, hok, -⟩ := sysEptMap_eq_ok hrun
  · exact (hres.elim hne fun hk => hk rfl).elim
  refine ⟨g, hg, mem_liveGuests.mpr ?_⟩
  have hlive := ((envid2env_eq_ok hg).2 g rfl).elim (h g).2 id
  refine ⟨hlive, by_contra fun ht => hok (.inr (.inr (.inr ?_)))⟩
  rw [(h g).1 hlive ht]
  exact BitVec.le_def.mpr (Nat.zero_le _)

/-- A processor on which guests can be made. -/
def capable : Cpu where
  cpuid _ := ⟨0, 0, 0x20#32, 0⟩
  msr _ := BitVec.allOnes 64
  vmptr := none
  vmcs _ := ⟨fun _ => 0, .uninit⟩
  vmwrites := []

/-- A new page, mapped at `0x1000` in the address space whose root is on page `r`. -/
def mapPage (r : Nat) : Pm Unit := do
  let pp ← pageAlloc true
  let _ ← pageInsert (some (r * 512)) pp 0x1000#64 7#32
  return ()

/-- A user environment maps a page and makes a guest. -/
def makeGuest : List EnvOp :=
  [.alloc 0, .switch 0, .pages (mapPage 1), .mkguest 0x1000000#64 0]

/-- The target of the first call is the guest. -/
theorem eptMap_target_guest_first :
    ∃ k, EnvReach (fun k op => op.FreshSlot k) (smallMachine capable) k ∧
      ∃ k', (sysEptMap 0 0x1000#64 0x1001#32 0 7#32).run k = .ok (.ok (), k') ∧
      ∃ g, (envid2env 0x1001#32 true).run k = .ok (.ok (some g), k) ∧ g ∈ liveGuests k := by
  have hrun : Follows EnvOp.exec (fun k op => op.Enabled k ∧ op.FreshSlot k)
      (fun k => Returns ((sysEptMap 0 0x1000#64 0x1001#32 0 7#32).run k) fun r _ => r = .ok ())
      makeGuest (smallMachine capable) := by
    decide +kernel
  obtain ⟨k, hr, hret⟩ := hrun.reach
  obtain ⟨_, k', hrun', rfl⟩ := hret.exists_ok
  exact ⟨k, hr, k', hrun', eptMap_target_guest hr hrun' (.inl rfl)⟩

/-- **A slot that held a guest makes a user environment a target**: the guest is released, a
user environment takes its slot, and the call on it returns 0. -/
theorem userEnv_target : ∃ k, EnvReach (fun _ _ => True) (smallMachine capable) k ∧
    ∃ k', (sysEptMap 0 0x1000#64 0x2001#32 0 7#32).run k = .ok (.ok (), k') ∧
      (envid2env 0x2001#32 true).run k = .ok (.ok (some 1), k) ∧
      (k.envs 1).envType = .user := by
  have hrun : Follows EnvOp.exec (fun k op => op.Enabled k ∧ True)
      (fun k => Returns ((sysEptMap 0 0x1000#64 0x2001#32 0 7#32).run k) (fun r _ => r = .ok ()) ∧
        Returns ((envid2env 0x2001#32 true).run k) (fun r _ => r = .ok (some 1)) ∧
        (k.envs 1).envType = .user)
      (makeGuest ++ [.free 1, .alloc 0x1000#32]) (smallMachine capable) := by
    decide +kernel
  obtain ⟨k, hr, hret, hid, htype⟩ := hrun.reach
  obtain ⟨_, k', hrun', rfl⟩ := hret.exists_ok
  obtain ⟨_, k₁, hid', rfl⟩ := hid.exists_ok
  obtain ⟨hk, -⟩ := envid2env_eq_ok hid'
  exact ⟨k, hr, k', hrun', hk ▸ hid', htype⟩

end JosVmm
