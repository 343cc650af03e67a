import JosVmm.Guests.Runs

/-!
# Guests — one slot at a time

What the functions of `kern/env.c` do to the environment table: they work on one slot, and leave
the others, the processor and the current environment as they are.  `Within e k₀ φ` is such a
change of slot `e`, in which the environment is now `φ`; the frame of each function is derived from
those of its parts.

* `envAlloc_eq_ok`, `envGuestAlloc_eq_ok` and `envCreate_eq_ok`: a new environment takes the head of
  the free list, and an allocation that fails keeps it there;
* `envFree_eq_ok` and `envDestroy_eq_ok`: a slot that is released is put on the list.
-/

namespace JosVmm
open Support Support.Prog

/-- `k` is `k₀` except for memory and slot `e`, which satisfies `φ`. -/
structure Within (e : EnvIx) (k₀ : Kernel) (φ : Env → Prop) (k : Kernel) : Prop where
  rest : k = { k₀ with pm := k.pm, envs := k.envs }
  others : ∀ g, g ≠ e → k.envs g = k₀.envs g
  self : φ (k.envs e)

/-- The environment `e` is taken from the free list. -/
def Kernel.take (k : Kernel) (e : EnvIx) (vcpuCount : BitVec 32) : Kernel :=
  { k with envFreeList := (k.envs e).envLink, vcpuCount := vcpuCount }

/-- The environment `e` is put on the free list. -/
def Kernel.give (k : Kernel) (e : EnvIx) : Kernel := { k with envFreeList := some e }

/-- An allocation: with no free slot nothing happens; otherwise the slot at the head of the list is
taken and becomes `ψ`, or the allocation fails and the slot, which is `φ` then, stays free. -/
def Allocates (k : Kernel) (φ ψ : Env → Env → Prop) (res : Except Err EnvIx) (k' : Kernel) : Prop :=
  (k.envFreeList = none ∧ k' = k ∧ ∃ er, res = .error er) ∨ ∃ e, k.envFreeList = some e ∧
    ((∃ er, res = .error er ∧ Within e k (φ (k.envs e)) k') ∨
      (res = .ok e ∧ Within e (k.take e k'.vcpuCount) (ψ (k.envs e)) k'))

/-- What an allocation that fails keeps of a slot. -/
structure SameSlot (v₀ v : Env) : Prop where
  status : v.envStatus = v₀.envStatus
  link : v.envLink = v₀.envLink
  type : v.envType = v₀.envType
  physSz : v.envVmxinfo.physSz = v₀.envVmxinfo.physSz

/-- A new environment of the given type. -/
structure NewEnv (type : EnvType) (v₀ v : Env) : Prop where
  status : v.envStatus = .runnable
  type : v.envType = type
  physSz : v.envVmxinfo.physSz = v₀.envVmxinfo.physSz

variable {k₀ k k' : Kernel} {e : EnvIx} {φ ψ : Env → Prop} {v₀ : Env} {parentId : EnvId}
  {res : Except Err EnvIx} {u : Unit}

theorem SameSlot.refl (v : Env) : SameSlot v v := ⟨rfl, rfl, rfl, rfl⟩

/-! ### The steps of a function -/

theorem Within.start (k : Kernel) (h : φ (k.envs e)) : Within e k φ k := ⟨rfl, fun _ _ => rfl, h⟩

theorem Within.imp (h : Within e k₀ φ k) (hφ : ∀ v, φ v → ψ v) : Within e k₀ ψ k :=
  ⟨h.rest, h.others, hφ _ h.self⟩

theorem Within.freeList (h : Within e k₀ φ k) : k.envFreeList = k₀.envFreeList := by rw [h.rest]

theorem Within.onPmap {α : Type} {x : Pm α} :
    Ensures (Within e k₀ φ) (onPmap x) fun _ => Within e k₀ φ := fun k a k' h hrun => by
  obtain ⟨s, -, rfl⟩ := onPmap_eq_ok hrun
  refine ⟨?_, h.others, h.self⟩
  conv_lhs => rw [h.rest]
  rfl

theorem Within.setEnv (h : Within e k₀ φ k) {v : Env} (hv : ψ v) :
    Within e k₀ ψ (k.setEnv e v) := by
  refine ⟨?_, fun g hg => ?_, ?_⟩
  · conv_lhs => rw [h.rest]
    rfl
  · exact (Function.update_of_ne hg ..).trans (h.others g hg)
  · rw [Kernel.setEnv_envs, Function.update_self]
    exact hv

theorem Within.modifyEnv (ψ : Env → Prop) {f : Env → Env} (hf : ∀ v, φ v → ψ (f v)) :
    Ensures (Within e k₀ φ) (modifyEnv e f) fun _ => Within e k₀ ψ :=
  .modify fun _ h => h.setEnv (hf _ h.self)

/-! ### Allocation -/

/-- A property of an environment that does not depend on the pages that are allocated for it. -/
structure Pageless (φ : Env → Prop) : Prop where
  root : ∀ v pml4e cr3, φ v → φ { v with envPml4e := pml4e, envCr3 := cr3 }
  info : ∀ v (i : VmxGuestInfo), i.physSz = v.envVmxinfo.physSz → φ v → φ { v with envVmxinfo := i }

theorem SameSlot.pageless (v₀ : Env) : Pageless (SameSlot v₀) where
  root _ _ _ h := ⟨h.1, h.2, h.3, h.4⟩
  info _ _ hi h := ⟨h.1, h.2, h.3, hi.trans h.4⟩

section

variable (hφ : Pageless φ)
include hφ

theorem envSetupVm_within : Ensures (Within e k₀ φ) (envSetupVm e)
    fun _ => Within e k₀ φ := by
  rw [envSetupVm]
  refine .option Within.onPmap .skip fun p => ?_
  refine .bind Within.onPmap fun _ => .bind Within.onPmap fun kva => ?_
  refine .bind (Within.modifyEnv φ fun v hv => hφ.root v _ _ hv) fun _ => ?_
  exact .bind .get fun k => .bind Within.onPmap fun _ => .skip

theorem guestPage_within {undo : List Nat} {install : Ptr → VmxGuestInfo → VmxGuestInfo}
    (hi : ∀ kva v, (install kva v).physSz = v.physSz) :
    Ensures (Within e k₀ φ) (guestPage e undo install) fun _ => Within e k₀ φ := by
  rw [guestPage]
  refine .option Within.onPmap .skip fun p => .bind Within.onPmap fun kva => ?_
  exact .bind (Within.modifyEnv φ fun v hv => hφ.info v _ (hi _ _) hv) fun _ => .skip

theorem guestRoot_within : Ensures (Within e k₀ φ) (guestRoot e)
    fun _ => Within e k₀ φ := by
  rw [guestRoot]
  refine .option Within.onPmap .skip fun p => ?_
  refine .bind Within.onPmap fun _ => .bind Within.onPmap fun _ => .bind Within.onPmap fun kva => ?_
  exact .bind (Within.modifyEnv φ fun v hv => hφ.root v _ _ hv) fun _ => .skip

theorem guestVmcs_within {p : Nat} : Ensures (Within e k₀ φ) (guestVmcs e p)
    fun _ => Within e k₀ φ := by
  rw [guestVmcs, vmxInitVmcs]
  refine .option (.bind .get fun _ => Within.onPmap) (.bind Within.onPmap fun _ => .skip)
    fun q => ?_
  refine .bind Within.onPmap fun _ => .bind Within.onPmap fun kva => ?_
  exact .bind (Within.modifyEnv φ fun v hv => hφ.info v _ rfl hv) fun _ => .skip

theorem guestPages_within : Ensures (Within e k₀ φ) (guestPages e)
    fun _ => Within e k₀ φ := by
  rw [guestPages]
  refine .option (guestRoot_within hφ) .skip fun p => ?_
  refine .option (guestVmcs_within hφ) .skip fun q => ?_
  refine .option (guestPage_within hφ fun _ _ => rfl) .skip fun r => ?_
  refine .option (guestPage_within hφ fun _ _ => rfl) .skip fun a => ?_
  exact .option (guestPage_within hφ fun _ _ => rfl) .skip fun b => .skip

end

theorem Within.take (h : Within e k₀ (fun v => v.envLink = (k₀.envs e).envLink ∧ φ v) k)
    (c : BitVec 32) :
    Within e (k₀.take e c) φ { k with envFreeList := (k.envs e).envLink, vcpuCount := c } := by
  refine ⟨?_, h.others, h.self.2⟩
  rw [h.self.1]
  conv_lhs => rw [h.rest]
  rfl

/-- The environment that `env_alloc` completes. -/
def Env.asUser (v : Env) (e : EnvIx) (parentId : EnvId) : Env := { v with
  envId := newEnvId v.envId e
  envParentId := parentId
  envType := .user
  envStatus := .runnable
  envRuns := 0
  envTf := { tfDs := 0x23, tfEs := 0x23, tfSs := 0x23, tfRsp := 0xef7fe000,
             tfCs := 0x1b, tfEflags := 0x200 }
  envPgfaultUpcall := 0
  envIpcRecving := false }

/-- **`env_alloc`** allocates a slot, whatever is asked of the slot before and after. -/
theorem envAlloc_allocates {φ ψ : Env → Env → Prop} (hφ : ∀ v, Pageless (φ v)) (h0 : ∀ v, φ v v)
    (hlink : ∀ v₀ v, φ v₀ v → v.envLink = v₀.envLink)
    (hψ : ∀ e v₀ v, k.envFreeList = some e → φ v₀ v → ψ v₀ (v.asUser e parentId))
    (hrun : (envAlloc parentId).run k = .ok (res, k')) : Allocates k φ ψ res k' := by
  rw [envAlloc, bind_get] at hrun
  rcases Option.eq_none_or_eq_some k.envFreeList with hl | ⟨e, hl⟩
  · rw [hl] at hrun
    cases hrun
    exact .inl ⟨hl, rfl, _, rfl⟩
  rw [hl] at hrun
  obtain ⟨r, k₁, h1, hrun⟩ := bind_inv hrun
  have hs := envSetupVm_within (hφ (k.envs e)) (Within.start k (h0 (k.envs e))) h1
  refine .inr ⟨e, hl, ?_⟩
  cases r with
  | error er =>
    cases hrun
    exact .inl ⟨er, rfl, hs⟩
  | ok u =>
    refine .inr (Ensures.of_run (fun r k' => r = .ok e ∧
      Within e (k.take e k'.vcpuCount) (ψ (k.envs e)) k') hs hrun ?_)
    refine .bind (Within.modifyEnv (fun v => v.envLink = (k.envs e).envLink ∧ ψ (k.envs e) v)
      fun v hv => ⟨hlink _ v hv, hψ e _ v hl hv⟩) fun _ => ?_
    exact .bind (.modify fun k₂ h2 => h2.take k₂.vcpuCount) fun _ => .pure fun _ h => ⟨rfl, h⟩

theorem envAlloc_eq_ok (hrun : (envAlloc parentId).run k = .ok (res, k')) :
    Allocates k SameSlot (NewEnv .user) res k' :=
  envAlloc_allocates SameSlot.pageless SameSlot.refl (fun _ _ hv => hv.link)
    (fun _ _ _ _ hv => ⟨rfl, rfl, hv.physSz⟩) hrun

/-- **`env_guest_alloc`** does the same, and it clears the guest info of the slot first. -/
theorem envGuestAlloc_allocates {φ ψ : Env → Env → Prop}
    (hφ : ∀ v, Pageless (φ v))
    (h0 : ∀ v, φ v { v with envVmxinfo := {} }) (hlink : ∀ v₀ v, φ v₀ v → v.envLink = v₀.envLink)
    (hψ : ∀ e v₀ v vcpu, k.envFreeList = some e → φ v₀ v → ψ v₀ (v.asGuest e parentId vcpu))
    (hrun : (envGuestAlloc parentId).run k = .ok (res, k')) : Allocates k φ ψ res k' := by
  rw [envGuestAlloc, bind_get] at hrun
  dsimp only at hrun
  rcases Option.eq_none_or_eq_some k.envFreeList with hl | ⟨e, hl⟩
  · rw [hl] at hrun
    cases hrun
    exact .inl ⟨hl, rfl, _, rfl⟩
  rw [hl, bind_ok (modifyEnv_run _)] at hrun
  obtain ⟨r, k₁, h1, hrun⟩ := bind_inv hrun
  have hclear : Within e k (φ (k.envs e)) (k.setEnv e { k.envs e with envVmxinfo := {} }) :=
    (Within.start k (φ := fun _ => True) trivial).setEnv (h0 (k.envs e))
  have hs := guestPages_within (hφ (k.envs e)) hclear h1
  refine .inr ⟨e, hl, ?_⟩
  cases r with
  | error er =>
    cases hrun
    exact .inl ⟨er, rfl, hs⟩
  | ok u =>
    refine .inr (Ensures.of_run (fun r k' => r = .ok e ∧ Within e (k.take e k'.vcpuCount)
      (ψ (k.envs e)) k') hs hrun ?_)
    refine .bind .get fun k₂ => .bind (Within.modifyEnv
      (fun v => v.envLink = (k.envs e).envLink ∧ ψ (k.envs e) v)
      fun v hv => ⟨hlink _ v hv, hψ e _ v k₂.vcpuCount hl hv⟩) fun _ => ?_
    exact .bind (.modify fun k₂ h2 => h2.take (k₂.vcpuCount + 1)) fun _ => .pure fun _ h => ⟨rfl, h⟩

theorem envGuestAlloc_eq_ok (hrun : (envGuestAlloc parentId).run k = .ok (res, k')) :
    Allocates k (fun v => SameSlot { v with envVmxinfo := {} })
      (fun v => NewEnv .guest { v with envVmxinfo := {} }) res k' :=
  envGuestAlloc_allocates (fun _ => SameSlot.pageless _) (fun _ => SameSlot.refl _)
    (fun _ _ hv => hv.link) (fun _ _ _ _ _ hv => ⟨rfl, rfl, hv.physSz⟩) hrun

/-- **`env_create`** takes a slot. -/
theorem envCreate_eq_ok {img : Image} {type : EnvType}
    (hrun : (envCreate img type).run k = .ok (u, k')) : ∃ e c, k.envFreeList = some e ∧
      Within e (k.take e c) (fun v => v.envStatus = .runnable ∧ v.envType = type) k' := by
  rw [envCreate] at hrun
  obtain ⟨res, k₁, h1, hrun⟩ := bind_inv hrun
  obtain ⟨-, -, er, rfl⟩ | ⟨e, hl, ⟨er, rfl, -⟩ | ⟨rfl, hs⟩⟩ := envAlloc_eq_ok h1
  · cases hrun
  · cases hrun
  refine ⟨e, k₁.vcpuCount, hl, ?_⟩
  refine Ensures.of_run (fun _ => Within e (k.take e k₁.vcpuCount) _)
    (hs.imp (ψ := fun v => v.envStatus = .runnable) fun v hv => hv.status) hrun
    (.bind (R := fun _ => Within e _ fun v => v.envStatus = .runnable) ?_ fun _ =>
      Within.modifyEnv _ fun v hv => ⟨hv, rfl⟩)
  rw [loadIcode]
  split
  · exact .bind getEnv_keeps fun v => .bind Within.onPmap fun _ =>
      Within.modifyEnv _ fun _ hv => hv
  · exact .throw

/-- **`sys_env_mkguest`** makes no guest, or configures the one it makes. -/
theorem sysEnvMkguest_eq_ok {gphysz gRIP : Word} {res : Except Err EnvId}
    (hrun : (sysEnvMkguest gphysz gRIP).run k = .ok (res, k')) :
    k' = k ∨ ∃ parentId r k₁, (envGuestAlloc parentId).run k = .ok (r, k₁) ∧
      ((∃ er, r = .error er ∧ k' = k₁) ∨ ∃ e, r = .ok e ∧ k' = k₁.setEnv e { k₁.envs e with
        envStatus := .notRunnable
        envVmxinfo.physSz := gphysz
        envTf.tfRip := gRIP }) := by
  rw [sysEnvMkguest] at hrun
  obtain ⟨b1, k₁, h1, hrun⟩ := bind_inv hrun
  cases h1
  split at hrun
  · cases hrun
    exact .inl rfl
  obtain ⟨b2, k₂, h2, hrun⟩ := bind_inv hrun
  cases h2
  split at hrun
  · cases hrun
    exact .inl rfl
  rw [bind_get] at hrun
  obtain ⟨cur, k₃, h3, hrun⟩ := bind_inv hrun
  obtain ⟨-, hk3⟩ := deref_eq_ok h3
  rw [hk3, bind_ok getEnv_run] at hrun
  obtain ⟨r, k₄, h4, hrun⟩ := bind_inv hrun
  refine .inr ⟨_, r, k₄, h4, ?_⟩
  cases r with
  | error er =>
    cases hrun
    exact .inl ⟨er, rfl, rfl⟩
  | ok e =>
    cases hrun
    exact .inr ⟨e, rfl, rfl⟩

/-! ### Release -/

/-- An environment that has been released to the free list `link`. -/
structure FreedEnv (link : Option EnvIx) (v₀ v : Env) : Prop where
  status : v.envStatus = .free
  link : v.envLink = link
  type : v.envType = v₀.envType

/-- `e` has been released. -/
def Released (e : EnvIx) (k₀ : Kernel) : Kernel → Prop :=
  Within e (k₀.give e) (FreedEnv k₀.envFreeList (k₀.envs e))

/-- A `φ` that has been put on the free list `link`. -/
def PutBack (φ : Env → Prop) (link : Option EnvIx) (v : Env) : Prop :=
  ∃ w, φ w ∧ v = { w with envStatus := .free, envLink := link }

theorem releaseEnv_within : Ensures (Within e k₀ φ) (releaseEnv e)
    fun _ => Within e (k₀.give e) (PutBack φ k₀.envFreeList) := by
  intro k a k' h hrun
  have hfl : k.envFreeList = k₀.envFreeList := h.freeList
  rw [releaseEnv, bind_get] at hrun
  refine Ensures.of_run (fun _ => Within e (k₀.give e) (PutBack φ k₀.envFreeList)) h hrun ?_
  refine .bind (Within.modifyEnv (PutBack φ k₀.envFreeList) fun v hv => ⟨v, hv, by rw [hfl]⟩)
    fun _ => .modify fun k₂ h2 => ?_
  refine ⟨?_, h2.others, h2.self⟩
  conv_lhs => rw [h2.rest]
  rfl

/-- **`env_free`** takes the pages from the slot and puts it on the free list. -/
theorem envFree_within (hφ : Pageless φ) (h0 : φ (k.envs e))
    (hrun : (envFree e).run k = .ok (u, k')) :
    Within e (k.give e) (PutBack φ k.envFreeList) k' := by
  rw [envFree] at hrun
  refine Ensures.of_run (fun _ => Within e (k.give e) (PutBack φ k.envFreeList)) (Within.start k h0)
    hrun (.bind getEnv_keeps fun v => ?_)
  have hclear : Ensures (Within e k φ) (modifyEnv e fun v => { v with envPml4e := none, envCr3 := 0 })
      fun _ => Within e k φ :=
    Within.modifyEnv _ fun _ hv => hφ.root _ _ _ hv
  split
  · rw [envGuestFree]
    exact .bind getEnv_keeps fun v => .bind Within.onPmap fun _ => .bind hclear fun _ =>
      releaseEnv_within
  · exact .bind Within.onPmap fun _ => .bind hclear fun _ => .bind Within.onPmap fun _ =>
      releaseEnv_within

theorem envFree_eq_ok (hrun : (envFree e).run k = .ok (u, k')) : Released e k k' := by
  refine (envFree_within (SameSlot.pageless _) (SameSlot.refl _) hrun).imp ?_
  rintro v ⟨w, hw, rfl⟩
  exact ⟨rfl, rfl, hw.type⟩

/-- **`env_destroy`** marks an environment that runs elsewhere, and releases any other. -/
theorem envDestroy_eq_ok (hrun : (envDestroy e).run k = .ok (u, k')) :
    ((k.envs e).envStatus = .running ∧ k' = k.setEnv e { k.envs e with envStatus := .dying }) ∨
      ∃ k₁, Released e k k₁ ∧ k' = k₁.leave e := by
  rw [envDestroy, bind_get] at hrun
  split at hrun
  · rename_i hr
    cases hrun
    exact .inl ⟨hr.1, rfl⟩
  · obtain ⟨_, k₁, h1, hrun⟩ := bind_inv hrun
    cases hrun
    exact .inr ⟨k₁, envFree_eq_ok h1, rfl⟩

end JosVmm
