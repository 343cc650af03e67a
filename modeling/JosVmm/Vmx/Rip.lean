import JosVmm.Guests.Slots
import JosVmm.Machine.Vmx

/-!
# Vmx — emulated instructions are skipped

The exits for `RDMSR`, `WRMSR`, port input and output, `CPUID` and `VMCALL` end in a handler that
emulates the instruction.  If it returns true, the guest should go on after the instruction: the
`rip` written to the VMCS at the next entry is the one read from it at the exit plus the length of
the instruction.  If it returns false, nothing has changed.

`handle_vmcall` never advances `rip`.  So the instruction is skipped exactly if it is none of the
calls that return true, or its length is zero (`emulated_skipped`).
-/

namespace JosVmm
open Support Support.Prog Function Kernel

/-- The exits that are due to an instruction that the VMM emulates. -/
def ExitReason.Emulated : ExitReason → Prop
  | rdmsr | wrmsr | ioInstruction | cpuid | vmcall => True
  | externalInt | interruptWindow | eptViolation | hlt | other => False

/-- `vmcs_read32(VMCS_32BIT_VMEXIT_INSTRUCTION_LENGTH)`, for the VMCS on page `p`. -/
def instructionLength (k : Kernel) (p : Nat) : Word :=
  (((k.cpu.vmcs p).field .vmexitInstructionLength).setWidth 32 : BitVec 32).setWidth 64

/-- An instruction of the guest `e` is skipped exactly once.  `k` is the state at the exit, `k₁`
the one in which the handler is called and `k₂` the one in which it returns. -/
structure Skipped (e : EnvIx) (p : Nat) (k k₁ k₂ : Kernel) (handled : Bool) : Prop where
  /-- However the guest is entered next with this trapframe, it goes on after the instruction. -/
  next : handled = true → ∀ ok k₃ entered k₄, k₃.curenv = some e → k₃.cpu.vmptr = some p →
    (k₃.envs e).envTf = (k₂.envs e).envTf → (vmcsEnter ok e).run k₃ = .ok (entered, k₄) →
    (k₄.cpu.vmcs p).field .guestRip = (k.cpu.vmcs p).field .guestRip + instructionLength k p
  /-- An instruction that is not emulated changes nothing. -/
  unhandled : handled = false →
    (k₂.envs e).envTf.tfRip = (k.cpu.vmcs p).field .guestRip ∧
    (k₂.envs e).envTf.tfRegs = (k₁.envs e).envTf.tfRegs

/-- The calls for which `handle_vmcall` returns true; the first needs a free page. -/
def VmcallHandled (k : Kernel) (e : EnvIx) : Prop :=
  let rax := (k.envs e).envTf.tfRegs.regRax
  (rax = 1#64 ∧ k.pm.pageFreeList ≠ none) ∨ rax = 4#64 ∨ rax = 5#64 ∨ rax = 6#64

/-! ### `rip` in the handlers -/

/-- The guest `e` is at `rip`, and the instruction has the length `len`. -/
structure AtRip (e : EnvIx) (p : Nat) (rip len : Word) (k : Kernel) : Prop where
  vmptr : k.cpu.vmptr = some p
  rip : (k.envs e).envTf.tfRip = rip
  len : instructionLength k p = len

variable {k k₀ k₁ k₂ : Kernel} {e : EnvIx} {p : Nat} {rip len : Word} {stack : Fin 13 → BitVec 32}
  {userSh : Image}

theorem AtRip.onPmap {α : Type} {x : Pm α} :
    Ensures (AtRip e p rip len) (onPmap x) fun _ => AtRip e p rip len := fun k a k' h hrun => by
  obtain ⟨s, -, rfl⟩ := onPmap_eq_ok hrun
  exact ⟨h.vmptr, h.rip, h.len⟩

theorem AtRip.modifyEnv {f : Env → Env} {rip' : Word}
    (hf : ∀ v, v.envTf.tfRip = rip → (f v).envTf.tfRip = rip') :
    Ensures (AtRip e p rip len) (modifyEnv e f) fun _ => AtRip e p rip' len :=
  .modify fun k h => by
    refine ⟨h.vmptr, ?_, h.len⟩
    change (update k.envs e (f (k.envs e)) e).envTf.tfRip = _
    rw [update_self, hf _ h.rip]

theorem AtRip.modifyRegs {f : PushRegs → PushRegs} :
    Ensures (AtRip e p rip len) (modifyRegs e f) fun _ => AtRip e p rip len :=
  AtRip.modifyEnv fun _ h => h

theorem AtRip.vmcsWrite32 {f : VmcsField} {w : BitVec 32} (hf : f ≠ .vmexitInstructionLength) :
    Ensures (AtRip e p rip len) (vmcsWrite32 f w) fun _ => AtRip e p rip len :=
  fun k a k' h hrun => by
    rw [vmcsWrite32_run h.vmptr] at hrun
    cases hrun
    refine ⟨h.vmptr, h.rip, ?_⟩
    rw [instructionLength, vmwrite_field, if_neg fun h' => hf h'.2.symm]
    exact h.len

/-- The instruction is skipped. -/
theorem AtRip.skipInstruction :
    Ensures (AtRip e p rip len) (skipInstruction e) fun _ => AtRip e p (rip + len) len :=
  fun k a k' h hrun => by
    rw [JosVmm.skipInstruction, bind_ok (vmcsRead32_run h.vmptr _)] at hrun
    refine Ensures.of_run (fun _ => AtRip e p (rip + len) len) h hrun (AtRip.modifyEnv fun v hv => ?_)
    rw [← hv, ← h.len]
    rfl

/-- What a handler does that emulates an instruction. -/
def Emulates (e : EnvIx) (p : Nat) (x : Km Bool) : Prop :=
  ∀ k₀ rip len, Ensures (fun k => k = k₀ ∧ AtRip e p rip len k) x fun handled k =>
    if handled then AtRip e p (rip + len) len k else k = k₀

theorem handleRdmsr_emulates : Emulates e p (handleRdmsr e) := fun k₀ rip len => by
  rw [handleRdmsr]
  refine .bind getEnv_keeps fun v => ?_
  split
  · refine .of_imp (fun _ h => h.2) (.bind AtRip.onPmap fun _ => .bind AtRip.onPmap fun _ => ?_)
    exact .bind AtRip.modifyRegs fun _ => .bind AtRip.skipInstruction fun _ => .pure fun _ h => h
  · exact .pure fun _ h => h.1

theorem handleWrmsr_emulates : Emulates e p (handleWrmsr e) := fun k₀ rip len => by
  have hrest : ∀ entry newVal, Ensures (AtRip e p rip len) (do
      onPmap (store (entry + 1) newVal)
      skipInstruction e
      return true : Km Bool) fun handled k =>
        if handled then AtRip e p (rip + len) len k else k = k₀ := fun entry newVal =>
    .bind AtRip.onPmap fun _ => .bind AtRip.skipInstruction fun _ => .pure fun _ h => h
  rw [handleWrmsr]
  refine .bind getEnv_keeps fun v => ?_
  dsimp only
  split
  · refine .of_imp (fun _ h => h.2) (.bind AtRip.onPmap fun _ => .bind AtRip.onPmap fun _ => ?_)
    split
    · refine .bind vmcsRead32_keeps fun _ => .bind (AtRip.vmcsWrite32 nofun) fun _ => ?_
      exact hrest _ _
    · exact hrest _ _
  · exact .pure fun _ h => h.1

theorem handleIoinstr_emulates : Emulates e p (handleIoinstr e) := fun k₀ rip len => by
  rw [handleIoinstr]
  refine .bind vmcsRead64_keeps fun _ => .bind getEnv_keeps fun v => ?_
  split
  · refine .of_imp (fun _ h => h.2) (.bind (R := fun _ => AtRip e p rip len) (.modify fun _ h => ?_)
      fun _ => .bind AtRip.skipInstruction fun _ => .pure fun _ h => h)
    exact ⟨h.vmptr, h.rip, h.len⟩
  · split
    · refine .bind .get fun k => ?_
      split
      · exact .pure fun _ h => h.1
      · exact .of_imp (fun _ h => h.2) (.bind AtRip.modifyRegs fun _ =>
          .bind AtRip.skipInstruction fun _ => .pure fun _ h => h)
    · exact .pure fun _ h => h.1

theorem handleCpuid_emulates : Emulates e p (handleCpuid e) := fun k₀ rip len => by
  rw [handleCpuid]
  refine .bind getEnv_keeps fun v => .bind .get fun k => .of_imp (fun _ h => h.2) ?_
  exact .bind AtRip.modifyRegs fun _ => .bind AtRip.skipInstruction fun _ => .pure fun _ h => h

/-! ### Calls -/

theorem mbmap_eq_ok {eptrt : Option Ptr} {physSz : Word} {r : Bool} {s s' : Pmap}
    (h : (mbmap stack eptrt physSz).run s = .ok (r, s')) :
    (s.pageFreeList = none ∧ r = false ∧ s' = s) ∨ (s.pageFreeList ≠ none ∧ r = true) := by
  rw [mbmap] at h
  rcases Option.eq_none_or_eq_some s.pageFreeList with hl | ⟨q, hl⟩
  · rw [bind_ok (pageAlloc_none hl _)] at h
    cases h
    exact .inl ⟨hl, rfl, rfl⟩
  · rw [bind_ok (pageAlloc_some_raw hl)] at h
    refine .inr ⟨by rw [hl]; exact Option.some_ne_none q, ?_⟩
    exact Ensures.of_run (P := fun _ => True) (fun r _ => r = true) trivial h
      (.bind (R := fun _ _ => True) (fun _ _ _ _ _ => trivial) fun _ =>
      .bind (R := fun _ _ => True) (fun _ _ _ _ _ => trivial) fun _ =>
      .bind (R := fun _ _ => True) (fun _ _ _ _ _ => trivial) fun _ =>
      .bind (R := fun _ _ => True) (fun _ _ _ _ _ => trivial) fun _ => .pure fun _ _ => rfl)

section

variable (hcur : k.curenv = some e) (hfree : k.envFreeList ≠ some e) (h : AtRip e p rip len k)
include hcur hfree h

/-- The new shell takes another slot. -/
theorem vmcallBacktohost_rip {u : Unit} (hrun : (vmcallBacktohost userSh).run k = .ok (u, k₂)) :
    AtRip e p rip len k₂ := by
  rw [vmcallBacktohost, bind_get, hcur, bind_ok deref_run] at hrun
  obtain ⟨_, k₁, h1, hrun⟩ := bind_inv hrun
  have hrip : AtRip e p rip len k₁ := by
    refine Ensures.of_run (fun _ => AtRip e p rip len) h h1 (AtRip.modifyEnv fun _ h => h)
  have hfl : k₁.envFreeList = k.envFreeList := by
    cases h1
    rfl
  obtain ⟨g, c, hl, hw⟩ := envCreate_eq_ok hrun
  have hne : e ≠ g := fun hg => hfree (by rw [← hfl, hl, hg])
  refine ⟨?_, ?_, ?_⟩
  · rw [hw.rest]
    exact hrip.vmptr
  · rw [hw.others e hne]
    exact hrip.rip
  · rw [instructionLength, hw.rest]
    exact hrip.len

/-- **`handle_vmcall`** leaves `rip` alone, also for the calls it handles. -/
theorem handleVmcall_eq_ok {handled : Bool}
    (hrun : (handleVmcall stack userSh e).run k = .ok (handled, k₂)) :
    (handled = true ∧ VmcallHandled k e ∧ AtRip e p rip len k₂) ∨
      (handled = false ∧ ¬ VmcallHandled k e ∧ k₂ = k) := by
  rw [handleVmcall, bind_ok getEnv_run] at hrun
  dsimp only at hrun
  split at hrun
  · rename_i hrax
    rw [vmcallMbmap, bind_ok getEnv_run] at hrun
    obtain ⟨r, k₁, h₁, hrun⟩ := bind_inv hrun
    obtain ⟨s, hs, rfl⟩ := onPmap_eq_ok h₁
    obtain ⟨hl, rfl, rfl⟩ | ⟨hl, rfl⟩ := mbmap_eq_ok hs
    · cases hrun
      refine .inr ⟨rfl, fun hh => ?_, rfl⟩
      rw [VmcallHandled, hrax] at hh
      simp [hl] at hh
    · refine .inl (Ensures.of_run (fun r k => r = true ∧ VmcallHandled _ e ∧ AtRip e p rip len k)
        (AtRip.onPmap h h₁) hrun (.bind (AtRip.modifyEnv fun _ h => h) fun _ => .pure fun _ h => ?_))
      exact ⟨rfl, .inl ⟨hrax, hl⟩, h⟩
  split at hrun
  · cases hrun
  split at hrun
  · obtain ⟨_, _, -, hrun⟩ := bind_inv hrun
    cases hrun
  split at hrun
  · rename_i hrax
    cases hrun
    exact .inl ⟨rfl, .inr (.inl hrax), h⟩
  split at hrun
  · rename_i hrax
    obtain ⟨_, k₁, h₁, hrun⟩ := bind_inv hrun
    cases hrun
    exact .inl ⟨rfl, .inr (.inr (.inl hrax)), vmcallBacktohost_rip hcur hfree h h₁⟩
  split at hrun
  · rename_i hrax
    rw [bind_get] at hrun
    exact .inl (Ensures.of_run (fun r k' => r = true ∧ VmcallHandled k e ∧ AtRip e p rip len k') h hrun
      (.bind AtRip.modifyRegs fun _ => .pure fun _ h => ⟨rfl, .inr (.inr (.inr hrax)), h⟩))
  · rename_i h1 _ _ h4 h5 h6
    cases hrun
    exact .inr ⟨rfl, fun hh => hh.elim (fun hh => h1 hh.1) (Or.rec h4 (Or.rec h5 h6)), rfl⟩

end

/-! ### The exit and the next entry -/

/-- `rsp` and `rip` of the VMCS on page `p` are in the trapframe of `e`. -/
def Kernel.savedRip (k : Kernel) (e : EnvIx) (p : Nat) : Kernel :=
  k.setEnv e { k.envs e with
    envTf.tfRsp := (k.cpu.vmcs p).field .guestRsp
    envTf.tfRip := (k.cpu.vmcs p).field .guestRip }

theorem saveRip_run (hptr : k.cpu.vmptr = some p) (hcur : k.curenv = some e) :
    saveRip.run k = .ok ((), k.savedRip e p) := by
  rw [saveRip, bind_get, hcur, bind_ok deref_run,
    bind_ok (vmcsRead64_run hptr _), bind_ok (vmcsRead64_run hptr _), modifyEnv_run]
  rfl

theorem savedRip_rip : ((k.savedRip e p).envs e).envTf.tfRip = (k.cpu.vmcs p).field .guestRip := by
  rw [savedRip, setEnv_envs, update_self]

theorem savedRip_regs : ((k.savedRip e p).envs e).envTf.tfRegs = (k.envs e).envTf.tfRegs := by
  rw [savedRip, setEnv_envs, update_self]

/-- Entering a guest changes no field of a VMCS. -/
theorem vmenter_field (ok launch : Bool) (hptr : k.cpu.vmptr = some p) :
    ∃ entered k', (vmenter ok launch).run k = .ok (entered, k') ∧
      ∀ q f, (k'.cpu.vmcs q).field f = (k.cpu.vmcs q).field f := by
  rw [vmenter, bind_get, hptr]
  dsimp only
  rw [bind_get]
  generalize (ok && (k.cpu.vmcs p).launch == if launch then .clear else .launched) = entered
  rw [bind_ok (a := ()) rfl]
  cases entered with
  | false => exact ⟨false, _, rfl, fun q f => rfl⟩
  | true =>
    refine ⟨true, _, rfl, fun q f => ?_⟩
    change (update k.cpu.vmcs p { k.cpu.vmcs p with launch := .launched } q).field f = _
    rw [update_apply]
    split
    · rename_i hq
      rw [hq]
    · rfl

section

variable (ok : Bool) (hptr : k.cpu.vmptr = some p) (hcur : k.curenv = some e)
include ok hptr hcur

theorem asmVmrun_field :
    ∃ entered k', (asmVmrun ok e).run k = .ok (entered, k') ∧
      ∀ q f, (k'.cpu.vmcs q).field f = (k.cpu.vmcs q).field f := by
  rw [asmVmrun, bind_get, hcur, bind_ok deref_run,
    bind_ok getEnv_run, bind_ok (modifyEnv_run _), bind_ok getEnv_run]
  dsimp only
  obtain ⟨entered, k₁, hrun, hf⟩ := vmenter_field (k := k.setEnv e _) ok _ hptr
  rw [bind_ok hrun]
  cases entered with
  | false => exact ⟨false, _, rfl, hf⟩
  | true => exact ⟨true, _, rfl, hf⟩

/-- The next entry writes the `rip` of the trapframe to the VMCS. -/
theorem vmcsEnter_rip :
    ∃ entered k', (vmcsEnter ok e).run k = .ok (entered, k') ∧
      (k'.cpu.vmcs p).field .guestRip = (k.envs e).envTf.tfRip := by
  rw [vmcsEnter, bind_get, hcur, bind_ok deref_run, bind_ok getEnv_run,
    bind_ok (vmcsWrite64_run hptr _ _), bind_ok (vmcsWrite64_run (k := k.vmwrite p _ _) hptr _ _)]
  obtain ⟨entered, k₁, hrun, hf⟩ :=
    asmVmrun_field (k := (k.vmwrite p _ _).vmwrite p _ _) ok hptr hcur
  refine ⟨entered, k₁, hrun, ?_⟩
  rw [hf, vmwrite_field, if_pos ⟨rfl, rfl⟩]

end

/-- An instruction that is emulated is skipped if the handler leaves `rip` after it. -/
theorem skipped_true : Skipped e p k k₁ k₂ true ↔
    (k₂.envs e).envTf.tfRip = (k.cpu.vmcs p).field .guestRip + instructionLength k p := by
  refine ⟨fun h => ?_, fun h => ⟨fun _ ok k₃ entered k₄ hcur hptr htf hrun => ?_, nofun⟩⟩
  · let k₃ : Kernel := { k₂ with curenv := some e, cpu.vmptr := some p }
    obtain ⟨entered, k₄, hrun, hf⟩ := vmcsEnter_rip (k := k₃) (e := e) (p := p) true rfl rfl
    rw [← h.next rfl true k₃ entered k₄ rfl rfl rfl hrun, hf]
  · obtain ⟨entered', k4', hrun', hf⟩ := vmcsEnter_rip ok hptr hcur
    rw [hrun'] at hrun
    cases hrun
    rw [hf, htf, h]

theorem skipped_false : Skipped e p k (k.savedRip e p) (k.savedRip e p) false :=
  ⟨nofun, fun _ => ⟨savedRip_rip, rfl⟩⟩

theorem Emulates.skipped {x : Km Bool} {handled : Bool} (hx : Emulates e p x)
    (hptr : k.cpu.vmptr = some p) (hrun : x.run (k.savedRip e p) = .ok (handled, k₂)) :
    Skipped e p k (k.savedRip e p) k₂ handled := by
  have hat : AtRip e p ((k.cpu.vmcs p).field .guestRip) (instructionLength k p) (k.savedRip e p) :=
    ⟨hptr, savedRip_rip, rfl⟩
  have h := hx _ _ _ ⟨rfl, hat⟩ hrun
  cases handled with
  | true => exact skipped_true.mpr h.rip
  | false =>
    obtain rfl : k₂ = k.savedRip e p := h
    exact skipped_false

/-- **An emulated instruction is skipped exactly once**, unless it is a call of the guest that
`handle_vmcall` handles. -/
theorem emulated_skipped {stack : Fin 13 → BitVec 32} {userSh : Image} {reason : ExitReason}
    {handled : Bool} (hr : reason.Emulated) (hptr : k.cpu.vmptr = some p)
    (hcur : k.curenv = some e) (hfree : k.envFreeList ≠ some e)
    (hsave : saveRip.run k = .ok ((), k₁))
    (hrun : (handleExit stack userSh e reason).run k₁ = .ok (handled, k₂)) :
    Skipped e p k k₁ k₂ handled ↔
      ¬ (reason = .vmcall ∧ VmcallHandled k e ∧ instructionLength k p ≠ 0) := by
  rw [saveRip_run hptr hcur] at hsave
  obtain ⟨-, rfl⟩ := Prod.mk.inj (Except.ok.inj hsave)
  by_cases hc : reason = .vmcall
  · subst hc
    have hstate : VmcallHandled (k.savedRip e p) e ↔ VmcallHandled k e := by
      rw [VmcallHandled, savedRip_regs]
      rfl
    obtain ⟨rfl, hh, hat⟩ | ⟨rfl, hh, rfl⟩ := handleVmcall_eq_ok (k := k.savedRip e p) hcur hfree
      ⟨hptr, savedRip_rip, rfl⟩ hrun
    · rw [skipped_true, hat.rip, left_eq_add]
      refine ⟨fun h hn => hn.2.2 h, fun h => by_contra fun hn => ?_⟩
      exact h ⟨rfl, hstate.mp hh, hn⟩
    · exact iff_of_true skipped_false fun h => hh (hstate.mpr h.2.1)
  · refine iff_of_true ?_ fun h => hc h.1
    cases reason with
    | rdmsr => exact handleRdmsr_emulates.skipped hptr hrun
    | wrmsr => exact handleWrmsr_emulates.skipped hptr hrun
    | ioInstruction => exact handleIoinstr_emulates.skipped hptr hrun
    | cpuid => exact handleCpuid_emulates.skipped hptr hrun
    | vmcall => exact absurd rfl hc
    | externalInt | interruptWindow | eptViolation | hlt | other => exact hr.elim

/-- The guest `e` exits at an instruction of length `len`, with `rax` in its trapframe. -/
def Kernel.atInstruction (k : Kernel) (e : EnvIx) (rax len : Word) : Kernel :=
  let p := (k.envs e).vmcsPage
  let k' := k.vmwrite p .vmexitInstructionLength len
  { k'.setEnv e { k.envs e with envTf.tfRegs.regRax := rax } with
    curenv := some e
    cpu.vmptr := some p }

theorem exists_guest : ∃ k, GuestReach (fun _ _ => True) (smallMachine (faultAt 2 0)) k ∧
    0 ∈ liveGuests k ∧ k.envFreeList = some 1 := by
  have hrun : Follows GuestOp.exec (fun k op => op.Enabled k ∧ True)
      (fun k => (k.envs 0).IsLiveGuest ∧ k.envFreeList = some 1) [.alloc 0]
      (smallMachine (faultAt 2 0)) := by
    decide +kernel
  obtain ⟨k, hr, hlive, hfl⟩ := hrun.reach
  exact ⟨k, hr, mem_liveGuests.mpr hlive, hfl⟩

/-- A `CPUID` of length 2. -/
theorem emulated_skipped_cpuid : ∃ k₀, GuestReach (fun _ _ => True) (smallMachine (faultAt 2 0)) k₀ ∧
    0 ∈ liveGuests k₀ ∧ ∃ k₁ k₂, saveRip.run (k₀.atInstruction 0 1 2) = .ok ((), k₁) ∧
      (handleExit (fun _ => 0) (fun _ => 0) 0 .cpuid).run k₁ = .ok (true, k₂) ∧
      Skipped 0 (k₀.envs 0).vmcsPage (k₀.atInstruction 0 1 2) k₁ k₂ true := by
  obtain ⟨k₀, hr, hlive, hfl⟩ := exists_guest
  have hfree : k₀.envFreeList ≠ some 0 := by
    rw [hfl]
    decide
  have hsave := saveRip_run (k := k₀.atInstruction 0 1 2) (e := 0) (p := (k₀.envs 0).vmcsPage) rfl rfl
  have hrun : ∀ k : Kernel, k.cpu.vmptr ≠ none →
      ∃ k₂, (handleExit (fun _ => 0) (fun _ => 0) 0 .cpuid).run k = .ok (true, k₂) := fun k hk => by
    obtain ⟨p, hp⟩ := Option.ne_none_iff_exists'.mp hk
    rw [handleExit, handleCpuid, bind_ok getEnv_run, bind_get]
    dsimp only
    rw [modifyRegs, bind_ok (modifyEnv_run _), skipInstruction, bind_assoc,
      bind_ok (vmcsRead32_run (k := k.setEnv 0 _) hp _)]
    exact ⟨_, rfl⟩
  obtain ⟨k₂, hrun⟩ := hrun ((k₀.atInstruction 0 1 2).savedRip 0 (k₀.envs 0).vmcsPage) nofun
  refine ⟨k₀, hr, hlive, _, k₂, hsave, hrun, ?_⟩
  have hcpuid : ExitReason.cpuid.Emulated := trivial
  exact (emulated_skipped (k := k₀.atInstruction 0 1 2) hcpuid rfl rfl hfree hsave hrun).mpr
    fun h => nomatch h.1

theorem handleVmcall_eoi (h : (k.envs e).envTf.tfRegs.regRax = 4#64) :
    (handleVmcall stack userSh e).run k = .ok (true, k) := by
  rw [handleVmcall, bind_ok getEnv_run, h]
  rfl

/-- **A call is not skipped**: `VMX_VMCALL_LAPICEOI` returns true, and the guest is entered at the
`VMCALL` again. -/
theorem vmcall_not_skipped : ∃ k₀, GuestReach (fun _ _ => True) (smallMachine (faultAt 2 0)) k₀ ∧
    0 ∈ liveGuests k₀ ∧ ∃ k₁ k₂, saveRip.run (k₀.atInstruction 0 4 3) = .ok ((), k₁) ∧
      (handleExit (fun _ => 0) (fun _ => 0) 0 .vmcall).run k₁ = .ok (true, k₂) ∧
      ¬ Skipped 0 (k₀.envs 0).vmcsPage (k₀.atInstruction 0 4 3) k₁ k₂ true := by
  obtain ⟨k₀, hr, hlive, -⟩ := exists_guest
  have hsave := saveRip_run (k := k₀.atInstruction 0 4 3) (e := 0) (p := (k₀.envs 0).vmcsPage) rfl rfl
  refine ⟨k₀, hr, hlive, _, _, hsave, handleVmcall_eoi ?_, fun h => ?_⟩
  · rw [savedRip_regs]
    exact congrArg (fun v : Env => v.envTf.tfRegs.regRax)
      (update_self (0 : EnvIx) { k₀.envs 0 with envTf.tfRegs.regRax := 4 } k₀.envs)
  · have hlen : ((k₀.atInstruction 0 4 3).cpu.vmcs (k₀.envs 0).vmcsPage).field
        .vmexitInstructionLength = 3 := (k₀.vmwrite_field ..).trans (if_pos ⟨rfl, rfl⟩)
    rw [skipped_true, savedRip_rip, left_eq_add, instructionLength, hlen] at h
    exact absurd h (by decide)

end JosVmm
