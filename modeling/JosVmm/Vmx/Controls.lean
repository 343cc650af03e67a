import JosVmm.Envs.Stall

/-!
# Vmx — the controls and the capability MSRs

A capability MSR has two words: the controls that must be one, and those that may be one.  For each
of its five words of controls `vmcs_ctls_init` starts from the first, adds what the VMM needs and
masks the result with the second (`ctls`).  Of the primary processor-based controls it also takes
away the exits for `CR3` and `INVLPG`, which some processors ask for.  The words respect the MSRs if
and only if the processor asks for none of these three (`vmcsCtlsInit_allowed`).

`CR0` and `CR4` have such masks as well, and `check_fixed_bits` compares them bit by bit
(`checkFixedBits_masks`).
-/

namespace JosVmm
open Support Support.Prog Function

/-- The controls `w` are those that the capability MSR `msr` allows: every bit of its low word is
set, and none outside its high word. -/
def Allowed (cpu : Cpu) (msr w : BitVec 32) : Prop :=
  let (mayBeOne, mustBeOne) := vmxReadCapabilityMsr cpu msr
  mustBeOne &&& ~~~w = 0 ∧ w &&& ~~~mayBeOne = 0

instance (cpu : Cpu) (msr w : BitVec 32) : Decidable (Allowed cpu msr w) :=
  inferInstanceAs (Decidable (_ ∧ _))

/-- What must be one may be one. -/
def Capability (cpu : Cpu) (msr : BitVec 32) : Prop :=
  let (mayBeOne, mustBeOne) := vmxReadCapabilityMsr cpu msr
  mustBeOne &&& ~~~mayBeOne = 0

instance (cpu : Cpu) (msr : BitVec 32) : Decidable (Capability cpu msr) :=
  inferInstanceAs (Decidable (_ = _))

/-- The five words of controls, with `IA32_VMX_PINBASED_CTLS`, `IA32_VMX_PROCBASED_CTLS`,
`IA32_VMX_PROCBASED_CTLS2`, `IA32_VMX_EXIT_CTLS` and `IA32_VMX_ENTRY_CTLS`. -/
def controlWords : List (VmcsField × BitVec 32) :=
  [(.pinBasedCtls, 0x481#32), (.procBasedCtls, 0x482#32), (.secondaryCtls, 0x48B#32),
    (.vmexitControls, 0x483#32), (.vmentryControls, 0x484#32)]

/-- `CR3LOADEXIT`, `CR3STOREXIT` and `INVLPGEXIT`, which `vmcs_ctls_init` clears. -/
def clearedExits : BitVec 32 := 0x18200#32

variable {k k' : Kernel} {e : EnvIx} {p : Nat} {cpu : Cpu} {msr set clear : BitVec 32}

/-! ### One word -/

theorem and_not_eq_zero {w : Nat} {a b : BitVec w} :
    a &&& ~~~b = 0 ↔ ∀ i < w, a.getLsbD i = true → b.getLsbD i = true := by
  constructor
  · intro h i hi ha
    have hbit := congrArg (BitVec.getLsbD · i) h
    simpa [hi, ha] using hbit
  · intro h
    refine BitVec.eq_of_getLsbD_eq fun i hi => ?_
    have hbit := h i hi
    cases ha : a.getLsbD i <;> simp_all

/-- **A word of controls** is allowed if and only if nothing is cleared that must be one. -/
theorem ctls_allowed (h : Capability cpu msr) :
    Allowed cpu msr ((ctls cpu msr set clear).setWidth 32) ↔
      (vmxReadCapabilityMsr cpu msr).2 &&& clear = 0 := by
  rw [Capability] at h
  rw [Allowed, ctls]
  generalize vmxReadCapabilityMsr cpu msr = w at h ⊢
  obtain ⟨mayBeOne, mustBeOne⟩ := w
  dsimp only at h ⊢
  have hwidth : ∀ v : BitVec 32, (v.setWidth 64).setWidth 32 = v := fun v => by simp
  have hclear : mustBeOne &&& clear = 0 ↔ mustBeOne &&& ~~~(~~~clear) = 0 := by simp
  rw [hwidth, hclear, and_not_eq_zero, and_not_eq_zero, and_not_eq_zero]
  rw [and_not_eq_zero] at h
  constructor
  · rintro ⟨hmust, -⟩ i hi hm
    have hbit := hmust i hi hm
    simp only [BitVec.getLsbD_and, Bool.and_eq_true] at hbit
    exact hbit.1.2
  · intro hkept
    refine ⟨fun i hi hm => ?_, fun i hi hw => ?_⟩
    · simp [hm, hkept i hi hm, h i hi hm]
    · simp only [BitVec.getLsbD_and, Bool.and_eq_true] at hw
      exact hw.2

/-! ### What is written -/

/-- The fields after a sequence of writes. -/
def setFields (l : List (VmcsField × Word)) (g : VmcsField → Word) : VmcsField → Word :=
  l.foldl (fun g w => update g w.1 w.2) g

theorem vmcsWriteAll_fields (h : k.cpu.vmptr = some p) (l : List (VmcsField × Word)) {u : Unit}
    (hrun : (vmcsWriteAll l).run k = .ok (u, k')) :
    (k'.cpu.vmcs p).field = setFields l (k.cpu.vmcs p).field := by
  induction l generalizing k with
  | nil =>
    cases hrun
    rfl
  | cons w l ih =>
    rw [vmcsWriteAll, List.forM_eq_forM, List.forM_cons, bind_ok (vmcsWrite64_run h _ _)] at hrun
    have hfield : ((k.vmwrite p w.1 w.2).cpu.vmcs p).field =
        update (k.cpu.vmcs p).field w.1 w.2 := by
      funext f
      rw [Kernel.vmwrite_field, update_apply]
      simp
    rw [ih (k := k.vmwrite p w.1 w.2) h hrun, hfield]
    rfl

/-- **The controls** that `vmcs_ctls_init` leaves in the VMCS. -/
theorem vmcsCtlsInit_fields (h : k.cpu.vmptr = some p)
    (hrun : (vmcsCtlsInit e).run k = .ok ((), k')) :
    (k'.cpu.vmcs p).field .pinBasedCtls = ctls k.cpu 0x481#32 0x1#32 0 ∧
    (k'.cpu.vmcs p).field .procBasedCtls = ctls k.cpu 0x482#32 0x82000080#32 clearedExits ∧
    (k'.cpu.vmcs p).field .secondaryCtls = ctls k.cpu 0x48B#32 0x82#32 0 ∧
    (k'.cpu.vmcs p).field .vmexitControls = ctls k.cpu 0x483#32 0x8200#32 0 ∧
    (k'.cpu.vmcs p).field .vmentryControls = ctls k.cpu 0x484#32 0 0 := by
  rw [vmcsCtlsInit, bind_get, bind_ok getEnv_run] at hrun
  dsimp only at hrun
  split at hrun
  · cases hrun
  · obtain ⟨a, k₁, h1, hrun⟩ := bind_inv hrun
    obtain ⟨s1, -, rfl⟩ := onPmap_eq_ok h1
    obtain ⟨b, k₂, h2, hrun⟩ := bind_inv hrun
    obtain ⟨s2, -, rfl⟩ := onPmap_eq_ok h2
    obtain ⟨c, k₃, h3, hrun⟩ := bind_inv hrun
    obtain ⟨s3, -, rfl⟩ := onPmap_eq_ok h3
    obtain ⟨d, k₄, h4, hrun⟩ := bind_inv hrun
    obtain ⟨s4, -, rfl⟩ := onPmap_eq_ok h4
    rw [vmcsWriteAll_fields (k := (((k.withPm s1).withPm s2).withPm s3).withPm s4) h _ hrun]
    exact ⟨rfl, rfl, rfl, rfl, rfl⟩

/-- **The controls respect the capability MSRs** if and only if none of the exits that
`vmcs_ctls_init` clears must be one. -/
theorem vmcsCtlsInit_allowed (hcap : ∀ c ∈ controlWords, Capability k.cpu c.2)
    (hptr : k.cpu.vmptr = some p) (hrun : (vmcsCtlsInit e).run k = .ok ((), k')) :
    (∀ c ∈ controlWords, Allowed k.cpu c.2 (((k'.cpu.vmcs p).field c.1).setWidth 32)) ↔
      (vmxReadCapabilityMsr k.cpu 0x482#32).2 &&& clearedExits = 0 := by
  obtain ⟨hpin, hproc, hsec, hexit, hentry⟩ := vmcsCtlsInit_fields hptr hrun
  simp only [controlWords, List.forall_mem_cons, List.not_mem_nil, false_implies, implies_true,
    and_true] at hcap ⊢
  obtain ⟨cpin, cproc, csec, cexit, centry⟩ := hcap
  rw [hpin, hproc, hsec, hexit, hentry, ctls_allowed cpin, ctls_allowed cproc, ctls_allowed csec,
    ctls_allowed cexit, ctls_allowed centry]
  simp

/-! ### Processors -/

/-- A processor on which every control may be one, and those of `must` must be one among the
primary processor-based ones; its current VMCS is on page 1. -/
def requiring (must : BitVec 32) : Cpu where
  cpuid _ := ⟨0, 0, 0x20#32, 0⟩
  msr n := if n = 0x482#32 then 0xFFFFFFFF00000000#64 ||| must.setWidth 64 else 0xFFFFFFFF00000000#64
  vmptr := some 1
  vmcs _ := ⟨fun _ => 0, .clear⟩
  vmwrites := []

/-- A guest whose VMCS is on page 1, and whose areas are on pages 2 to 5. -/
def areaGuest (cpu : Cpu) : Kernel :=
  (smallMachine cpu).setEnv 0 { (smallMachine cpu).envs 0 with
    envVmxinfo := { vmcs := some 512, msrCount := 1#32, msrHostArea := some 1024,
                    msrGuestArea := some 1536, ioBmapA := some 2048, ioBmapB := some 2560 } }

theorem areaGuest_ctls (must : BitVec 32)
    (hbit : bit (vmxReadCapabilityMsr (requiring must) 0x482#32).1 31 = true) :
    ∃ k', (vmcsCtlsInit 0).run (areaGuest (requiring must)) = .ok ((), k') := by
  have h := (returns_vmcsCtlsInit (k := areaGuest (requiring must)) (e := 0) (p := 1) rfl
    (φ := True)).mpr ⟨hbit, ⟨_, rfl⟩, ⟨_, rfl⟩, ⟨_, rfl⟩, ⟨_, rfl⟩, trivial⟩
  obtain ⟨_, k', hrun, -⟩ := h.exists_ok
  exact ⟨k', hrun⟩

/-- A processor that asks for no exit that is cleared. -/
theorem vmcsCtlsInit_allowed_plain : ∃ k', (vmcsCtlsInit 0).run (areaGuest (requiring 0x4006172#32)) =
      .ok ((), k') ∧ ∀ c ∈ controlWords,
    Allowed (requiring 0x4006172#32) c.2 (((k'.cpu.vmcs 1).field c.1).setWidth 32) := by
  obtain ⟨k', hrun⟩ := areaGuest_ctls 0x4006172#32 (by decide)
  exact ⟨k', hrun, (vmcsCtlsInit_allowed (k := areaGuest (requiring 0x4006172#32))
    (by decide) rfl hrun).mpr (by decide)⟩

/-- **A control that must be one is cleared**, on a processor that asks for the exits for `CR3`. -/
theorem cr3Exit_cleared : (∀ c ∈ controlWords, Capability (requiring 0x401E172#32) c.2) ∧
    ∃ k', (vmcsCtlsInit 0).run (areaGuest (requiring 0x401E172#32)) = .ok ((), k') ∧
      ¬ Allowed (requiring 0x401E172#32) 0x482#32
        (((k'.cpu.vmcs 1).field .procBasedCtls).setWidth 32) := by
  obtain ⟨k', hrun⟩ := areaGuest_ctls 0x401E172#32 (by decide)
  refine ⟨by decide, k', hrun, ?_⟩
  rw [(vmcsCtlsInit_fields (k := areaGuest (requiring 0x401E172#32)) rfl hrun).2.1]
  exact fun h => absurd ((ctls_allowed (by decide)).mp h) (by decide)

/-! ### The fixed bits of `CR0` and `CR4` -/

/-- `BIT(val, x)`. -/
def bitValue (val : Word) (x : Nat) : Word := (val >>> x) &&& 1#64

/-- The rounds of `check_fixed_bits` for the bits of a list, up to the one that returns.  `none` is
the failed assertion. -/
def checkFixedBitsOn (currVal fixed0 fixed1 : Word) : List Nat → Option Bool
  | [] => some true
  | i :: l =>
    let bit : BitVec 32 := (bitValue currVal i).setWidth 32
    if bit = 1#32 then
      -- is this bit fixed to 0?
      if bitValue fixed1 i = 0#64 then some false else checkFixedBitsOn currVal fixed0 fixed1 l
    else if bit = 0#32 then
      -- is this bit fixed to 1?
      if bitValue fixed0 i = 1#64 then some false else checkFixedBitsOn currVal fixed0 fixed1 l
    else
      none

/-- `check_fixed_bits`. -/
def checkFixedBits (currVal fixed0 fixed1 : Word) : Option Bool :=
  checkFixedBitsOn currVal fixed0 fixed1 (List.range 64)

theorem bitValue_eq (val : Word) (i : Nat) : bitValue val i = if val.getLsbD i then 1 else 0 := by
  rw [bitValue, BitVec.and_one_eq_setWidth_ofBool_getLsbD, BitVec.getLsbD_ushiftRight, Nat.add_zero]
  cases val.getLsbD i <;> rfl

theorem checkFixedBitsOn_eq (currVal fixed0 fixed1 : Word) (l : List Nat) :
    checkFixedBitsOn currVal fixed0 fixed1 l = some (decide (∀ i ∈ l,
      (fixed0.getLsbD i = true → currVal.getLsbD i = true) ∧
      (currVal.getLsbD i = true → fixed1.getLsbD i = true))) := by
  induction l with
  | nil => rfl
  | cons i l ih =>
    rw [checkFixedBitsOn, ih, bitValue_eq, bitValue_eq, bitValue_eq]
    cases hc : currVal.getLsbD i <;> cases h0 : fixed0.getLsbD i <;> cases h1 : fixed1.getLsbD i <;>
      simp [hc, h0, h1]

/-- **`check_fixed_bits` is the test of the masks**, and its assertion does not fail. -/
theorem checkFixedBits_masks (currVal fixed0 fixed1 : Word) :
    checkFixedBits currVal fixed0 fixed1 =
      some (decide (currVal &&& fixed0 = fixed0 ∧ currVal &&& ~~~fixed1 = 0)) := by
  have hfixed : currVal &&& fixed0 = fixed0 ↔ fixed0 &&& ~~~currVal = 0 := by
    rw [and_not_eq_zero]
    constructor
    · intro h i _ h0
      rw [← h, BitVec.getLsbD_and, Bool.and_eq_true] at h0
      exact h0.1
    · intro h
      refine BitVec.eq_of_getLsbD_eq fun i hi => ?_
      have hbit := h i hi
      cases h0 : fixed0.getLsbD i <;> simp_all
  rw [checkFixedBits, checkFixedBitsOn_eq]
  refine congrArg some (decide_eq_decide.mpr ?_)
  rw [hfixed, and_not_eq_zero, and_not_eq_zero]
  simp only [List.mem_range, forall_and]

end JosVmm
