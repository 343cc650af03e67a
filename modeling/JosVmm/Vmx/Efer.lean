import JosVmm.Vmx.Controls
import JosVmm.Vmx.Rtc

/-!
# Vmx — `EFER`

The guest's `EFER` is kept in the MSR area of the guest, and `WRMSR` and `RDMSR` on it lead to an
exit.  `handle_wrmsr` joins the value from `rdx` and `rax`, without dropping the upper half of `rax`;
`handle_rdmsr` takes it apart again, and shifts to the left for the upper half.  The round trip gives
the guest its value back only if the value is zero (`efer_roundTrip`).

When `LME` is set for the first time, `handle_wrmsr` also sets the control for a 64-bit guest, but
nothing clears it.  After a sequence of writes the control agrees with `LME` if and only if the last
one sets `LME`, or none does (`x64Guest_tracks`).

`find_msr_in_region` looks for the entry in the area, but only ever at its first one
(`findMsrInRegion_complete_iff`).
-/

namespace JosVmm
open Support Support.Prog Function List BitVec

/-- The guest's MSR area is at `a`, and holds one entry, for `EFER`, as `msr_setup` leaves it. -/
structure EferArea (e : EnvIx) (a : Ptr) (k : Kernel) : Prop where
  area : (k.envs e).envVmxinfo.msrGuestArea = some a
  count : (k.envs e).envVmxinfo.msrCount = 1#32
  index : (k.pm.mem a).setWidth 32 = (eferMsr.setWidth 32 : BitVec 32)
  range : a + 1 < k.pm.npages * 512

/-- `LME`, of a value of `EFER`. -/
def lme (efer : Word) : Bool := bit efer eferLme

/-- The value that `handle_wrmsr` stores. -/
def PushRegs.efer (r : PushRegs) : Word := (r.regRdx <<< 32) ||| r.regRax

/-- The value that `WRMSR` writes: `edx` is the upper and `eax` the lower half. -/
def PushRegs.edxEax (r : PushRegs) : Word :=
  ((r.regRdx.setWidth 32 : BitVec 32).setWidth 64 <<< 32) |||
    (r.regRax.setWidth 32 : BitVec 32).setWidth 64

/-- The registers of the guest `e`. -/
def Kernel.withRegs (k : Kernel) (e : EnvIx) (r : PushRegs) : Kernel :=
  k.setEnv e { k.envs e with envTf.tfRegs := r }

variable {k k' k₀ : Kernel} {e : EnvIx} {a : Ptr} {p : Nat} {r : PushRegs}

/-! ### The handlers -/

theorem eferEntry_run (h : EferArea e a k) :
    (eferEntry (k.envs e).envVmxinfo).run k.pm = .ok (a, k.pm) := by
  have htable : (table (some a)).run k.pm = .ok (a, k.pm) := rfl
  have hlt : a < k.pm.npages * 512 := Nat.lt_of_succ_lt h.range
  have hfind : (findMsrInRegion (eferMsr.setWidth 32) a 1).run k.pm = .ok (some a, k.pm) := by
    rw [findMsrInRegion, bind_ok (load_run hlt), if_pos h.index]
    rfl
  rw [eferEntry, h.area, bind_ok htable, h.count]
  exact (bind_ok hfind).trans rfl

/-- The controls of VM entry with the one for a 64-bit guest. -/
def withX64 (ctls : Word) : Word :=
  ((ctls.setWidth 32 ||| vmentryX64Guest : BitVec 32).setWidth 64)

/-- What `handle_wrmsr` does for the guest `e`, with the VMCS on page `p`, if the value is `efer`. -/
structure Written (e : EnvIx) (p : Nat) (a : Ptr) (k : Kernel) (efer : Word) (k' : Kernel) :
    Prop where
  area : EferArea e a k'
  stored : k'.pm.mem (a + 1) = efer
  vmptr : k'.cpu.vmptr = k.cpu.vmptr
  info : (k'.envs e).envVmxinfo = (k.envs e).envVmxinfo
  controls : (k'.cpu.vmcs p).field .vmentryControls =
    if lme (k.pm.mem (a + 1)) = false ∧ lme efer = true then
      withX64 ((k.cpu.vmcs p).field .vmentryControls)
    else (k.cpu.vmcs p).field .vmentryControls

theorem onPmap_read {α : Type} {x : Pm α} {v : α} (h : x.run k.pm = .ok (v, k.pm)) :
    (onPmap x).run k = .ok (v, k) :=
  onPmap_ok h

section

variable (h : EferArea e a k) (hptr : k.cpu.vmptr = some p)
include h hptr

/-- The new value is stored, and the instruction skipped. -/
theorem storeEfer_run (efer : Word) :
    ∃ k', (do
      onPmap (store (a + 1) efer)
      skipInstruction e
      return true : Km Bool).run k = .ok (true, k') ∧ EferArea e a k' ∧
        k'.pm.mem (a + 1) = efer ∧ k'.cpu = k.cpu ∧
        (k'.envs e).envVmxinfo = (k.envs e).envVmxinfo := by
  obtain ⟨rip, hskip⟩ := skipInstruction_run (e := e) (p := p)
    (k := k.withPm (k.pm.setWord (a + 1) efer)) hptr
  have henv : ∀ v : Env, (((k.withPm (k.pm.setWord (a + 1) efer)).setEnv e v).envs e) = v :=
    fun v => update_self ..
  rw [bind_ok (onPmap_ok (store_run h.range efer)), bind_ok hskip]
  refine ⟨_, rfl, ⟨?_, ?_, ?_, h.range⟩, update_self .., rfl, ?_⟩
  · rw [henv]
    exact h.area
  · rw [henv]
    exact h.count
  · exact (congrArg (BitVec.setWidth 32) (update_of_ne (Nat.ne_of_lt (Nat.lt_succ_self a))
      efer k.pm.mem)).trans h.index
  · rw [henv]
    rfl

/-- **`handle_wrmsr`** on `EFER`. -/
theorem handleWrmsr_run (hrcx : (k.envs e).envTf.tfRegs.regRcx = eferMsr) :
    ∃ k', (handleWrmsr e).run k = .ok (true, k') ∧
      Written e p a k (k.envs e).envTf.tfRegs.efer k' := by
  rw [handleWrmsr, bind_ok getEnv_run]
  dsimp only
  rw [if_pos hrcx, bind_ok (onPmap_read (eferEntry_run h)),
    bind_ok (onPmap_read (load_run h.range))]
  change ∃ k', (if lme (k.pm.mem (a + 1)) = false ∧ lme (k.envs e).envTf.tfRegs.efer = true then
    _ else _ : Km Bool).run k = _ ∧ _
  by_cases hlme : lme (k.pm.mem (a + 1)) = false ∧ lme (k.envs e).envTf.tfRegs.efer = true
  · rw [if_pos hlme, bind_ok (vmcsRead32_run hptr _), bind_ok (vmcsWrite32_run hptr _ _)]
    obtain ⟨k', hrun, harea, hstored, hcpu, hinfo⟩ := storeEfer_run
      (k := k.vmwrite p .vmentryControls (withX64 ((k.cpu.vmcs p).field .vmentryControls)))
      ⟨h.area, h.count, h.index, h.range⟩ hptr (k.envs e).envTf.tfRegs.efer
    refine ⟨k', hrun, harea, hstored, by rw [hcpu]; rfl, hinfo, ?_⟩
    rw [hcpu, if_pos hlme, Kernel.vmwrite_field, if_pos ⟨rfl, rfl⟩]
  · rw [if_neg hlme]
    obtain ⟨k', hrun, harea, hstored, hcpu, hinfo⟩ := storeEfer_run h hptr
      (k.envs e).envTf.tfRegs.efer
    refine ⟨k', hrun, harea, hstored, by rw [hcpu], hinfo, ?_⟩
    rw [hcpu, if_neg hlme]

/-- **`handle_rdmsr`** on `EFER`. -/
theorem handleRdmsr_run (hrcx : (k.envs e).envTf.tfRegs.regRcx = eferMsr) :
    ∃ k', (handleRdmsr e).run k = .ok (true, k') ∧
      (k'.envs e).envTf.tfRegs.regRax = k.pm.mem (a + 1) &&& 0xFFFFFFFF#64 ∧
      (k'.envs e).envTf.tfRegs.regRdx = k.pm.mem (a + 1) <<< 32 := by
  rw [handleRdmsr, bind_ok getEnv_run, if_pos hrcx, bind_ok (onPmap_read (eferEntry_run h)),
    bind_ok (onPmap_read (load_run h.range)), modifyRegs, bind_ok (modifyEnv_run _)]
  obtain ⟨rip, hskip⟩ := skipInstruction_run (e := e) (p := p) (k := k.setEnv e { k.envs e with
    envTf.tfRegs.regRdx := k.pm.mem (a + 1) <<< 32
    envTf.tfRegs.regRax := k.pm.mem (a + 1) &&& 0xFFFFFFFF#64 }) hptr
  rw [bind_ok hskip, Kernel.setEnv_setEnv, Kernel.setEnv_envs, update_self]
  refine ⟨_, rfl, ?_, ?_⟩
  · rw [Kernel.setEnv_envs, update_self]
  · rw [Kernel.setEnv_envs, update_self]

end

theorem EferArea.withRegs (h : EferArea e a k) (r : PushRegs) : EferArea e a (k.withRegs e r) where
  area := by
    rw [Kernel.withRegs, Kernel.setEnv_envs, update_self]
    exact h.area
  count := by
    rw [Kernel.withRegs, Kernel.setEnv_envs, update_self]
    exact h.count
  index := h.index
  range := h.range

/-! ### The round trip -/

/-- `WRMSR` stores the value in `edx` and `eax`, and `RDMSR`, whatever the other registers hold by
then, puts its halves into `rdx` and `rax`. -/
def RoundTrip (e : EnvIx) (a : Ptr) (k : Kernel) : Prop :=
  let efer := (k.envs e).envTf.tfRegs.edxEax
  ∃ k₁, (handleWrmsr e).run k = .ok (true, k₁) ∧ k₁.pm.mem (a + 1) = efer ∧
    ∀ r : PushRegs, r.regRcx = eferMsr →
      ∃ k₂, (handleRdmsr e).run (k₁.withRegs e r) = .ok (true, k₂) ∧
        (k₂.envs e).envTf.tfRegs.regRax = (efer.setWidth 32 : BitVec 32).setWidth 64 ∧
        (k₂.envs e).envTf.tfRegs.regRdx = ((efer >>> 32).setWidth 32 : BitVec 32).setWidth 64

theorem shiftLeft_eq_zero (w : Word) : w <<< 32 = 0 ↔ (w.setWidth 32 : BitVec 32) = 0 := by
  rw [← toNat_inj, ← toNat_inj]
  simp only [toNat_shiftLeft, toNat_setWidth, Nat.shiftLeft_eq]
  change w.toNat * 2 ^ 32 % 2 ^ 64 = 0 ↔ w.toNat % 2 ^ 32 = 0
  omega

/-- The lower half in the upper one's place is the upper half only if both are zero. -/
theorem eq_zero_of_shiftLeft {w : Word}
    (h : w <<< 32 = ((w >>> 32).setWidth 32 : BitVec 32).setWidth 64) : w = 0 := by
  rw [← toNat_inj] at h ⊢
  simp only [toNat_shiftLeft, toNat_setWidth, toNat_ushiftRight,
    Nat.shiftLeft_eq, Nat.shiftRight_eq_div_pow] at h
  change w.toNat = 0
  omega

theorem efer_eq_zero : r.efer = 0 ↔ r.regRax = 0 ∧ (r.regRdx.setWidth 32 : BitVec 32) = 0 :=
  BitVec.or_eq_zero_iff.trans ((and_congr_left' (shiftLeft_eq_zero _)).trans and_comm)

theorem edxEax_eq_zero (hrax : r.regRax = 0) (hrdx : (r.regRdx.setWidth 32 : BitVec 32) = 0) :
    r.edxEax = 0 := by
  rw [PushRegs.edxEax, hrax, hrdx]
  rfl

/-- **`EFER` makes the round trip** if and only if the value is zero, with nothing in the upper half
of `rax`. -/
theorem efer_roundTrip (h : EferArea e a k) (hptr : k.cpu.vmptr = some p)
    (hrcx : (k.envs e).envTf.tfRegs.regRcx = eferMsr) :
    RoundTrip e a k ↔ (k.envs e).envTf.tfRegs.regRax = 0 ∧
      ((k.envs e).envTf.tfRegs.regRdx.setWidth 32 : BitVec 32) = 0 := by
  obtain ⟨k₁, hwrite, hk₁⟩ := handleWrmsr_run h hptr hrcx
  -- what a read finds
  have hread : ∀ r : PushRegs, r.regRcx = eferMsr → ∃ k₂,
      (handleRdmsr e).run (k₁.withRegs e r) = .ok (true, k₂) ∧
      (k₂.envs e).envTf.tfRegs.regRax = k₁.pm.mem (a + 1) &&& 0xFFFFFFFF#64 ∧
      (k₂.envs e).envTf.tfRegs.regRdx = k₁.pm.mem (a + 1) <<< 32 := fun r hr =>
    handleRdmsr_run (hk₁.area.withRegs r) (hk₁.vmptr.trans hptr) (by
      rw [Kernel.withRegs, Kernel.setEnv_envs, update_self]
      exact hr)
  rw [hk₁.stored] at hread
  rw [RoundTrip]
  generalize (k.envs e).envTf.tfRegs = r at hk₁ hread ⊢
  constructor
  · rintro ⟨k₁', hrun, hstored, hback⟩
    rw [hwrite] at hrun
    obtain ⟨-, rfl⟩ := Prod.mk.inj (Except.ok.inj hrun)
    obtain ⟨k₂, hrun₂, -, hrdx⟩ := hback { regRcx := eferMsr } rfl
    obtain ⟨k₃, hrun₃, -, hrdx'⟩ := hread { regRcx := eferMsr } rfl
    rw [hrun₂] at hrun₃
    obtain ⟨-, rfl⟩ := Prod.mk.inj (Except.ok.inj hrun₃)
    rw [hrdx, ← hstored, hk₁.stored] at hrdx'
    exact efer_eq_zero.mp (eq_zero_of_shiftLeft hrdx'.symm)
  · rintro ⟨hrax, hrdx⟩
    have hzero : r.efer = 0 := efer_eq_zero.mpr ⟨hrax, hrdx⟩
    rw [edxEax_eq_zero hrax hrdx]
    rw [hzero] at hread
    exact ⟨k₁, hwrite, hk₁.stored.trans hzero, hread⟩

/-- A guest with an entry for `EFER`, which is zero. -/
def eferGuest : Kernel :=
  (areaGuest (requiring 0)).withPm ((areaGuest (requiring 0)).pm.setWord 1536 eferMsr)

theorem eferGuest_area : EferArea 0 1536 eferGuest where
  area := rfl
  count := rfl
  index := by decide +kernel
  range := by decide +kernel

/-- The registers at `WRMSR` or `RDMSR` on `EFER`. -/
def eferRegs (rdx rax : Word) : PushRegs := { regRcx := eferMsr, regRdx := rdx, regRax := rax }

/-- A value that is zero, with something in the upper half of `rdx`. -/
theorem efer_roundTrip_zero : RoundTrip 0 1536 (eferGuest.withRegs 0 (eferRegs 0x700000000#64 0)) :=
  (efer_roundTrip (eferGuest_area.withRegs _) (p := 1) rfl rfl).mpr ⟨rfl, by decide⟩

/-- **`EFER` is not given back.**  Of the value 0x100 the guest finds the lower half also in the upper
half of `rdx`; and the upper half of `rax` ends up in what is stored. -/
theorem efer_swapped : EferArea 0 1536 eferGuest ∧
    (Returns ((do
      let _ ← handleWrmsr 0
      handleRdmsr 0 : Km Bool).run (eferGuest.withRegs 0 (eferRegs 0 0x100#64))) fun r k =>
        r = true ∧ k.pm.mem 1537 = 0x100#64 ∧
          (k.envs 0).envTf.tfRegs.regRdx = 0x10000000000#64) ∧
    Returns ((handleWrmsr 0).run (eferGuest.withRegs 0 (eferRegs 0 0x700000100#64))) fun r k =>
      r = true ∧ k.pm.mem 1537 = 0x700000100#64 ∧ (eferRegs 0 0x700000100#64).edxEax = 0x100#64 :=
  ⟨eferGuest_area, by decide +kernel, by decide +kernel⟩

/-! ### Long mode -/

/-- The state in which the guest `e` leaves with `WRMSR`. -/
def Kernel.atWrmsr (k : Kernel) (e : EnvIx) (r : PushRegs) : Kernel :=
  let p := (k.envs e).vmcsPage
  { k.withRegs e r with
    curenv := some e
    cpu.vmptr := some p
    cpu.vmcs := update k.cpu.vmcs p ((k.cpu.vmcs p).setField .vmexitReason 0x20#64) }

/-- The exit of the guest `e` for `WRMSR`, with the registers `r`. -/
def wrmsrExit (stack : Fin 13 → BitVec 32) (userSh : Image) (e : EnvIx) (r : PushRegs) :
    Km Unit := do
  modify fun k => k.atWrmsr e r
  vmexit stack userSh

/-- The control for a 64-bit guest. -/
def isX64 (ctls : Word) : Bool := ctls.setWidth 32 &&& vmentryX64Guest ≠ 0

/-- The same, in the VMCS of the guest `e`. -/
def x64Guest (k : Kernel) (e : EnvIx) : Bool :=
  isX64 ((k.cpu.vmcs (k.envs e).vmcsPage).field .vmentryControls)

theorem isX64_withX64 (ctls : Word) : isX64 (withX64 ctls) = true := by
  refine decide_eq_true fun h => ?_
  have hbit := congrArg (BitVec.getLsbD · 9) h
  simp [withX64, vmentryX64Guest] at hbit

theorem atWrmsr_vmcs : (k.atWrmsr e r).cpu.vmcs (k.envs e).vmcsPage =
    (k.cpu.vmcs (k.envs e).vmcsPage).setField .vmexitReason 0x20#64 :=
  update_self ..

variable (stack : Fin 13 → BitVec 32) (userSh : Image)

/-- The exit is for `handle_wrmsr`. -/
theorem wrmsrExit_eq : (wrmsrExit stack userSh e r).run k = (do
    let handled ← handleWrmsr e
    if !handled then envDestroy e : Km Unit).run (k.atWrmsr e r) := by
  have hreason : ((k.atWrmsr e r).cpu.vmcs (k.envs e).vmcsPage).field .vmexitReason = 0x20#64 := by
    rw [atWrmsr_vmcs]
    rfl
  rw [wrmsrExit, bind_ok (a := ()) (u := k.atWrmsr e r) rfl, vmexit,
    bind_ok (vmcsRead32_run (p := (k.envs e).vmcsPage) rfl _), hreason, bind_get,
    show (k.atWrmsr e r).curenv = some e from rfl, bind_ok deref_run,
    show exitReason ((0x20#64 : Word).setWidth 32) = .wrmsr by decide, handleExit]

/-- **An exit for `WRMSR`** on `EFER`. -/
theorem wrmsrExit_run (h : EferArea e a k) (hrcx : r.regRcx = eferMsr) :
    ∃ k', (wrmsrExit stack userSh e r).run k = .ok ((), k') ∧ EferArea e a k' ∧
      k'.pm.mem (a + 1) = r.efer ∧
      x64Guest k' e = (x64Guest k e || !lme (k.pm.mem (a + 1)) && lme r.efer) := by
  have henv : (k.atWrmsr e r).envs e = { k.envs e with envTf.tfRegs := r } :=
    update_self ..
  have harea := h.withRegs r
  obtain ⟨k', hrun, hk'⟩ := handleWrmsr_run (k := k.atWrmsr e r) (p := (k.envs e).vmcsPage)
    ⟨harea.area, harea.count, harea.index, harea.range⟩ rfl (by rw [henv]; exact hrcx)
  rw [henv] at hk'
  refine ⟨k', ?_, hk'.area, hk'.stored, ?_⟩
  · rw [wrmsrExit_eq, bind_ok hrun]
    rfl
  · have hpage : (k'.envs e).vmcsPage = (k.envs e).vmcsPage := by
      rw [Env.vmcsPage, hk'.info, henv]
      rfl
    rw [x64Guest, hpage, hk'.controls, atWrmsr_vmcs, x64Guest]
    change isX64 (if lme (k.pm.mem (a + 1)) = false ∧ lme r.efer = true then _ else _) = _
    by_cases hlme : lme (k.pm.mem (a + 1)) = false ∧ lme r.efer = true
    · rw [if_pos hlme, isX64_withX64, hlme.1, hlme.2]
      simp
    · rw [if_neg hlme]
      cases h1 : lme (k.pm.mem (a + 1)) <;> cases h2 : lme r.efer <;> simp_all

/-- **Exits for `WRMSR`** on `EFER`: the control is set by the first write that sets `LME`, and
stays so. -/
theorem wrmsrExits_run {l : List PushRegs} (h : EferArea e a k)
    (hx : lme (k.pm.mem (a + 1)) = true → x64Guest k e = true) (hl : ∀ r ∈ l, r.regRcx = eferMsr) :
    ∃ k', (l.forM (wrmsrExit stack userSh e)).run k = .ok ((), k') ∧
      k'.pm.mem (a + 1) = (l.getLast?.map PushRegs.efer).getD (k.pm.mem (a + 1)) ∧
      x64Guest k' e = (x64Guest k e || l.any fun r => lme r.efer) := by
  induction l generalizing k with
  | nil => exact ⟨k, rfl, rfl, by simp⟩
  | cons r l ih =>
    obtain ⟨k₁, hrun1, harea, hstored, hx1⟩ :=
      wrmsrExit_run stack userSh h (hl r (mem_cons_self ..))
    have hbit : x64Guest k₁ e = (x64Guest k e || lme r.efer) := by
      rw [hx1]
      cases hcur : lme (k.pm.mem (a + 1)) with
      | false => rfl
      | true => simp [hx hcur]
    obtain ⟨k', hrun, hlast, hx'⟩ := ih harea (fun h1 => by
      rw [hstored] at h1
      rw [hbit, h1, Bool.or_true]) fun r' hr' => hl r' (mem_cons_of_mem r hr')
    refine ⟨k', ?_, ?_, ?_⟩
    · rw [forM_eq_forM, forM_cons, bind_ok hrun1]
      exact hrun
    · rw [hlast, hstored, getLast?_cons]
      cases l.getLast? <;> rfl
    · rw [hx', hbit, any_cons, Bool.or_assoc]

/-- **The control for a 64-bit guest agrees with `LME`** after a sequence of writes, if and only if
the last of them sets `LME`, or none does. -/
theorem x64Guest_tracks {l : List PushRegs} (hptr : k₀.cpu.vmptr = some p)
    (hinit : (vmcsCtlsInit e).run k₀ = .ok ((), k)) (hp : (k.envs e).vmcsPage = p)
    (hclear : isX64 (ctls k₀.cpu 0x484#32 0 0) = false) (h : EferArea e a k)
    (hzero : k.pm.mem (a + 1) = 0) (hl : ∀ r ∈ l, r.regRcx = eferMsr) :
    ∃ k', (l.forM (wrmsrExit stack userSh e)).run k = .ok ((), k') ∧
      ((x64Guest k' e = true ↔ lme (k'.pm.mem (a + 1)) = true) ↔
        ((∃ r ∈ l, lme r.efer = true) → ∃ r ∈ l.getLast?, lme r.efer = true)) := by
  have hx : x64Guest k e = false := by
    rw [x64Guest, hp, (vmcsCtlsInit_fields hptr hinit).2.2.2.2, hclear]
  obtain ⟨k', hrun, hlast, hx'⟩ := wrmsrExits_run stack userSh h
    (fun h' => by rw [hzero] at h'; cases h') hl
  refine ⟨k', hrun, ?_⟩
  rw [hx', hx, Bool.false_or, any_eq_true, hlast, hzero]
  cases hl' : l.getLast? with
  | none =>
    obtain rfl := List.getLast?_eq_none_iff.mp hl'
    simp [lme, bit]
  | some r =>
    have hr : r ∈ l := mem_of_getLast? hl'
    simp only [Option.map_some, Option.getD_some, Option.mem_def, Option.some.injEq,
      exists_eq_left']
    exact ⟨fun h' => h'.mp, fun h' => ⟨h', fun hlme => ⟨r, hr, hlme⟩⟩⟩

/-- A guest after `vmcs_ctls_init`, if this satisfies `P`. -/
theorem exists_ctlsInit (k₀ : Kernel) {P : Kernel → Prop}
    (h : Returns ((vmcsCtlsInit e).run k₀) fun _ k =>
      ((k.envs e).vmcsPage = 1 ∧ (k.envs e).envVmxinfo.msrGuestArea = some a ∧
        (k.envs e).envVmxinfo.msrCount = 1#32 ∧
        (k.pm.mem a).setWidth 32 = (eferMsr.setWidth 32 : BitVec 32) ∧
        a + 1 < k.pm.npages * 512 ∧ k.pm.mem (a + 1) = 0) ∧ P k) :
    ∃ k, (vmcsCtlsInit e).run k₀ = .ok ((), k) ∧ (k.envs e).vmcsPage = 1 ∧
      EferArea e a k ∧ k.pm.mem (a + 1) = 0 ∧ P k := by
  obtain ⟨_, k, hrun, ⟨hp, harea, hcount, hindex, hrange, hzero⟩, hP⟩ := h.exists_ok
  exact ⟨k, hrun, hp, ⟨harea, hcount, hindex, hrange⟩, hzero, hP⟩

/-- `LME` is set. -/
theorem x64Guest_tracks_enable : ∃ k k', (vmcsCtlsInit 0).run eferGuest = .ok ((), k) ∧
    ([eferRegs 0 0x100#64].forM (wrmsrExit (fun _ => 0) (fun _ => 0) 0)).run k = .ok ((), k') ∧
    (x64Guest k' 0 = true ↔ lme (k'.pm.mem 1537) = true) := by
  obtain ⟨k, hinit, hp, harea, hzero, -⟩ := exists_ctlsInit eferGuest (e := 0)
    (a := 1536) (P := fun _ => True) (by decide +kernel)
  obtain ⟨k', hrun, htracks⟩ := x64Guest_tracks (fun _ => 0) (fun _ => 0)
    (l := [eferRegs 0 0x100#64]) (show eferGuest.cpu.vmptr = some 1 from rfl) hinit hp
    (by decide +kernel) harea hzero (by decide)
  exact ⟨k, k', hinit, hrun, htracks.mpr fun _ => ⟨_, rfl, by decide⟩⟩

/-- **The control outlives `LME`**: a guest that has set and cleared `LME` is still entered as a
64-bit guest. -/
theorem x64Guest_stale : ∃ k, (vmcsCtlsInit 0).run eferGuest = .ok ((), k) ∧
    (k.envs 0).vmcsPage = 1 ∧ EferArea 0 1536 k ∧ k.pm.mem 1537 = 0 ∧ x64Guest k 0 = false ∧
    Returns (([eferRegs 0 0x100#64, eferRegs 0 0].forM
      (wrmsrExit (fun _ => 0) (fun _ => 0) 0)).run k) fun _ k' =>
        x64Guest k' 0 = true ∧ lme (k'.pm.mem 1537) = false :=
  exists_ctlsInit eferGuest (by decide +kernel)

/-! ### MSR areas -/

/-- Entry `i` of an MSR area: a `struct vmx_msr_entry` has two words. -/
def msrEntry (area : Ptr) (i : Nat) : Ptr := area + 2 * i

/-- The index of the entry at `entry` is `msrIdx`. -/
def HoldsMsr (s : Pmap) (msrIdx : BitVec 32) (entry : Ptr) : Prop :=
  (s.mem entry).setWidth 32 = msrIdx

instance (s : Pmap) (msrIdx : BitVec 32) : DecidablePred (HoldsMsr s msrIdx) :=
  fun _ => inferInstanceAs (Decidable (_ = _))

/-- Only the first entry is looked at, once for each entry of the area. -/
theorem findMsrInRegion_run {msrIdx : BitVec 32} {area : Nat} {s : Pmap} (areaSz : Nat)
    (h : 0 < areaSz → area < s.npages * 512) : (findMsrInRegion msrIdx area areaSz).run s =
      .ok (if 0 < areaSz ∧ HoldsMsr s msrIdx area then some area else none, s) := by
  induction areaSz with
  | zero => rfl
  | succ n ih =>
    have hlt : area < s.npages * 512 := h n.succ_pos
    rw [findMsrInRegion, bind_ok (load_run hlt)]
    by_cases hm : (s.mem area).setWidth 32 = msrIdx
    · rw [if_pos hm, if_pos ⟨n.succ_pos, hm⟩]
      rfl
    · rw [if_neg hm, if_neg (fun hc => hm hc.2), ih fun _ => hlt, if_neg (fun hc => hm hc.2)]

/-- **`find_msr_in_region` finds the first entry of an MSR**, whatever there is outside the area,
exactly if it is the first one of the area or the area has none: the loop does not advance. -/
theorem findMsrInRegion_complete_iff (msrIdx : BitVec 32) (area areaSz : Nat) (s : Pmap)
    (harea : area + 2 * areaSz ≤ s.npages * 512) :
    (∀ s' : Pmap, s'.npages = s.npages →
      (∀ i < 2 * areaSz, s'.mem (area + i) = s.mem (area + i)) →
      (findMsrInRegion msrIdx area areaSz).run s' =
        .ok (((List.range areaSz).map (msrEntry area)).find? fun entry =>
          HoldsMsr s msrIdx entry, s')) ↔
    ∀ i < areaSz, HoldsMsr s msrIdx (msrEntry area i) → HoldsMsr s msrIdx (msrEntry area 0) := by
  constructor
  · intro h i hi hm
    have hrun := h s rfl fun _ _ => rfl
    rw [findMsrInRegion_run areaSz fun _ => by omega] at hrun
    by_contra hfirst
    rw [if_neg (fun hc => hfirst hc.2)] at hrun
    have hnone := find?_eq_none.mp (congrArg Prod.fst (Except.ok.inj hrun)).symm
    exact hnone _ (mem_map_of_mem (mem_range.mpr hi)) (decide_eq_true hm)
  · intro h s' hn hs
    have hmem : 0 < areaSz → (HoldsMsr s' msrIdx area ↔ HoldsMsr s msrIdx area) := fun hpos => by
      rw [HoldsMsr, HoldsMsr, show s'.mem area = s.mem area from hs 0 (by omega)]
    rw [findMsrInRegion_run areaSz fun _ => by omega]
    cases areaSz with
    | zero => rfl
    | succ n =>
      rw [range_succ_eq_map, map_cons]
      by_cases hfirst : HoldsMsr s msrIdx area
      · have htest : decide (HoldsMsr s msrIdx (msrEntry area 0)) = true := decide_eq_true hfirst
        rw [if_pos ⟨n.succ_pos, (hmem n.succ_pos).mpr hfirst⟩, find?_cons, htest]
        rfl
      · rw [if_neg (fun hc => hfirst ((hmem n.succ_pos).mp hc.2)), ← map_cons, ← range_succ_eq_map,
          find?_eq_none.mpr]
        intro entry hentry hm
        obtain ⟨i, hi, rfl⟩ := mem_map.mp hentry
        exact hfirst (h i (mem_range.mp hi) (of_decide_eq_true hm))

/-- The area of `eferGuest`. -/
theorem findMsrInRegion_complete_efer :
    (findMsrInRegion (eferMsr.setWidth 32) 1536 1).run eferGuest.pm = .ok (some 1536, eferGuest.pm) :=
  (findMsrInRegion_complete_iff (eferMsr.setWidth 32) 1536 1 eferGuest.pm (by decide +kernel)).mpr
    (fun i hi hm => by rwa [show i = 0 by omega] at hm) eferGuest.pm rfl fun _ _ => rfl

/-- **The second entry is not found.** -/
theorem findMsrInRegion_misses :
    HoldsMsr eferGuest.pm (eferMsr.setWidth 32) (msrEntry 1534 1) ∧
    (findMsrInRegion (eferMsr.setWidth 32) 1534 2).run eferGuest.pm = .ok (none, eferGuest.pm) := by
  refine ⟨by decide +kernel, ?_⟩
  rw [findMsrInRegion_run 2 fun _ => by decide +kernel, if_neg (by decide +kernel)]

end JosVmm
