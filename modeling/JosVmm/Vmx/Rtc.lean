import JosVmm.Guests.Slots
import JosVmm.Vmx.Interrupts

/-!
# Vmx — the clock's registers

A guest reads the size of its memory from the CMOS: it writes an index to the port `IO_RTC` and
reads a byte from the next port.  `handle_ioinstr` keeps the index in one static variable, for all
guests, and keeps 32 bits of `rax` although the instruction writes only the lowest byte.

The runs here are interleavings of the I/O exits of any number of guests.  A guest is known by its
`envid`, as a slot may be used again.  A read is answered as the guest's own last index and its own
size ask for, if no other index has been written since and the upper bytes of the index were zero
(`rtc_answered`).  Otherwise the answer is no function of these at all (`rtc_interferes`).
-/

namespace JosVmm
open Support Support.Prog Function List Kernel

/-! ### Exits -/

/-- The state in which the guest `e` leaves with an I/O instruction. -/
def Kernel.atIo (k : Kernel) (e : EnvIx) (qualification rax : Word) : Kernel :=
  let p := (k.envs e).vmcsPage
  { k.setEnv e { k.envs e with envTf.tfRegs.regRax := rax } with
    curenv := some e
    cpu.vmptr := some p
    cpu.vmcs := update k.cpu.vmcs p
      (((k.cpu.vmcs p).setField .vmexitReason 0x1E#64).setField .vmexitQualification
        qualification) }

/-- The port of an I/O instruction. -/
def ioPort (qualification : Word) : Word := (qualification >>> 16) &&& 0xFFFF#64

/-- An `out` to the index port. -/
def IndexWrite (qualification : Word) : Prop :=
  ioPort qualification = ioRtc ∧ bit qualification 3 = false

/-- An `in` from the data port. -/
def DataRead (qualification : Word) : Prop :=
  ioPort qualification = ioRtc + 1#64 ∧ bit qualification 3 = true

instance : DecidablePred IndexWrite := fun _ => inferInstanceAs (Decidable (_ ∧ _))
instance : DecidablePred DataRead := fun _ => inferInstanceAs (Decidable (_ ∧ _))

inductive RtcOp where
  /-- The guest `id`, which is in slot `e`, leaves with an I/O instruction. -/
  | io (e : EnvIx) (id : EnvId) (qualification rax : Word)
  /-- Anything else that leads to the state `k`. -/
  | other (k : Kernel)

def RtcOp.exec (stack : Fin 13 → BitVec 32) (userSh : Image) : RtcOp → Km Unit
  | io e _ qualification rax => do
    modify fun k => k.atIo e qualification rax
    vmexit stack userSh
  | other k => set k

def RtcOp.Enabled (k : Kernel) : RtcOp → Prop
  | io e id _ _ => (k.envs e).envId = id
  | other k' => k'.portIortc = k.portIortc

instance (k : Kernel) : DecidablePred (RtcOp.Enabled k)
  | .io .. => inferInstanceAs (Decidable (_ = _))
  | .other _ => inferInstanceAs (Decidable (_ = _))

/-! ### What a read should give -/

/-- The guest and the value of `rax`, if an index is written. -/
def RtcOp.index : RtcOp → Option (EnvId × Word)
  | io _ id qualification rax => if IndexWrite qualification then some (id, rax) else none
  | other _ => none

/-- `rax` at the last index write of all guests. -/
def lastIndex (l : List RtcOp) : Option Word := (l.filterMap RtcOp.index).getLast?.map Prod.snd

/-- The index that the guest `id` wrote last, which is the lowest byte of `rax`. -/
def ownIndex (id : EnvId) (l : List RtcOp) : Option (BitVec 8) :=
  ((l.filterMap RtcOp.index).filter fun w => w.1 = id).getLast?.map fun w => w.2.setWidth 8

/-- The register that an index selects; before the first one it is the initial value. -/
def rtcAnswer (index : Option (BitVec 8)) (physSz : Word) : Option Word :=
  nvramRead physSz ((index.getD 0).setWidth 32)

/-- `handle_ioinstr` answers with the byte, or does not handle the instruction. -/
def Answered (e : EnvIx) (answer : Option Word) (k : Kernel) : Prop :=
  ∃ k', (handleIoinstr e).run k = .ok (answer.isSome, k') ∧
    ∀ v ∈ answer, (k'.envs e).envTf.tfRegs.regRax = v

/-- What was written last, by any guest, is the index of the guest `id`. -/
def Undisturbed (id : EnvId) (l : List RtcOp) : Prop :=
  (lastIndex l).map (BitVec.setWidth 32) = (ownIndex id l).map (BitVec.setWidth 32)

/-! ### What it gives -/

variable {k k' k₀ : Kernel} {e : EnvIx} {p : Nat} {id : EnvId} {q rax w : Word}
  {stack : Fin 13 → BitVec 32} {userSh : Image} {l : List RtcOp}

theorem atIo_env : (k.atIo e q rax).envs e = { k.envs e with envTf.tfRegs.regRax := rax } :=
  update_self ..

theorem atIo_vmcs : (k.atIo e q rax).cpu.vmcs (k.envs e).vmcsPage =
    ((k.cpu.vmcs (k.envs e).vmcsPage).setField .vmexitReason 0x1E#64).setField
      .vmexitQualification q :=
  update_self ..

theorem atIo_qualification :
    ((k.atIo e q rax).cpu.vmcs (k.envs e).vmcsPage).field .vmexitQualification = q := by
  rw [atIo_vmcs, Vmcs.setField_field, if_pos rfl]

theorem atIo_reason :
    ((k.atIo e q rax).cpu.vmcs (k.envs e).vmcsPage).field .vmexitReason = 0x1E#64 := by
  rw [atIo_vmcs]
  rfl

section

variable (hptr : k.cpu.vmptr = some p)
include hptr

theorem skipInstruction_run : ∃ rip,
    (skipInstruction e).run k = .ok ((), k.setEnv e { k.envs e with envTf.tfRip := rip }) := by
  rw [skipInstruction, bind_ok (vmcsRead32_run hptr _), modifyEnv_run]
  exact ⟨_, rfl⟩

/-- **An index write** is kept, with 32 bits of `rax`. -/
theorem handleIoinstr_index (hq : IndexWrite ((k.cpu.vmcs p).field .vmexitQualification)) : ∃ rip,
    (handleIoinstr e).run k = .ok (true,
      setEnv { k with portIortc := (k.envs e).envTf.tfRegs.regRax.setWidth 32 } e
        { k.envs e with envTf.tfRip := rip }) := by
  rw [IndexWrite, ioPort] at hq
  rw [handleIoinstr, bind_ok (vmcsRead64_run hptr _), bind_ok getEnv_run, if_pos hq,
    bind_ok (a := ()) rfl]
  obtain ⟨rip, hskip⟩ := skipInstruction_run (e := e)
    (k := { k with portIortc := (k.envs e).envTf.tfRegs.regRax.setWidth 32 }) hptr
  rw [bind_ok hskip]
  exact ⟨rip, rfl⟩

/-- A data read looks the index up. -/
theorem handleIoinstr_read (hq : DataRead ((k.cpu.vmcs p).field .vmexitQualification)) : ∃ rip,
    (handleIoinstr e).run k = .ok (match nvramRead (k.envs e).envVmxinfo.physSz k.portIortc with
      | none => (false, k)
      | some v => (true, k.setEnv e { k.envs e with envTf.tfRegs.regRax := v, envTf.tfRip := rip }))
    := by
  have hne : ¬ IndexWrite ((k.cpu.vmcs p).field .vmexitQualification) := fun h =>
    absurd (h.1.symm.trans hq.1) (by decide)
  rw [IndexWrite, ioPort] at hne
  rw [DataRead, ioPort] at hq
  rw [handleIoinstr, bind_ok (vmcsRead64_run hptr _), bind_ok getEnv_run,
    if_neg hne, if_pos hq, bind_get]
  cases nvramRead (k.envs e).envVmxinfo.physSz k.portIortc with
  | none => exact ⟨0, rfl⟩
  | some v =>
    dsimp only
    rw [modifyRegs, bind_ok (modifyEnv_run _)]
    obtain ⟨rip, hskip⟩ := skipInstruction_run (e := e) (p := p)
      (k := k.setEnv e { k.envs e with envTf.tfRegs.regRax := v }) hptr
    rw [bind_ok hskip, setEnv_setEnv, setEnv_envs, update_self]
    exact ⟨rip, rfl⟩

/-- **A data read** is answered from the index kept. -/
theorem handleIoinstr_data (hq : DataRead ((k.cpu.vmcs p).field .vmexitQualification)) :
    Answered e (nvramRead (k.envs e).envVmxinfo.physSz k.portIortc) k := by
  obtain ⟨rip, hrun⟩ := handleIoinstr_read (e := e) hptr hq
  rw [Answered, hrun]
  cases nvramRead (k.envs e).envVmxinfo.physSz k.portIortc with
  | none => exact ⟨k, rfl, nofun⟩
  | some v =>
    refine ⟨_, rfl, fun v' hv' => ?_⟩
    obtain rfl := Option.some.inj hv'
    rw [setEnv_envs, update_self]

end

theorem Answered.unique {a a' : Option Word} (h : Answered e a k) (h' : Answered e a' k) :
    a = a' := by
  obtain ⟨k₁, hrun, hv⟩ := h
  obtain ⟨k₂, hrun', hv'⟩ := h'
  rw [hrun] at hrun'
  obtain ⟨hs, rfl⟩ := Prod.mk.inj (Except.ok.inj hrun')
  cases a with
  | none => exact (Option.not_isSome_iff_eq_none.mp (by rw [← hs]; nofun)).symm
  | some v =>
    obtain ⟨v', rfl⟩ := Option.isSome_iff_exists.mp hs.symm
    rw [← hv v rfl, ← hv' v' rfl]

/-! ### The index kept -/

theorem skipInstruction_port {c : BitVec 32} : Ensures (fun k => k.portIortc = c)
    (skipInstruction e) fun _ k => k.portIortc = c :=
  .bind vmcsRead32_keeps fun _ => .modify fun _ h => h

/-- Nothing but an index write changes the index kept. -/
theorem handleIoinstr_keeps (hptr : k.cpu.vmptr = some p)
    (hq : ¬ IndexWrite ((k.cpu.vmcs p).field .vmexitQualification)) {r : Bool}
    (hrun : (handleIoinstr e).run k = .ok (r, k')) : k'.portIortc = k.portIortc := by
  rw [IndexWrite, ioPort] at hq
  rw [handleIoinstr, bind_ok (vmcsRead64_run hptr _), bind_ok getEnv_run, if_neg hq] at hrun
  refine Ensures.of_run (P := fun k₁ => k₁.portIortc = k.portIortc)
    (fun _ k₁ => k₁.portIortc = k.portIortc) rfl hrun ?_
  split
  · refine .bind .get fun k₁ => ?_
    split
    · exact .skip
    · exact .bind (R := fun _ k₁ => k₁.portIortc = k.portIortc) (.modify fun _ h => h) fun _ =>
        .bind skipInstruction_port fun _ => .skip
  · exact .skip

theorem envDestroy_port {u : Unit} (hrun : (envDestroy e).run k = .ok (u, k')) :
    k'.portIortc = k.portIortc := by
  obtain ⟨-, rfl⟩ | ⟨k₁, hr, rfl⟩ := envDestroy_eq_ok hrun
  · rfl
  · have hk1 : k₁.portIortc = k.portIortc := by
      rw [hr.rest]
      rfl
    rw [leave]
    split <;> exact hk1

/-- The exit is for `handle_ioinstr`. -/
theorem io_run : (RtcOp.exec stack userSh (.io e id q rax)).run k = (do
    let handled ← handleIoinstr e
    if !handled then envDestroy e : Km Unit).run (k.atIo e q rax) := by
  rw [RtcOp.exec, bind_ok (a := ()) (u := k.atIo e q rax) rfl, vmexit,
    bind_ok (vmcsRead32_run (p := (k.envs e).vmcsPage) rfl _), atIo_reason, bind_get,
    show (k.atIo e q rax).curenv = some e from rfl, bind_ok deref_run,
    show exitReason ((0x1E#64 : Word).setWidth 32) = .ioInstruction by decide, handleExit]

/-- An exit that writes an index keeps it. -/
theorem index_run (stack : Fin 13 → BitVec 32) (userSh : Image) (k : Kernel) (e : EnvIx)
    (id : EnvId) (rax : Word) (hq : IndexWrite q) : ∃ k',
    (RtcOp.exec stack userSh (.io e id q rax)).run k = .ok ((), k') ∧
      k'.portIortc = rax.setWidth 32 ∧ ∀ g, (k'.envs g).envId = (k.envs g).envId ∧
        (k'.envs g).envVmxinfo = (k.envs g).envVmxinfo := by
  obtain ⟨rip, hrun⟩ := handleIoinstr_index (k := k.atIo e q rax) (e := e)
    (p := (k.envs e).vmcsPage) rfl (atIo_qualification ▸ hq)
  refine ⟨_, by rw [io_run, bind_ok hrun]; rfl, ?_, fun g => ?_⟩
  · rw [atIo_env]
    rfl
  · by_cases hg : g = e
    · subst hg
      rw [setEnv_envs, update_self, atIo_env]
      exact ⟨rfl, rfl⟩
    · rw [setEnv_envs, update_of_ne hg]
      change (update k.envs e _ g).envId = _ ∧ (update k.envs e _ g).envVmxinfo = _
      rw [update_of_ne hg]
      exact ⟨rfl, rfl⟩

/-- An exit of a guest changes the index kept if it writes one. -/
theorem io_port (hrun : (RtcOp.exec stack userSh (.io e id q rax)).run k = .ok ((), k')) :
    k'.portIortc = if IndexWrite q then rax.setWidth 32 else k.portIortc := by
  by_cases hq : IndexWrite q
  · obtain ⟨k₁, h1, hport, -⟩ := index_run stack userSh k e id rax hq
    rw [h1] at hrun
    cases hrun
    rw [if_pos hq, hport]
  · have hptr : (k.atIo e q rax).cpu.vmptr = some (k.envs e).vmcsPage := rfl
    rw [io_run] at hrun
    obtain ⟨r, k₁, h1, hrun⟩ := bind_inv hrun
    have hport := handleIoinstr_keeps (e := e) hptr (atIo_qualification ▸ hq) h1
    rw [if_neg hq]
    cases r with
    | true =>
      cases hrun
      exact hport
    | false => exact (envDestroy_port hrun).trans hport

theorem lastIndex_snoc (l : List RtcOp) (op : RtcOp) :
    lastIndex (l ++ [op]) = (op.index.map Prod.snd).or (lastIndex l) := by
  rw [lastIndex, filterMap_append, getLast?_append, lastIndex]
  cases h : op.index <;> simp [h]

theorem ownIndex_snoc (l : List RtcOp) (hq : IndexWrite q) (g : EnvId) :
    ownIndex g (l ++ [.io e id q rax]) =
      if id = g then some (rax.setWidth 8) else ownIndex g l := by
  have hone : [RtcOp.io e id q rax].filterMap RtcOp.index = [(id, rax)] := by
    simp [RtcOp.index, hq]
  rw [ownIndex, filterMap_append, hone, filter_append, filter_singleton]
  by_cases h : id = g
  · rw [if_pos h, decide_eq_true h, cond_true, getLast?_append]
    rfl
  · rw [if_neg h, decide_eq_false h, cond_false, append_nil, ownIndex]

/-- **The index kept** is the last one written. -/
theorem rtc_index (h0 : k₀.portIortc = 0)
    (ht : Trace (RtcOp.exec stack userSh) (fun _ k op => op.Enabled k) k₀ l k) :
    k.portIortc = ((lastIndex l).map (BitVec.setWidth 32)).getD 0 := by
  refine ht.invariant (P := fun l k => k.portIortc = ((lastIndex l).map (BitVec.setWidth 32)).getD 0)
    (fun l k op k' h hen hrun => ?_) h0
  rw [lastIndex_snoc]
  cases op with
  | other k₁ =>
    cases hrun
    exact Eq.trans hen h
  | io e id q rax =>
    rw [io_port hrun, RtcOp.index]
    split
    · rfl
    · exact h

/-- **Guests do not interfere.**  In every run, a data read of a guest is answered from its own
last index and its own size, if what was written last by any guest is that index. -/
theorem rtc_answered (h₀ : k₀.portIortc = 0)
    (ht : Trace (RtcOp.exec stack userSh) (fun _ k op => op.Enabled k) k₀ l k)
    (hq : DataRead q) (hu : Undisturbed (k.envs e).envId l) :
    Answered e (rtcAnswer (ownIndex (k.envs e).envId l) (k.envs e).envVmxinfo.physSz)
      (k.atIo e q rax) := by
  have hdata := handleIoinstr_data (k := k.atIo e q rax) (e := e) rfl
    (p := (k.envs e).vmcsPage) (by rw [atIo_qualification]; exact hq)
  have hport : (k.atIo e q rax).portIortc =
      ((ownIndex (k.envs e).envId l).getD 0).setWidth 32 := by
    change k.portIortc = _
    rw [rtc_index h₀ ht, hu]
    cases ownIndex (k.envs e).envId l <;> rfl
  rw [hport, atIo_env] at hdata
  exact hdata

/-- `out` to the index port, and `in` from the data port, of one byte. -/
def outIndex : Word := 0x700000#64
def inData : Word := 0x710008#64

/-- Two guests of the same size. -/
structure RtcGuests (k : Kernel) : Prop where
  reach : GuestReach (fun _ _ => True) (smallMachine (faultAt 2 0)) k
  ids : (k.envs 0).envId ≠ (k.envs 1).envId
  port : k.portIortc = 0
  size : ∀ e ∈ ({0, 1} : Finset EnvIx), (k.envs e).envVmxinfo.physSz = 0

theorem exists_rtcGuests : ∃ k, RtcGuests k := by
  have hrun : Follows GuestOp.exec (fun k op => op.Enabled k ∧ True)
      (fun k => (k.envs 0).envId ≠ (k.envs 1).envId ∧ k.portIortc = 0 ∧
        ∀ e ∈ ({0, 1} : Finset EnvIx), (k.envs e).envVmxinfo.physSz = 0)
      [.alloc 0, .alloc 0] (smallMachine (faultAt 2 0)) := by
    decide +kernel
  obtain ⟨k, hr, hid, hport, hsize⟩ := hrun.reach
  exact ⟨k, hr, hid, hport, hsize⟩

/-- The first guest selects `NVRAM_EXTLO`. -/
theorem select_extlo (k₀ : Kernel) : ∃ k,
    Trace (RtcOp.exec (fun _ => 0) fun _ => 0) (fun _ k op => op.Enabled k) k₀
        [.io 0 (k₀.envs 0).envId outIndex 0x17#64] k ∧
      k.portIortc = 0x17#32 ∧ ∀ g, (k.envs g).envId = (k₀.envs g).envId ∧
        (k.envs g).envVmxinfo = (k₀.envs g).envVmxinfo := by
  obtain ⟨k, hrun, hport, hsame⟩ := index_run (q := outIndex) (fun _ => 0) (fun _ => 0) k₀ 0
    (k₀.envs 0).envId 0x17#64 (by decide)
  exact ⟨k, Trace.nil.snoc rfl hrun, hport, hsame⟩

/-- The guest that selected `NVRAM_EXTLO` reads it. -/
theorem rtc_answered_extlo : ∃ k₀ k, RtcGuests k₀ ∧
    Trace (RtcOp.exec (fun _ => 0) fun _ => 0) (fun _ k op => op.Enabled k) k₀
      [.io 0 (k₀.envs 0).envId outIndex 0x17#64] k ∧ Answered 0 (some 0) (k.atIo 0 inData 0) := by
  obtain ⟨k₀, h₀⟩ := exists_rtcGuests
  obtain ⟨k, ht, -, hsame⟩ := select_extlo k₀
  have hown : ownIndex (k.envs 0).envId [.io 0 (k₀.envs 0).envId outIndex 0x17#64] =
      some 0x17#8 := by
    rw [(hsame 0).1]
    exact (ownIndex_snoc [] (by decide) _).trans (if_pos rfl)
  have h : Answered 0 (rtcAnswer (ownIndex (k.envs 0).envId _) _) (k.atIo 0 inData 0) :=
    rtc_answered h₀.port ht (by decide) (by
      rw [Undisturbed, hown]
      rfl)
  rw [hown, (hsame 0).2, h₀.size 0 (by decide)] at h
  exact ⟨k₀, k, h₀, ht, h⟩

/-- **An index of another guest changes the answer**: it is not a function of the guest's own index
and size. -/
theorem rtc_interferes : ¬ ∃ f : Option (BitVec 8) → Word → Option Word,
    ∀ (k₀ : Kernel) (l : List RtcOp) (k : Kernel) (e : EnvIx) (q rax : Word), k₀.portIortc = 0 →
      Trace (RtcOp.exec (fun _ => 0) fun _ => 0) (fun _ k op => op.Enabled k) k₀ l k → DataRead q →
        Answered e (f (ownIndex (k.envs e).envId l) (k.envs e).envVmxinfo.physSz)
          (k.atIo e q rax) := by
  rintro ⟨f, hf⟩
  obtain ⟨k₀, h₀⟩ := exists_rtcGuests
  obtain ⟨k, ht, hport, hsame⟩ := select_extlo k₀
  -- the other guest selects `NVRAM_BASELO` before the first one reads
  obtain ⟨k', hrun, hport', hsame'⟩ := index_run (q := outIndex) (fun _ => 0) (fun _ => 0) k 1
    (k₀.envs 1).envId 0x15#64 (by decide)
  have hen : RtcOp.Enabled k (.io 1 (k₀.envs 1).envId outIndex 0x15#64) := (hsame 1).1
  have ht' := ht.snoc hen hrun
  have h := hf k₀ _ k 0 inData 0 h₀.port ht (by decide)
  have h' := hf k₀ _ k' 0 inData 0 h₀.port ht' (by decide)
  have hown : ownIndex (k'.envs 0).envId ([.io 0 (k₀.envs 0).envId outIndex 0x17#64] ++
      [.io 1 (k₀.envs 1).envId outIndex 0x15#64]) =
      ownIndex (k.envs 0).envId [.io 0 (k₀.envs 0).envId outIndex 0x17#64] := by
    rw [(hsame' 0).1, (hsame 0).1, ownIndex_snoc _ (by decide), if_neg h₀.ids.symm]
  rw [hown, (hsame' 0).2] at h'
  have hdata := handleIoinstr_data (k := k.atIo 0 inData 0) (e := 0) (p := (k.envs 0).vmcsPage) rfl
    (by rw [atIo_qualification]; decide)
  have hdata' := handleIoinstr_data (k := k'.atIo 0 inData 0) (e := 0) (p := (k'.envs 0).vmcsPage) rfl
    (by rw [atIo_qualification]; decide)
  rw [show (k.atIo 0 inData 0).portIortc = _ from hport, atIo_env] at hdata
  rw [show (k'.atIo 0 inData 0).portIortc = _ from hport', atIo_env] at hdata'
  have hv := (h.unique hdata).symm.trans (h'.unique hdata')
  rw [(hsame' 0).2, (hsame 0).2, h₀.size 0 (by decide)] at hv
  exact absurd hv (by decide)

end JosVmm
