import JosVmm.Machine.Kernel
import JosVmm.Support.Asm

/-!
# Vmx — the world switch

The instructions of `asm_vmrun` around the entry of a guest.  `enterCode` pushes what the C code
needs again, loads the guest's registers from the trapframe and ends at `VMLAUNCH` or `VMRESUME`;
`leaveCode` starts at `.Lvmx_return`, with the registers of the guest and the stack pointer of the
VMCS, and saves the registers to the trapframe.

`rax` is the register in which `tf_err` goes to `cr2`, and it is not loaded after that; and no code
writes the stack pointer of the VMCS.  So the registers are transferred exactly if `reg_rax` is
`tf_err`, the VMCS happens to hold the stack pointer, and the guest leaves with `rax = cr2`
(`switch_transfers`).
-/

namespace JosVmm
open Support.Asm Function
open Function (update_self update_of_ne update_apply)

/-! ### Trapframes -/

/-- The registers that a trapframe holds. -/
inductive Reg where
  | rax | rbx | rcx | rdx | rsi | rdi | rbp | r8 | r9 | r10 | r11 | r12 | r13 | r14 | r15 | cr2
  deriving DecidableEq

def Reg.all : List Reg :=
  [rax, rbx, rcx, rdx, rsi, rdi, rbp, r8, r9, r10, r11, r12, r13, r14, r15, cr2]

theorem Reg.mem_all (r : Reg) : r ∈ all := by
  cases r <;> decide

/-- The value of a register in a trapframe; `tf_err` holds `cr2`. -/
def Trapframe.reg (tf : Trapframe) : Reg → Word
  | .rax => tf.tfRegs.regRax
  | .rbx => tf.tfRegs.regRbx
  | .rcx => tf.tfRegs.regRcx
  | .rdx => tf.tfRegs.regRdx
  | .rsi => tf.tfRegs.regRsi
  | .rdi => tf.tfRegs.regRdi
  | .rbp => tf.tfRegs.regRbp
  | .r8 => tf.tfRegs.regR8
  | .r9 => tf.tfRegs.regR9
  | .r10 => tf.tfRegs.regR10
  | .r11 => tf.tfRegs.regR11
  | .r12 => tf.tfRegs.regR12
  | .r13 => tf.tfRegs.regR13
  | .r14 => tf.tfRegs.regR14
  | .r15 => tf.tfRegs.regR15
  | .cr2 => tf.tfErr

/-- Where it is, from the start of the trapframe. -/
def offset : Reg → Word
  | .r15 => 0
  | .r14 => 8
  | .r13 => 16
  | .r12 => 24
  | .r11 => 32
  | .r10 => 40
  | .r9 => 48
  | .r8 => 56
  | .rsi => 64
  | .rdi => 72
  | .rbp => 80
  | .rdx => 88
  | .rcx => 96
  | .rbx => 104
  | .rax => 112
  | .cr2 => 144

/-- `offsetof(struct Trapframe, tf_es)` -/
def offsetEs : Word := 120

/-- `offsetof(struct Trapframe, tf_ds)` -/
def offsetDs : Word := 128

/-- The trapframe at `a` holds the registers `v`. -/
def Stored (m : Word → Word) (a : Word) (v : Reg → Word) : Prop := ∀ r, m (a + offset r) = v r

/-- The trapframe at `a` does not meet the four words below the stack pointer. -/
structure Apart (a sp : Word) : Prop where
  fits : a.toNat + 192 ≤ 2 ^ 64
  room : 32 ≤ sp.toNat
  apart : a.toNat + 192 + 32 ≤ sp.toNat ∨ sp.toNat ≤ a.toNat

/-! ### The code -/

/-- The registers that are loaded one after the other; `rcx` comes last. -/
def loaded : List Reg :=
  [.rbx, .rdx, .rsi, .rdi, .rbp, .r8, .r9, .r10, .r11, .r12, .r13, .r14, .r15]

/-- Those that are saved one after the other, after `rax`, `rbx` and `rcx`. -/
def saved : List Reg :=
  [.rdx, .rsi, .rdi, .rbp, .r8, .r9, .r10, .r11, .r12, .r13, .r14, .r15]

/-- What the C code needs again is pushed, and a place for the guest's `rcx`. -/
def pushCode : List (Instr Reg) := [.push .rdx, .push .rbp, .push .rcx, .push .rcx]

/-- `cr2` is reloaded if it changed, and the flags for the entry are set. -/
def reloadCode : List (Instr Reg) :=
  [.load .rcx (offset .cr2) .rax, .mov .cr2 .rdx, .cmp .rax .rdx, .movUnlessEq .rax .cr2,
    .cmpl 1 .rcx offsetDs]

/-- The guest's registers are loaded. -/
def loadCode : List (Instr Reg) :=
  loads .rcx offset loaded ++ [.load .rcx (offset .rcx) .rcx]

/-- `asm_vmrun` up to `VMLAUNCH` or `VMRESUME`. -/
def enterCode : List (Instr Reg) := pushCode ++ (reloadCode ++ loadCode)

/-- The guest's `rcx` goes to its place, and `rcx` is the trapframe again. -/
def popCode : List (Instr Reg) := [.storeSp .rcx 8, .pop .rcx]

/-- The guest's registers are saved. -/
def saveCode : List (Instr Reg) :=
  stores .rcx offset [.rax, .rbx] ++ ([.popTo .rcx (offset .rcx)] ++
    (stores .rcx offset saved ++ [.mov .cr2 .rax, .store .rax .rcx (offset .cr2)]))

/-- The registers of the C code are restored, and `tf_es` says whether the entry failed. -/
def restoreCode : List (Instr Reg) := [.pop .rbp, .pop .rdx, .setbe .rcx offsetEs]

/-- `asm_vmrun` from `.Lvmx_return` on. -/
def leaveCode : List (Instr Reg) := popCode ++ (saveCode ++ restoreCode)

/-- The state in which the guest is entered; it is launched if `zf` is set. -/
def enter (s : State Reg) : State Reg := run enterCode s

/-- A VM exit of a guest with the registers `g`: the stack pointer is that of the VMCS, and the
flags are clear. -/
def exitTo (hostRsp : Word) (g : Reg → Word) (s : State Reg) : State Reg :=
  { s with regs := g, sp := hostRsp, zf := false, cf := false }

/-- The state at the end of the code, for a guest that exits with the registers `g`. -/
def worldSwitch (hostRsp : Word) (g : Reg → Word) (s : State Reg) : State Reg :=
  run leaveCode (exitTo hostRsp g (enter s))

/-- The operands of the code: `"c"(tf), "d"((unsigned long)VMCS_HOST_RSP)`. -/
structure AtCall (m : Word → Word) (a sp : Word) (s : State Reg) : Prop where
  mem : s.mem = m
  sp : s.sp = sp
  rcx : s.regs .rcx = a
  rdx : s.regs .rdx = 0x6C14

/-- **The registers are transferred** between the trapframe `tf` at `a` and the guest, which exits
with the registers `g`. -/
structure Transfers (tf : Trapframe) (a hostRsp : Word) (g : Reg → Word) (s : State Reg) :
    Prop where
  /-- The guest is entered with the registers of the trapframe. -/
  entry : ∀ r, (enter s).regs r = tf.reg r
  /-- The trapframe holds the registers of the guest afterwards. -/
  exit : ∀ r, (worldSwitch hostRsp g s).mem (a + offset r) = g r
  /-- What is popped is what was pushed. -/
  popped : ∀ r ∈ [Reg.rcx, .rbp, .rdx], (worldSwitch hostRsp g s).regs r = s.regs r
  /-- If the trapframe is left as it is, the guest is entered again with its registers. -/
  reentry : ∀ s' : State Reg, s'.regs .rcx = a → Apart a s'.sp →
    (∀ r, s'.mem (a + offset r) = (worldSwitch hostRsp g s).mem (a + offset r)) →
    ∀ r, (enter s').regs r = g r

/-! ### Addresses -/

variable {tf : Trapframe} {m : Word → Word} {a sp hostRsp : Word} {g v : Reg → Word}
  {s t : State Reg} {r : Reg}

theorem offset_injective : Function.Injective offset := fun r r' h => by
  have hall : ∀ r ∈ Reg.all, ∀ r' ∈ Reg.all, offset r = offset r' → r = r' := by decide
  exact hall r r.mem_all r' r'.mem_all h

theorem offset_le (r : Reg) : (offset r).toNat + 8 ≤ 192 := by
  cases r <;> decide

theorem Apart.ne (h : Apart a sp) {d off : Word} (hd : d.toNat ≤ 32) (hpos : 8 ≤ d.toNat)
    (hoff : off.toNat + 8 ≤ 192) : a + off ≠ sp - d := by
  intro heq
  have h1 := congrArg BitVec.toNat heq
  have := h.fits
  have := h.room
  have := h.apart
  rw [BitVec.toNat_add, BitVec.toNat_sub] at h1
  omega

/-! ### Entry -/

/-- The four words that the code pushes. -/
def pushed (s : State Reg) : Word → Word :=
  update (update (update (update s.mem
    (s.sp - 8) (s.regs .rdx)) (s.sp - 16) (s.regs .rbp)) (s.sp - 24) (s.regs .rcx))
    (s.sp - 32) (s.regs .rcx)

theorem sub_sub_eight (x d : Word) : x - d - 8 = x - (d + 8) := by bv_omega

theorem run_pushCode : run pushCode s = { s with sp := s.sp - 32, mem := pushed s } := by
  simp only [pushCode, run, List.foldl, Instr.exec, sub_sub_eight]
  rfl

theorem pushed_apart (h : Apart a s.sp) {off : Word} (hoff : off.toNat + 8 ≤ 192) :
    pushed s (a + off) = s.mem (a + off) := by
  rw [pushed, update_of_ne (h.ne (d := 32) (by decide) (by decide) hoff),
    update_of_ne (h.ne (d := 24) (by decide) (by decide) hoff),
    update_of_ne (h.ne (d := 16) (by decide) (by decide) hoff),
    update_of_ne (h.ne (d := 8) (by decide) (by decide) hoff)]

theorem Stored.pushed (hst : Stored s.mem a v) (h : Apart a s.sp) : Stored (pushed s) a v :=
  fun r => (pushed_apart h (offset_le r)).trans (hst r)

/-- `cr2` is reloaded by way of `rax`, which keeps it. -/
theorem run_reloadCode (hst : Stored t.mem a v) (hrcx : t.regs .rcx = a) :
    ((run reloadCode t).regs .rcx = a ∧ (run reloadCode t).regs .rax = v .cr2 ∧
      (run reloadCode t).regs .cr2 = v .cr2) ∧
    (run reloadCode t).mem = t.mem ∧ (run reloadCode t).sp = t.sp ∧
      (run reloadCode t).zf = ((t.mem (a + offsetDs)).setWidth 32 == 1#32) := by
  have herr : t.mem (a + offset .cr2) = v .cr2 := hst .cr2
  simp only [reloadCode, run, List.foldl, Instr.exec, hrcx, herr]
  by_cases hz : t.regs .cr2 = v .cr2 <;> simp [update, hz, hrcx]

/-- All registers but `rax` and `cr2` are loaded. -/
theorem run_loadCode (hst : Stored t.mem a v) (hrcx : t.regs .rcx = a) :
    run loadCode t =
      { t with regs := fun r => if r = .rax ∨ r = .cr2 then t.regs r else v r } := by
  have hmem : ∀ r, r ≠ .rcx → (r ∈ loaded ↔ ¬ (r = .rax ∨ r = .cr2)) := by
    intro r
    cases r <;> decide
  have hbase : Reg.rcx ∉ loaded := by decide
  rw [loadCode, run_append, run_loads loaded _ hbase]
  simp only [run, List.foldl, Instr.exec, if_neg hbase, hrcx, hst _]
  congr 1
  funext r
  by_cases hr : r = .rcx
  · rw [hr, update_self]
    rfl
  · rw [update_of_ne hr]
    by_cases hr' : r = .rax ∨ r = .cr2
    · rw [if_neg fun h => (hmem r hr).mp h hr', if_pos hr']
    · rw [if_pos ((hmem r hr).mpr hr'), if_neg hr']

/-- **The state at the entry**: `rax` holds the value of `cr2`. -/
theorem enter_eq (hst : Stored s.mem a v) (hrcx : s.regs .rcx = a) (h : Apart a s.sp) :
    (∀ r, (enter s).regs r = if r = .rax then v .cr2 else v r) ∧
      (enter s).mem = pushed s ∧ (enter s).sp = s.sp - 32 ∧
      (enter s).zf = ((s.mem (a + offsetDs)).setWidth 32 == 1#32) := by
  have hst' : Stored (pushed s) a v := hst.pushed h
  obtain ⟨⟨hb, hrax, hcr2⟩, hmem, hsp, hzf⟩ :=
    run_reloadCode (t := { s with sp := s.sp - 32, mem := pushed s }) hst' hrcx
  rw [enter, enterCode, run_append, run_append, run_pushCode]
  generalize run reloadCode { s with sp := s.sp - 32, mem := pushed s } = t at *
  have hst'' : Stored t.mem a v := fun r => (congrFun hmem _).trans (hst' r)
  rw [run_loadCode hst'' hb]
  refine ⟨fun r => ?_, hmem, hsp, ?_⟩
  · change (if r = .rax ∨ r = .cr2 then t.regs r else v r) = _
    by_cases hr : r = .rax
    · rw [if_pos (.inl hr), if_pos hr, hr, hrax]
    · by_cases hr' : r = .cr2
      · rw [if_pos (.inr hr'), if_neg hr, hr', hcr2]
      · rw [if_neg (not_or.mpr ⟨hr, hr'⟩), if_neg hr]
  · have hds : pushed s (a + offsetDs) = s.mem (a + offsetDs) := pushed_apart h (by decide)
    rw [← hds]
    exact hzf

/-! ### Exit -/

theorem add_eight_ne (x : Word) : x + 8 ≠ x := by
  intro h
  bv_omega

/-- The state after `popCode`. -/
def popped (t : State Reg) : State Reg := { t with
  regs := update t.regs .rcx (t.mem t.sp)
  sp := t.sp + 8
  mem := update t.mem (t.sp + 8) (t.regs .rcx) }

theorem run_popCode (t : State Reg) : run popCode t = popped t := by
  simp only [popCode, run, List.foldl, Instr.exec, update_of_ne (add_eight_ne t.sp).symm, popped]

theorem run_restoreCode (t : State Reg) : ∃ w, run restoreCode t = { t with
    regs := update (update t.regs .rbp (t.mem t.sp)) .rdx (t.mem (t.sp + 8))
    sp := t.sp + 8 + 8
    mem := update t.mem (t.regs .rcx + offsetEs) w } := ⟨_, rfl⟩

/-- The memory after `saveCode`. -/
def savedMem (t : State Reg) : Word → Word :=
  let m₁ := storeAll (t.regs .rcx) offset t.regs [.rax, .rbx] t.mem
  let m₂ := update m₁ (t.regs .rcx + offset .rcx) (m₁ t.sp)
  update (storeAll (t.regs .rcx) offset t.regs saved m₂) (t.regs .rcx + offset .cr2)
    (t.regs .cr2)

theorem run_saveCode (t : State Reg) : run saveCode t = { t with
    regs := update t.regs .rax (t.regs .cr2)
    sp := t.sp + 8
    mem := savedMem t } := by
  rw [saveCode, run_append, run_append, run_append, run_stores, run_stores]
  rfl

/-- Words outside the trapframe are kept. -/
theorem savedMem_ne {x : Word} (hx : ∀ r, x ≠ t.regs .rcx + offset r) : savedMem t x = t.mem x := by
  rw [savedMem, update_of_ne (hx _), storeAll_ne _ fun r _ => hx r,
    update_of_ne (hx _), storeAll_ne _ fun r _ => hx r]

/-- **The trapframe holds the registers**, and in the place of `rcx` the word that was popped. -/
theorem savedMem_table (hsp : ∀ r, t.sp ≠ t.regs .rcx + offset r) (r : Reg) :
    savedMem t (t.regs .rcx + offset r) = if r = .rcx then t.mem t.sp else t.regs r := by
  have hne : ∀ {r r' : Reg}, r ≠ r' → t.regs .rcx + offset r ≠ t.regs .rcx + offset r' :=
    fun h h' => h (offset_injective (add_left_cancel h'))
  have hrest : r ≠ .cr2 → r ∉ saved → r ≠ .rcx → r ∈ [Reg.rax, .rbx] := by
    cases r <;> decide
  rw [savedMem]
  by_cases hcr2 : r = .cr2
  · rw [hcr2, update_self, if_neg (by decide)]
  rw [update_of_ne (hne hcr2)]
  by_cases hs : r ∈ saved
  · rw [storeAll_mem offset_injective _ hs, if_neg]
    rintro rfl
    exact absurd hs (by decide)
  have hne' : ∀ r' ∈ saved, t.regs .rcx + offset r ≠ t.regs .rcx + offset r' := fun r' hr' =>
    hne fun h => hs (h ▸ hr')
  rw [storeAll_ne _ hne']
  by_cases hrcx : r = .rcx
  · rw [hrcx, update_self, if_pos rfl, storeAll_ne _ fun r _ => hsp r]
  · rw [update_of_ne (hne hrcx), if_neg hrcx, storeAll_mem offset_injective _ (hrest hcr2 hs hrcx)]

/-- A word afterwards is the one before, the one that was popped, or a register. -/
theorem savedMem_cases (t : State Reg) (x : Word) :
    savedMem t x = t.mem x ∨ savedMem t x = t.mem t.sp ∨
      ∃ r, r ≠ .rcx ∧ savedMem t x = t.regs r := by
  have hrcx : ∀ {r : Reg} {rs : List Reg}, .rcx ∉ rs → r ∈ rs → r ≠ .rcx := fun h hr h' =>
    h (h' ▸ hr)
  rw [savedMem]
  generalize hm : storeAll (t.regs .rcx) offset t.regs [.rax, .rbx] t.mem = m₁
  have hfirst : ∀ x, m₁ x = t.mem x ∨ ∃ r, r ≠ .rcx ∧ m₁ x = t.regs r := fun x => by
    rw [← hm]
    obtain h | ⟨r, hr, h⟩ := storeAll_cases (t.regs .rcx) offset t.regs [.rax, .rbx] t.mem x
    · exact .inl h
    · exact .inr ⟨r, hrcx (by decide) hr, h⟩
  by_cases hcr2 : x = t.regs .rcx + offset .cr2
  · rw [hcr2, update_self]
    exact .inr (.inr ⟨.cr2, by decide, rfl⟩)
  rw [update_of_ne hcr2]
  obtain h | ⟨r, hr, h⟩ := storeAll_cases (t.regs .rcx) offset t.regs saved
    (update m₁ (t.regs .rcx + offset .rcx) (m₁ t.sp)) x
  · rw [h]
    by_cases hx : x = t.regs .rcx + offset .rcx
    · rw [hx, update_self]
      exact .inr (hfirst t.sp)
    · rw [update_of_ne hx]
      exact (hfirst x).imp_right .inr
  · rw [h]
    exact .inr (.inr ⟨r, hrcx (by decide) hr, rfl⟩)

/-- **The state at the end**, in terms of the state at the exit. -/
theorem run_leaveCode (t : State Reg) :
    (run leaveCode t).regs .rcx = t.mem t.sp ∧
    (run leaveCode t).regs .rbp = savedMem (popped t) (t.sp + 8 + 8) ∧
    (run leaveCode t).regs .rdx = savedMem (popped t) (t.sp + 8 + 8 + 8) ∧
    ∀ r, (run leaveCode t).mem (t.mem t.sp + offset r) =
      savedMem (popped t) (t.mem t.sp + offset r) := by
  rw [leaveCode, run_append, run_append, run_popCode, run_saveCode]
  obtain ⟨w, hw⟩ := run_restoreCode { popped t with
    regs := update (popped t).regs .rax ((popped t).regs .cr2)
    sp := (popped t).sp + 8
    mem := savedMem (popped t) }
  rw [hw]
  refine ⟨rfl, rfl, rfl, fun r => update_of_ne (fun h => ?_) ..⟩
  have hoff : offset r ≠ offsetEs := by cases r <;> decide
  exact hoff (add_left_cancel h)

/-! ### The switch -/

theorem exitTo_mem : (exitTo hostRsp g s).mem = s.mem := rfl

theorem pushed_rcx : pushed s (s.sp - 32) = s.regs .rcx := update_self ..

theorem sub_add_eight (x d : Word) : x - (d + 8) + 8 = x - d := by bv_omega

theorem eq_sub_of_add {x y : Word} (h : y + 8 + 8 = x - 16) : y = x - 32 := by bv_omega

theorem sub_ne {x d d' : Word} (h : d ≠ d') : x - d ≠ x - d' := fun h' => h (sub_right_inj.mp h')

theorem pushed_rbp : pushed s (s.sp - 16) = s.regs .rbp := by
  rw [pushed, update_of_ne (sub_ne (by decide)), update_of_ne (sub_ne (by decide)), update_self]

theorem pushed_rdx : pushed s (s.sp - 8) = s.regs .rdx := by
  rw [pushed, update_of_ne (sub_ne (by decide)), update_of_ne (sub_ne (by decide)),
    update_of_ne (sub_ne (by decide)), update_self]

section

variable (hrcx : s.regs .rcx = a) (hst : Stored s.mem a v) (h : Apart a s.sp)
include hrcx hst h

/-- **What is saved and what is popped**, if the VMCS holds the stack pointer. -/
theorem worldSwitch_saves :
    Stored (worldSwitch (s.sp - 32) g s).mem a g ∧
      ∀ r ∈ [Reg.rcx, .rbp, .rdx], (worldSwitch (s.sp - 32) g s).regs r = s.regs r := by
  obtain ⟨-, hmem, -, -⟩ := enter_eq hst hrcx h
  generalize ht : exitTo (s.sp - 32) g (enter s) = t
  have htm : t.mem = pushed s := by rw [← ht, exitTo_mem, hmem]
  have htsp : t.sp = s.sp - 32 := congrArg State.sp ht.symm
  have htg : t.regs = g := congrArg State.regs ht.symm
  have h24 : t.sp + 8 = s.sp - 24 := htsp ▸ sub_add_eight s.sp 24
  have h16 : t.sp + 8 + 8 = s.sp - 16 := h24 ▸ sub_add_eight s.sp 16
  have h8 : t.sp + 8 + 8 + 8 = s.sp - 8 := h16 ▸ sub_add_eight s.sp 8
  have hbase : t.mem t.sp = a := by rw [htm, htsp, pushed_rcx, hrcx]
  have hne : ∀ {d : Word} r, d.toNat ≤ 32 → 8 ≤ d.toNat → s.sp - d ≠ a + offset r :=
    fun r hd hd' h' => h.ne hd hd' (offset_le r) h'.symm
  have hrcx' : (popped t).regs .rcx = a := hbase
  obtain ⟨h1, h2, h3, h4⟩ := run_leaveCode t
  rw [worldSwitch, ht]
  rw [hbase] at h4
  refine ⟨fun r => ?_, ?_⟩
  · rw [h4]
    have hsp : ∀ r, (popped t).sp ≠ (popped t).regs .rcx + offset r := fun r => by
      rw [hrcx', show (popped t).sp = s.sp - 24 from h24]
      exact hne r (by decide) (by decide)
    have htable := savedMem_table hsp r
    rw [hrcx'] at htable
    rw [htable]
    by_cases hr : r = .rcx
    · rw [if_pos hr, hr, ← htg]
      exact update_self ..
    · rw [if_neg hr, ← htg]
      exact update_of_ne hr ..
  · have hkept : ∀ {d : Word}, d.toNat < 24 → 8 ≤ d.toNat →
        savedMem (popped t) (s.sp - d) = pushed s (s.sp - d) := fun {d} hd hd' => by
      rw [savedMem_ne fun r => by rw [hrcx']; exact hne r (by omega) hd', ← htm]
      refine update_of_ne ?_ ..
      rw [h24]
      refine sub_ne fun h' => ?_
      rw [h'] at hd
      exact absurd hd (by decide)
    intro r hr
    obtain rfl | rfl | rfl : r = .rcx ∨ r = .rbp ∨ r = .rdx := by simpa using hr
    · rw [h1, hbase, hrcx]
    · rw [h2, h16, hkept (by decide) (by decide), pushed_rbp]
    · rw [h3, h8, hkept (by decide) (by decide), pushed_rdx]

/-- The word popped to `rbp` was pushed there, or it is none of the C code's. -/
theorem worldSwitch_rbp (hsp : hostRsp ≠ s.sp - 32) : (worldSwitch hostRsp g s).regs .rbp ∈
      [s.regs .rdx, a, s.mem (hostRsp + 8 + 8)] ++ Reg.all.map g := by
  obtain ⟨-, hmem, -, -⟩ := enter_eq hst hrcx h
  have hg : ∀ r, g r ∈ Reg.all.map g := fun r => List.mem_map_of_mem r.mem_all
  generalize ht : exitTo hostRsp g (enter s) = t
  have htm : t.mem = pushed s := by rw [← ht, exitTo_mem, hmem]
  have htsp : t.sp = hostRsp := congrArg State.sp ht.symm
  have htg : t.regs = g := congrArg State.regs ht.symm
  rw [worldSwitch, ht, (run_leaveCode t).2.1, htsp, List.mem_append]
  have hpop : (popped t).mem (popped t).sp = g .rcx := by
    rw [← htg]
    exact update_self ..
  obtain h' | h' | ⟨r, hr, h'⟩ := savedMem_cases (popped t) (hostRsp + 8 + 8)
  · refine .inl ?_
    have hself : (popped t).mem (hostRsp + 8 + 8) = pushed s (hostRsp + 8 + 8) := by
      rw [← htm]
      exact update_of_ne (htsp ▸ add_eight_ne _) ..
    have h16 : hostRsp + 8 + 8 ≠ s.sp - 16 := fun h => hsp (eq_sub_of_add h)
    rw [h', hself, pushed]
    simp only [update_apply, hrcx, h16, if_false]
    split
    · simp
    · split
      · simp
      · split <;> simp
  · rw [h', hpop]
    exact .inr (hg _)
  · rw [h', show (popped t).regs r = g r from htg ▸ update_of_ne hr ..]
    exact .inr (hg r)

end

/-- **The world switch transfers the registers exactly if** the trapframe has `tf_err` in `reg_rax`,
the stack pointer of the VMCS is the one at the entry, and the guest exits with `cr2` in `rax`. -/
theorem switch_transfers (hst : Stored m a tf.reg) (h : Apart a sp) :
    (∀ s, AtCall m a sp s → Transfers tf a hostRsp g s) ↔
      tf.tfRegs.regRax = tf.tfErr ∧ hostRsp = sp - 32 ∧ g .rax = g .cr2 := by
  constructor
  · intro hall
    -- the frame pointer of the C code is none of the words that could be popped instead
    obtain ⟨w, hw⟩ := exists_notMem ([0x6C14, a, m (hostRsp + 8 + 8)] ++ Reg.all.map g)
      (by simp [Reg.all])
    let s : State Reg := ⟨fun | .rcx => a | .rdx => 0x6C14 | .rbp => w | _ => 0, sp, m, false, false⟩
    have hs : Transfers tf a hostRsp g s := hall s ⟨rfl, rfl, rfl, rfl⟩
    have hentry := (enter_eq (s := s) hst rfl h).1
    refine ⟨?_, ?_, ?_⟩
    · have h₁ := hs.entry .rax
      rw [hentry, if_pos rfl] at h₁
      exact h₁.symm
    · by_contra hsp
      have hpop : (worldSwitch hostRsp g s).regs .rbp = w := hs.popped .rbp (by decide)
      exact hw (hpop ▸ worldSwitch_rbp (s := s) rfl hst h hsp)
    · let s' : State Reg := { s with mem := (worldSwitch hostRsp g s).mem }
      have h₁ := hs.reentry s' rfl h (fun _ => rfl) .rax
      rw [(enter_eq (s := s') hs.exit rfl h).1, if_pos rfl] at h₁
      exact h₁.symm
  · rintro ⟨hrax, rfl, hg⟩ s hs
    obtain ⟨rfl, rfl, hrcx, -⟩ := hs
    obtain ⟨hexit, hpop⟩ := worldSwitch_saves (g := g) hrcx hst h
    refine ⟨fun r => ?_, hexit, hpop, fun s' hrcx' h' hsame r => ?_⟩
    · rw [(enter_eq hst hrcx h).1]
      split
      · rename_i hr
        rw [hr]
        exact hrax.symm
      · rfl
    · have hst' : Stored s'.mem a g := fun r => (hsame r).trans (hexit r)
      rw [(enter_eq hst' hrcx' h').1]
      split
      · rename_i hr
        rw [hr, hg]
      · rfl

/-- The memory with the word `w` for `reg_rax` in the trapframe at `0x1000`, and zeros. -/
def raxMem (w : Word) : Word → Word := update (fun _ => 0) (0x1000 + offset .rax) w

theorem raxMem_stored (w : Word) : Stored (raxMem w) 0x1000 { tfRegs.regRax := w : Trapframe }.reg := by
  intro r
  by_cases hr : r = .rax
  · rw [hr]
    exact update_self ..
  · rw [raxMem, update_of_ne fun h => hr (offset_injective (add_left_cancel h))]
    cases r <;> first | rfl | exact absurd rfl hr

theorem apart_low : Apart 0x1000 0x2000 := by
  refine ⟨?_, ?_, .inl ?_⟩ <;> decide

/-- A trapframe of zeros, and a guest whose registers are all zero. -/
theorem switch_transfers_zero : Apart 0x1000 0x2000 ∧
    ∀ s, AtCall (raxMem 0) 0x1000 0x2000 s → Transfers {} 0x1000 0x1fe0 (fun _ => 0) s :=
  ⟨apart_low, (switch_transfers (raxMem_stored 0) apart_low).mpr ⟨rfl, by decide, rfl⟩⟩

/-- **The guest is entered with another `rax`**: the trapframe holds 1, and the guest gets the 0 of
`tf_err`, although the VMCS holds the stack pointer. -/
theorem rax_not_loaded : ∃ s, AtCall (raxMem 1) 0x1000 0x2000 s ∧
    (enter s).regs .rax = 0 ∧ ∀ g, ¬ Transfers { tfRegs.regRax := 1 } 0x1000 0x1fe0 g s := by
  let s : State Reg :=
    ⟨fun | .rcx => 0x1000 | .rdx => 0x6C14 | _ => 0, 0x2000, raxMem 1, false, false⟩
  have hrax := (enter_eq (s := s) (raxMem_stored 1) rfl apart_low).1 .rax
  rw [if_pos rfl] at hrax
  refine ⟨s, ⟨rfl, rfl, rfl, rfl⟩, hrax, fun g hs => ?_⟩
  have h := hs.entry .rax
  rw [hrax] at h
  exact absurd h (by decide)

end JosVmm
