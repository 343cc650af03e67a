import Mathlib.Data.BitVec
import Mathlib.Data.List.Nodup
import Mathlib.Data.List.Perm.Subperm
import Mathlib.Logic.Function.Basic

/-!
# Support — Straight-line code

A processor with registers of a type `ρ`, a stack pointer, memory by words of 64 bits and two flags,
and the instructions that move words between them.  Addresses are those of aligned words.

A block that loads registers from a table (`loads`), or stores them to one (`stores`), has one
equation for all its registers (`run_loads`, `run_stores`); everything else is kept.
-/

namespace Support.Asm

open Function List

structure State (ρ : Type) where
  regs : ρ → BitVec 64
  sp : BitVec 64
  mem : BitVec 64 → BitVec 64
  zf : Bool
  cf : Bool

/-- Instructions, with the operands in the order of the assembler. -/
inductive Instr (ρ : Type) where
  | mov (src dst : ρ)
  | load (base : ρ) (off : BitVec 64) (dst : ρ)
  | store (src base : ρ) (off : BitVec 64)
  /-- `mov src, off(%rsp)` -/
  | storeSp (src : ρ) (off : BitVec 64)
  | push (src : ρ)
  | pop (dst : ρ)
  /-- `pop off(base)` -/
  | popTo (base : ρ) (off : BitVec 64)
  | cmp (src dst : ρ)
  /-- `cmpl $imm, off(base)` -/
  | cmpl (imm : BitVec 32) (base : ρ) (off : BitVec 64)
  /-- `je 1f; mov src, dst; 1:` -/
  | movUnlessEq (src dst : ρ)
  /-- `setbe off(base)`, which writes one byte -/
  | setbe (base : ρ) (off : BitVec 64)

variable {ρ : Type} [DecidableEq ρ]

/-- What an instruction does. -/
def Instr.exec (s : State ρ) : Instr ρ → State ρ
  | mov src dst => { s with regs := update s.regs dst (s.regs src) }
  | load base off dst => { s with regs := update s.regs dst (s.mem (s.regs base + off)) }
  | store src base off => { s with mem := update s.mem (s.regs base + off) (s.regs src) }
  | storeSp src off => { s with mem := update s.mem (s.sp + off) (s.regs src) }
  | push src => { s with sp := s.sp - 8, mem := update s.mem (s.sp - 8) (s.regs src) }
  | pop dst => { s with regs := update s.regs dst (s.mem s.sp), sp := s.sp + 8 }
  | popTo base off =>
    { s with sp := s.sp + 8, mem := update s.mem (s.regs base + off) (s.mem s.sp) }
  | cmp src dst => { s with zf := s.regs dst == s.regs src, cf := s.regs dst < s.regs src }
  | cmpl imm base off =>
    let w := (s.mem (s.regs base + off)).setWidth 32
    { s with zf := w == imm, cf := w < imm }
  | movUnlessEq src dst =>
    if s.zf then s else { s with regs := update s.regs dst (s.regs src) }
  | setbe base off =>
    let a := s.regs base + off
    let b := if s.cf || s.zf then 1#64 else 0#64
    { s with mem := update s.mem a ((s.mem a &&& ~~~0xFF#64) ||| b) }

/-- The instructions of `l`, one after the other. -/
def run (l : List (Instr ρ)) (s : State ρ) : State ρ := l.foldl Instr.exec s

theorem run_cons (i : Instr ρ) (l : List (Instr ρ)) (s : State ρ) :
    run (i :: l) s = run l (i.exec s) := rfl

theorem run_append (l₁ l₂ : List (Instr ρ)) (s : State ρ) :
    run (l₁ ++ l₂) s = run l₂ (run l₁ s) := foldl_append ..

/-! ### Blocks -/

/-- The registers `rs` are loaded from the table at `base`. -/
def loads (base : ρ) (off : ρ → BitVec 64) (rs : List ρ) : List (Instr ρ) :=
  rs.map fun r => .load base (off r) r

/-- The registers `rs` are stored to the table at `base`. -/
def stores (base : ρ) (off : ρ → BitVec 64) (rs : List ρ) : List (Instr ρ) :=
  rs.map fun r => .store r base (off r)

variable {base : ρ} {off : ρ → BitVec 64} {s : State ρ} {r : ρ} {a : BitVec 64}

/-- A block of loads loads its registers and nothing else. -/
theorem run_loads : ∀ (rs : List ρ) (s : State ρ), base ∉ rs → run (loads base off rs) s =
    { s with regs := fun r => if r ∈ rs then s.mem (s.regs base + off r) else s.regs r }
  | [], s, _ => by simp [run, loads]
  | r :: rs, s, hb => by
    have hbase : base ≠ r := fun h => hb (h ▸ mem_cons_self)
    rw [loads, map_cons, run_cons, ← loads, run_loads rs _ fun h => hb (mem_cons_of_mem _ h)]
    simp only [Instr.exec, update_of_ne hbase]
    congr 1
    funext r'
    by_cases hr : r' = r
    · subst hr
      simp
    · simp [hr]

/-- The memory `m` with the registers `rs` in the table at `b`. -/
def storeAll (b : BitVec 64) (off regs : ρ → BitVec 64) (rs : List ρ)
    (m : BitVec 64 → BitVec 64) : BitVec 64 → BitVec 64 :=
  rs.foldl (fun m r => update m (b + off r) (regs r)) m

/-- A block of stores changes memory only. -/
theorem run_stores (rs : List ρ) (s : State ρ) : run (stores base off rs) s =
    { s with mem := storeAll (s.regs base) off s.regs rs s.mem } := by
  induction rs generalizing s with
  | nil => rfl
  | cons r rs ih =>
    rw [stores, map_cons, run_cons, ← stores, ih]
    rfl

section Tables
variable {b : BitVec 64} {regs : ρ → BitVec 64}

omit [DecidableEq ρ] in
/-- Words outside the table are kept. -/
theorem storeAll_ne {rs : List ρ} (m : BitVec 64 → BitVec 64) (ha : ∀ r ∈ rs, a ≠ b + off r) :
    storeAll b off regs rs m a = m a := by
  induction rs generalizing m with
  | nil => rfl
  | cons r rs ih =>
    rw [storeAll, foldl_cons, ← storeAll, ih _ fun r' hr' => ha r' (.tail _ hr')]
    exact update_of_ne (ha r (.head _)) ..

/-- **The table holds the registers** that are stored. -/
theorem storeAll_mem {rs : List ρ} (hoff : Function.Injective off) (m : BitVec 64 → BitVec 64)
    (hr : r ∈ rs) : storeAll b off regs rs m (b + off r) = regs r := by
  induction rs generalizing m with
  | nil => cases hr
  | cons r' rs ih =>
    rw [storeAll, foldl_cons, ← storeAll]
    by_cases hmem : r ∈ rs
    · exact ih _ hmem
    · obtain rfl : r = r' := (List.mem_cons.mp hr).resolve_right hmem
      have hne : ∀ r' ∈ rs, b + off r ≠ b + off r' := fun r' hr' h =>
        hmem (hoff (add_left_cancel h) ▸ hr')
      rw [storeAll_ne _ hne]
      exact update_self ..

omit [DecidableEq ρ] in
/-- A word afterwards is the one before, or a register. -/
theorem storeAll_cases (b : BitVec 64) (off regs : ρ → BitVec 64) (rs : List ρ)
    (m : BitVec 64 → BitVec 64) (a : BitVec 64) :
    storeAll b off regs rs m a = m a ∨ ∃ r ∈ rs, storeAll b off regs rs m a = regs r := by
  induction rs generalizing m with
  | nil => exact .inl rfl
  | cons r rs ih =>
    rw [storeAll, foldl_cons, ← storeAll]
    obtain h | ⟨r', hr', h⟩ := ih (update m (b + off r) (regs r))
    · rw [h]
      by_cases ha : a = b + off r
      · refine .inr ⟨r, .head _, ?_⟩
        rw [ha, update_self]
      · exact .inl (update_of_ne ha ..)
    · exact .inr ⟨r', .tail _ hr', h⟩

end Tables

/-- There are more words than a short list names. -/
theorem exists_notMem (l : List (BitVec 64)) (h : l.length < 2 ^ 64) : ∃ w, w ∉ l := by
  by_contra hall
  have hmem : ∀ w, w ∈ l := fun w => by
    by_contra hw
    exact hall ⟨w, hw⟩
  have hnodup : ((List.range (l.length + 1)).map (BitVec.ofNat 64)).Nodup := by
    refine List.Nodup.map_on (fun i hi j hj hij => ?_) nodup_range
    have := congrArg BitVec.toNat hij
    rw [mem_range] at hi hj
    rwa [BitVec.toNat_ofNat, BitVec.toNat_ofNat, Nat.mod_eq_of_lt (by omega),
      Nat.mod_eq_of_lt (by omega)] at this
  have hle := (subperm_of_subset hnodup fun w _ => hmem w).length_le
  rw [length_map, length_range] at hle
  omega

end Support.Asm
