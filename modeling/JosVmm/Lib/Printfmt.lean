import JosVmm.Machine.Words
import Mathlib.Data.Nat.Digits.Defs

/-!
# Library — numerals

`printnum` of `lib/printfmt.c`.  Characters go out through a function `putch` with a state of its
own; what is proved here is which characters that are, whatever `putch` does with them.

`printnum` prints the numeral of a number in any base up to 16 (`printnum_numeral_iff`).  The width is
an `int` that goes down by one for each digit, and wraps around if it is next to `INT_MIN`.
-/

namespace JosVmm.Printfmt

open BitVec List

variable {σ : Type} (putch : σ → BitVec 32 → σ)

/-- A character as an `int`. -/
def code (c : Char) : BitVec 32 := BitVec.ofNat 32 c.toNat

/-! ### Numbers -/

/-- `for (; width > 0; width--) putch(padc, putdat)`. -/
def putpad (padc width : BitVec 32) (s : σ) : σ :=
  if 0 < width.toInt then putpad padc (width - 1#32) (putch s padc) else s
termination_by width.toInt.toNat
decreasing_by
  rename_i h
  rw [toInt_eq_toNat_cond] at h ⊢
  rw [toInt_eq_toNat_cond]
  split at h <;> split <;> bv_omega

/-- The bases that `printnum` is made for. -/
abbrev Base := { b : Nat // 2 ≤ b ∧ b ≤ 16 }

def Base.ten : Base := ⟨10, by decide⟩
def Base.sixteen : Base := ⟨16, by decide⟩

/-- `printnum`. -/
def printnum (base : Base) (padc : BitVec 32) (num : Nat) (width : BitVec 32) (s : σ) : σ :=
  let s :=
    if base.val ≤ num then printnum base padc (num / base) (width - 1#32) s
    -- `while (--width > 0)`
    else putpad putch padc (width - 1#32) s
  putch s (code ("0123456789abcdef".toList.getD (num % base) ' '))
termination_by num
decreasing_by exact Nat.div_lt_self (by omega) (by omega)

theorem putpad_eq (padc width : BitVec 32) (s : σ) : putpad putch padc width s =
    (List.replicate width.toInt.toNat padc).foldl putch s := by
  generalize hn : width.toInt.toNat = n
  induction n generalizing width s with
  | zero =>
    rw [putpad, if_neg (by omega)]
    rfl
  | succ n ih =>
    rw [putpad, if_pos (by omega), List.replicate_succ, foldl_cons]
    refine ih (width - 1#32) _ ?_
    rw [toInt_eq_toNat_cond] at hn ⊢
    split at hn <;> split <;> bv_omega

theorem digit_eq {d : Nat} (h : d < 16) :
    "0123456789abcdef".toList.getD d ' ' = Nat.digitChar d := by
  revert d
  decide

/-- The numeral with its padding, whose length wraps around. -/
theorem printnum_eq (base : Base) (padc : BitVec 32) (num : Nat) (width : BitVec 32) (s : σ) :
    printnum putch base padc num width s =
      (List.replicate (width - BitVec.ofNat 32 (Nat.toDigits base num).length).toInt.toNat padc ++
        (Nat.toDigits base num).map code).foldl putch s := by
  obtain ⟨h2, h16⟩ := base.2
  induction num using Nat.strongRecOn generalizing width with
  | ind num ih =>
    have hdigit : "0123456789abcdef".toList.getD (num % base) ' ' = Nat.digitChar (num % base) :=
      digit_eq ((Nat.mod_lt _ (by omega)).trans_le h16)
    rw [printnum, hdigit]
    by_cases hle : base.val ≤ num
    · have hwidth : ∀ d : Nat, width - 1#32 - BitVec.ofNat 32 d = width - BitVec.ofNat 32 (d + 1) :=
        fun d => by rw [ofNat_add, BitVec.sub_sub, BitVec.add_comm]
      rw [if_pos hle, ih _ (Nat.div_lt_self (by omega) (by omega)), hwidth,
        Nat.toDigits_of_base_le h2 hle, length_append, length_singleton, map_append,
        map_singleton, ← List.append_assoc, foldl_append (l := _ ++ _)]
      rfl
    · rw [if_neg hle, putpad_eq, Nat.toDigits_of_lt_base (by omega),
        Nat.mod_eq_of_lt (by omega : num < base), foldl_append]
      rfl

/-- **`printnum` prints the right numeral**, padded to the width, exactly if the width may go down by
one for each digit without wrapping around. -/
theorem printnum_numeral_iff (base : Base) (padc : BitVec 32) (num : Word) (width : BitVec 32) :
    (∀ (σ : Type) (putch : σ → BitVec 32 → σ) (s : σ),
      printnum putch base padc num.toNat width s =
        (List.replicate (width.toInt - (Nat.toDigits base num.toNat).length).toNat padc ++
          (Nat.toDigits base num.toNat).map code).foldl putch s) ↔
      -2 ^ 31 ≤ width.toInt - (Nat.toDigits base num.toNat).length := by
  have hlen : (Nat.toDigits base num.toNat).length ≤ 64 :=
    (Nat.length_toDigits_le_iff base.2.1 (by decide)).mpr
      (num.isLt.trans_le (Nat.pow_le_pow_left base.2.1 64))
  have hsub : (width - BitVec.ofNat 32 (Nat.toDigits base num.toNat).length).toInt =
      if -2 ^ 31 ≤ width.toInt - (Nat.toDigits base num.toNat).length then
        width.toInt - (Nat.toDigits base num.toNat).length
      else width.toInt - (Nat.toDigits base num.toNat).length + 2 ^ 32 := by
    rw [toInt_eq_toNat_cond, toInt_eq_toNat_cond, toNat_sub, toNat_ofNat]
    split_ifs <;> omega
  refine ⟨fun h => ?_, fun h σ putch s => ?_⟩
  · -- the characters are counted
    have hcount := h Nat (fun n _ => n + 1) 0
    rw [printnum_eq, foldl_add_const, foldl_add_const] at hcount
    by_contra hlt
    simp only [length_append, length_replicate] at hcount
    have := le_toInt width
    omega
  · rw [printnum_eq, hsub, if_pos h]

/-- At the smallest width the padding of a single digit takes `2 ^ 31 - 1` characters. -/
theorem printnum_wraps :
    printnum (fun n _ => n + 1) Base.ten (code ' ') 0 0x80000000#32 0 = 2 ^ 31 := by
  rw [printnum_eq, foldl_add_const, length_append, length_replicate]
  decide

end JosVmm.Printfmt
