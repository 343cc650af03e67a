import JosVmm.Machine.Boot
import JosVmm.Machine.Envs
import JosVmm.Pmap.AllOrNothing

/-!
# Environments — checks of user memory

`user_mem_check` walks the table of an environment page by page.  Before that it refuses a range
whose end is not below `ULIM`, and reports its start.  A range that ends below `ULIM` is checked
exactly (`userMemLoop_spec`).  One that ends at `ULIM` or above is refused, and its start reported,
whether or not that is right; so the check is exact just for ranges that end below `ULIM` and for
those whose first byte fails (`userMemCheck_exact_iff`).
-/

namespace JosVmm
open Support Support.Radix Support.Prog BitVec

variable {s : Pmap} {r : Nat} {m va endva : Word}

/-! ### The check -/

/-- The loop of `user_mem_check`: every page up to `endva` has the bits `m` in its entry.  Each
round moves `va` up, so `endva - va` rounds are enough. -/
def userMemLoop (pml4e : Option Ptr) (endva m : Word) : Nat → Word → Pm (Except Word Unit)
  | 0, _ => return .ok ()
  | n + 1, va => do
    if va < endva then
      match ← pml4eWalk pml4e va false with
      | none => return .error va
      | some ptep =>
        if (← load ptep) &&& m ≠ m then
          return .error va
        else
          userMemLoop pml4e endva m n (roundUpPg (va + 1#64))
    else
      return .ok ()

/-- `perm | PTE_P`, as it is compared with an entry. -/
def wanted (perm : BitVec 32) : Word := (perm ||| 1#32).signExtend 64

/-- `user_mem_check`.  The error `-E_FAULT` comes with the address that is stored in
`user_mem_check_addr`. -/
def userMemCheck (env : Env) (va len : Word) (perm : BitVec 32) : Pm (Except Word Unit) := do
  let endva := va + len
  if ulim ≤ endva ∨ endva < va then
    return .error va
  else
    userMemLoop env.envPml4e endva (wanted perm) (endva.toNat - va.toNat) va

/-! ### Accessible addresses -/

/-- Every table of the tree of `r` is a page of memory. -/
def TablesIn (s : Pmap) (r : Nat) : Prop :=
  ∀ (π : List (Fin 512)) (t : Nat), π.length ≤ 3 → tab s r π = some t → t < s.npages

/-- The address lies in a page whose entry has the bits `m`. -/
def HasBits (s : Pmap) (r : Nat) (m : Word) (a : Nat) : Prop :=
  ∃ pte, entryAt s r (vpn (BitVec.ofNat 64 a)) = some pte ∧ s.mem pte &&& m = m

/-- The tests for one byte: it is below `ULIM`, and its page has the bits. -/
def Accessible (s : Pmap) (r : Nat) (m : Word) (a : Nat) : Prop :=
  a < ulim.toNat ∧ HasBits s r m a

/-- The bits are those of the page. -/
theorem hasBits_congr {a b : Nat} (ha : a < 2 ^ 64) (hb : b < 2 ^ 64) (h : a / 4096 = b / 4096) :
    HasBits s r m a ↔ HasBits s r m b := by
  have e : vpn (BitVec.ofNat 64 a) = vpn (BitVec.ofNat 64 b) := vpn_congr (by
    rw [toNat_ofNat, toNat_ofNat, Nat.mod_eq_of_lt ha, Nat.mod_eq_of_lt hb, h])
  rw [HasBits, HasBits, e]

theorem entryAt_lt (h : TablesIn s r) {v : Vpn} {pte : Ptr} (hp : entryAt s r v = some pte) :
    pte < s.npages * 512 := by
  obtain ⟨u, hu, rfl⟩ := Option.map_eq_some_iff.mp hp
  exact slot_lt (h v.path u (Nat.le_of_eq v.path_length) hu) _

/-- The start of the next page. -/
theorem roundUpPg_succ {v : Word} (hv : v.toNat + 4096 < 2 ^ 64) :
    (roundUpPg (v + 1#64)).toNat = (v.toNat / 4096 + 1) * 4096 := by
  have h1 : (v + 1#64 + 4096#64 - 1#64).toNat = v.toNat + 4096 := by
    rw [toNat_sub, toNat_add, toNat_add]
    simp only [toNat_ofNat]
    omega
  rw [roundUpPg, roundDownPg_toNat, h1]
  omega

/-! ### The loop -/

/-- **The loop finds the first address without the bits**, or there is none before `endva`. -/
theorem userMemLoop_spec (ht : TablesIn s r) (hend : endva ≤ ulim) :
    ∀ (n : Nat) (va : Word), endva.toNat ≤ va.toNat + n → ∃ res,
      (userMemLoop (some (r * 512)) endva m n va).run s = .ok (res, s) ∧
      match res with
      | .ok () => ∀ a, va.toNat ≤ a → a < endva.toNat → HasBits s r m a
      | .error v => va ≤ v ∧ v < endva ∧ ¬ HasBits s r m v.toNat ∧
          ∀ a, va.toNat ≤ a → a < v.toNat → HasBits s r m a := by
  have hr : r < s.npages := ht [] r (Nat.zero_le 3) rfl
  have hulim : endva.toNat + 4096 < 2 ^ 64 := Nat.lt_of_le_of_lt
    (Nat.add_le_add_right (BitVec.le_def.mp hend) 4096) (by decide)
  intro n
  induction n with
  | zero =>
    intro va hva
    exact ⟨.ok (), rfl, fun a h1 h2 => by omega⟩
  | succ n ih =>
    intro va hva
    rw [userMemLoop]
    by_cases hlt : va < endva
    swap
    · refine ⟨.ok (), by rw [if_neg hlt]; rfl, fun a h1 h2 => ?_⟩
      rw [lt_def] at hlt
      omega
    have hlt' := BitVec.lt_def.mp hlt
    have hwalk := pml4eWalk_find (s := s) va hr fun ρ c hρ hc =>
      ht ρ c (hρ.length_le.trans (Nat.le_refl 3)) hc
    rw [if_pos hlt, bind_ok hwalk]
    -- the page of `va` is tested
    by_cases hbits : HasBits s r m va.toNat
    swap
    · refine ⟨.error va, ?_, BitVec.le_refl va, hlt, hbits, fun a h1 h2 => by omega⟩
      cases he : entryAt s r (vpn va) with
      | none => rfl
      | some pte =>
        dsimp only
        rw [bind_ok (load_run (entryAt_lt ht he)), if_pos]
        · rfl
        · intro hm
          exact hbits ⟨pte, by rw [ofNat_toNat, setWidth_eq]; exact he, hm⟩
    obtain ⟨pte, he, hm⟩ := hbits
    rw [ofNat_toNat, setWidth_eq] at he
    have hnext := roundUpPg_succ (v := va) (by omega)
    obtain ⟨res, hrun, hres⟩ := ih (roundUpPg (va + 1#64)) (by rw [hnext]; omega)
    refine ⟨res, ?_, ?_⟩
    · rw [he]
      dsimp only
      rw [bind_ok (load_run (entryAt_lt ht he)), if_neg (not_not.mpr hm)]
      exact hrun
    -- the addresses before the next page lie in this one
    have hpage : ∀ a, va.toNat ≤ a → a < (va.toNat / 4096 + 1) * 4096 → HasBits s r m a :=
      fun a h1 h2 => (hasBits_congr (by omega) va.isLt (by omega)).mpr
        ⟨pte, by rw [ofNat_toNat, setWidth_eq]; exact he, hm⟩
    cases res with
    | ok u =>
      intro a h1 h2
      by_cases ha : a < (va.toNat / 4096 + 1) * 4096
      · exact hpage a h1 ha
      · exact hres a (by rw [hnext]; omega) h2
    | error v =>
      obtain ⟨hle, hv, hno, hall⟩ := hres
      have hle' := BitVec.le_def.mp hle
      rw [hnext] at hle'
      refine ⟨BitVec.le_def.mpr (by omega), hv, hno, fun a h1 h2 => ?_⟩
      by_cases ha : a < (va.toNat / 4096 + 1) * 4096
      · exact hpage a h1 ha
      · exact hall a (by rw [hnext]; omega) h2

/-! ### The whole check -/

/-- The check returns 0 exactly when the range does not wrap around and every byte of it is
accessible, and reports the smallest address that is not when it returns `-E_FAULT`. -/
def CheckExact (s : Pmap) (r : Nat) (env : Env) (va len : Word) (perm : BitVec 32) : Prop :=
  ∃ res, (userMemCheck env va len perm).run s = .ok (res, s) ∧
    (res = .ok () ↔ va.toNat + len.toNat < 2 ^ 64 ∧ ∀ a, va.toNat ≤ a →
      a < va.toNat + len.toNat → Accessible s r (wanted perm) a) ∧
    ∀ v, res = .error v → va.toNat ≤ v.toNat ∧ v.toNat < va.toNat + len.toNat ∧
      ¬ Accessible s r (wanted perm) v.toNat ∧
      ∀ a, va.toNat ≤ a → a < v.toNat → Accessible s r (wanted perm) a

/-- A range that ends below `ULIM` is checked exactly. -/
theorem checkExact_below {env : Env} {len : Word} {perm : BitVec 32}
    (hp : env.envPml4e = some (r * 512)) (ht : TablesIn s r)
    (hlt : va.toNat + len.toNat < ulim.toNat) : CheckExact s r env va len perm := by
  have hend : (va + len).toNat = va.toNat + len.toNat := by
    rw [toNat_add]
    omega
  have hpass : ¬ (ulim ≤ va + len ∨ va + len < va) := by
    rw [le_def, lt_def, hend]
    omega
  obtain ⟨res, hrun, hres⟩ := userMemLoop_spec (m := wanted perm) ht
    (BitVec.le_def.mpr (hend.symm ▸ Nat.le_of_lt hlt)) ((va + len).toNat - va.toNat) va (by omega)
  rw [hend] at hres
  -- below the end of the range only the bits matter
  have hacc : ∀ a, a < va.toNat + len.toNat →
      (Accessible s r (wanted perm) a ↔ HasBits s r (wanted perm) a) := fun a ha =>
    and_iff_right (by omega)
  refine ⟨res, ?_, ?_⟩
  · simp only [userMemCheck]
    rw [if_neg hpass, hp]
    exact hrun
  cases res with
  | ok u =>
    refine ⟨iff_of_true rfl ⟨by omega, fun a h1 h2 => (hacc a h2).mpr (hres a h1 h2)⟩, nofun⟩
  | error v =>
    obtain ⟨hle, hv, hno, hall⟩ := hres
    have hle' := BitVec.le_def.mp hle
    have hv' := BitVec.lt_def.mp hv
    rw [hend] at hv'
    refine ⟨iff_of_false nofun fun h => hno ((hacc _ hv').mp (h.2 _ hle' hv')), fun v' e => ?_⟩
    cases e
    exact ⟨hle', hv', fun h => hno ((hacc _ hv').mp h),
      fun a h1 h2 => (hacc a (by omega)).mpr (hall a h1 h2)⟩

/-- A range that does not end below `ULIM` is refused at its start. -/
theorem userMemCheck_refused (s : Pmap) (env : Env) {va len : Word} (perm : BitVec 32)
    (hge : ulim.toNat ≤ va.toNat + len.toNat) :
    (userMemCheck env va len perm).run s = .ok (.error va, s) := by
  simp only [userMemCheck]
  rw [if_pos]
  · rfl
  · rw [le_def, lt_def, toNat_add]
    omega

/-- **When `user_mem_check` is exact**: for ranges that end below `ULIM`, and for those that are
not empty and whose first byte fails. -/
theorem userMemCheck_exact_iff {env : Env} (va len : Word) (perm : BitVec 32)
    (hp : env.envPml4e = some (r * 512)) (ht : TablesIn s r) :
    CheckExact s r env va len perm ↔ va.toNat + len.toNat < ulim.toNat ∨
      0 < len.toNat ∧ ¬ Accessible s r (wanted perm) va.toNat := by
  rcases Nat.lt_or_ge (va.toNat + len.toNat) ulim.toNat with hlt | hge
  · exact iff_of_true (checkExact_below hp ht hlt) (.inl hlt)
  have hrun := userMemCheck_refused s env perm hge
  constructor
  · rintro ⟨res, hrun', -, herr⟩
    cases hrun.symm.trans hrun'
    obtain ⟨-, hlen, hno, -⟩ := herr va rfl
    exact .inr ⟨by omega, hno⟩
  · rintro (hlt | ⟨hlen, hno⟩)
    · omega
    refine ⟨.error va, hrun, iff_of_false nofun fun h => ?_, fun v e => ?_⟩
    · exact hno (h.2 va.toNat (Nat.le_refl _) (by omega))
    · cases e
      exact ⟨Nat.le_refl _, by omega, hno, fun a h₁ h₂ => by omega⟩

/-- The environment whose table is on page 7. -/
def pageSeven : Env := { zeroEnv with envPml4e := some (7 * 512) }

/-- A machine of eight pages: in the table tree of page 7 the last page below `ULIM` is mapped
for the user. -/
def lastPage : Pmap where
  npages := 8
  npages_le := eight_le_maxNpages
  mem a := if a = 7 * 512 + 1 then page2pa 6 ||| 7#64
    else if a = 6 * 512 then page2pa 5 ||| 7#64
    else if a = 5 * 512 + 29 then page2pa 4 ||| 7#64
    else if a = 4 * 512 + 511 then page2pa 3 ||| 7#64
    else 0
  ppRef _ := 1#16
  ppLink _ := none
  pageFreeList := none

/-- The theorem at the start of the address space, where nothing is mapped. -/
theorem userMemCheck_exact_iff_zero : CheckExact fourPages 3
    { zeroEnv with envPml4e := some (3 * 512) } 0x1000#64 8#64 4#32 :=
  (userMemCheck_exact_iff 0x1000#64 8#64 4#32 rfl fun π t _ h => by
    obtain ⟨-, rfl⟩ := tableAt_clear (fun _ => dec_zero) h
    decide).mpr (.inl (by decide))

/-- **A range that ends at `ULIM` is refused** although every byte of it is accessible. -/
theorem userMemCheck_refuses_last :
    (∀ a, 0x8003bff000 ≤ a → a < 0x8003bff000 + 4096 → Accessible lastPage 7 (wanted 4#32) a) ∧
    (userMemCheck pageSeven 0x8003bff000#64 4096#64 4#32).run lastPage =
      .ok (.error 0x8003bff000#64, lastPage) := by
  refine ⟨fun a h₁ h₂ => ⟨?_, ?_⟩, userMemCheck_refused _ _ _ (by decide)⟩
  · rw [show ulim.toNat = 0x8003c00000 by decide]
    omega
  · refine (hasBits_congr (b := 0x8003bff000) (by omega) (by decide) (by omega)).mpr ?_
    exact ⟨4 * 512 + 511, by decide +kernel, by decide +kernel⟩

end JosVmm
