import Mathlib.Data.BitVec
import Mathlib.Data.Fintype.Prod
import Mathlib.Data.Fintype.Basic

/-!
# Machine — Words

The 64-bit entries of `inc/mmu.h`, `inc/ept.h` and `vmm/ept.h`: the index fields of a linear or
guest-physical address, the flag bits, and the address field of a page-table or EPT entry.

A page is named by its number.  `page2pa p` is its physical address, and an entry built from it
with flags below `PGSIZE` reads back as `p` (`ppn_page2pa_or`).  An address has four 9-bit index
fields; `vpn` collects them, and below `2^48` they determine the page of the address
(`eq_of_vpn_eq`).
-/

namespace JosVmm

open BitVec

abbrev Word := BitVec 64

/-- `PGSIZE`. -/
def pgsize : Nat := 4096

/-- `PGNUM(va)`, of an address below `2^64`. -/
def pgnum (va : Nat) : Nat := va / pgsize

/-- `NPTENTRIES`, which is also the number of entries of every other table. -/
def nptentries : Nat := 512

/-- The lengths of the arrays that numerals index. -/
instance neZero_32 : NeZero 32 := ⟨by decide⟩
instance neZero_512 : NeZero 512 := ⟨by decide⟩
instance neZero_1024 : NeZero 1024 := ⟨by decide⟩

/-! ### Flag bits -/

def pteP : Word := 0x001#64
def pteW : Word := 0x002#64
def pteU : Word := 0x004#64

/-- `PTE_AVAIL`, an `int` constant. -/
def pteAvail : BitVec 32 := 0xE00#32

def epteRead : Word := 0x01#64
def epteWrite : Word := 0x02#64
def epteExec : Word := 0x04#64
def epteIpat : Word := 0x40#64

/-- `__EPTE_TYPE(n)`. -/
def epteType (n : Word) : Word := (n &&& 0x7#64) <<< 3

/-- `EPTE_TYPE_WB`. -/
def epteTypeWb : Word := 6#64

/-- `__EPTE_FULL`. -/
def epteFull : Word := epteRead ||| epteWrite ||| epteExec

/-! ### Addresses and entries -/

/-- `PPN(pa)`. -/
def ppn (pa : Word) : Nat := (pa >>> 12).toNat

/-- `PTE_ADDR(pte)`. -/
def pteAddr (pte : Word) : Word := pte &&& ~~~0xFFF#64

/-- `epte_addr`, with `EPTE_ADDR` the complement of `PGSIZE - 1`. -/
def epteAddr (epte : Word) : Word := epte &&& ~~~(4096#64 - 1#64)

/-- `epte_flags`. -/
def epteFlags (epte : Word) : Word := epte &&& (4096#64 - 1#64)

/-- `epte_present`. -/
def eptePresent (epte : Word) : Bool := 0#64 < (epte &&& epteFull)

/-- `PGOFF(la)`. -/
def pgoff (la : Word) : Word := la &&& 0xFFF#64

/-- `ROUNDDOWN(a, PGSIZE)`. -/
def roundDownPg (a : Word) : Word := a - a % 4096#64

/-- `page2pa`: `page2ppn(pp) << PGSHIFT`. -/
def page2pa (pp : Nat) : Word := BitVec.ofNat 64 pp <<< 12

/-- A 9-bit field of an address. -/
def field (la : Word) (shift : Nat) : Fin 512 :=
  ⟨((la >>> shift) &&& 0x1FF#64).toNat, by
    rw [toNat_and]
    exact Nat.lt_of_le_of_lt Nat.and_le_right (by decide)⟩

/-- `PML4(la)`. -/
def pml4 (la : Word) : Fin 512 := field la 39

/-- `PDPE(la)`. -/
def pdpe (la : Word) : Fin 512 := field la 30

/-- `PDX(la)`. -/
def pdx (la : Word) : Fin 512 := field la 21

/-- `PTX(la)`. -/
def ptx (la : Word) : Fin 512 := field la 12

/-- `ADDR_TO_IDX(pa, n)`. -/
def addrToIdx (pa : Word) (n : Nat) : Fin 512 := field pa (12 + 9 * n)

/-- The page of an address: its four index fields. -/
abbrev Vpn := Fin 512 × Fin 512 × Fin 512 × Fin 512

/-- The three interior indexes of a page, root first. -/
def Vpn.path (v : Vpn) : List (Fin 512) := [v.1, v.2.1, v.2.2.1]

/-- The index of a page in its last-level table. -/
def Vpn.last (v : Vpn) : Fin 512 := v.2.2.2

def vpn (la : Word) : Vpn := (pml4 la, pdpe la, pdx la, ptx la)

/-- An interior entry: the table it points to, when `PTE_P` is set. -/
def dec (e : Word) : Option Nat := if e &&& pteP = 0 then none else some (ppn (pteAddr e))

theorem vpn_path (la : Word) : (vpn la).path = [pml4 la, pdpe la, pdx la] := rfl

theorem vpn_last (la : Word) : (vpn la).last = ptx la := rfl

theorem Vpn.path_length (v : Vpn) : v.path.length = 3 := rfl

/-- A page is its path and its last index. -/
theorem Vpn.ext_path {v w : Vpn} (hp : v.path = w.path) (hl : v.last = w.last) : v = w := by
  obtain ⟨a, b, c, d⟩ := v
  obtain ⟨a', b', c', d'⟩ := w
  obtain ⟨rfl, rfl, rfl⟩ := hp
  obtain rfl : d = d' := hl
  rfl

/-! ### Reading entries back -/

theorem ppn_eq (x : Word) : ppn x = x.toNat / 4096 := by
  simp [ppn, Nat.shiftRight_eq_div_pow]

theorem ppn_lt (x : Word) : ppn x < 2 ^ 52 := by
  rw [ppn_eq]
  omega

theorem mask_bit : ∀ i, i < 64 → (~~~0xFFF#64).getLsbD i = decide (12 ≤ i) := by decide

theorem pteAddr_eq (x : Word) : pteAddr x = (x >>> 12) <<< 12 := by
  refine eq_of_getLsbD_eq fun i hi => ?_
  rw [pteAddr, getLsbD_and, mask_bit i hi]
  by_cases h : 12 ≤ i
  · simp [h, hi]
  · simp [h, hi]

theorem pteAddr_toNat (x : Word) : (pteAddr x).toNat = x.toNat / 4096 * 4096 := by
  rw [pteAddr_eq]
  simp [Nat.shiftRight_eq_div_pow, Nat.shiftLeft_eq]
  omega

@[simp] theorem ppn_pteAddr (x : Word) : ppn (pteAddr x) = ppn x := by
  rw [ppn_eq, ppn_eq, pteAddr_toNat]
  omega

theorem pteAddr_eq_of_ppn {x y : Word} (h : ppn x = ppn y) : pteAddr x = pteAddr y := by
  refine eq_of_toNat_eq ?_
  rw [pteAddr_toNat, pteAddr_toNat, ← ppn_eq, ← ppn_eq, h]

theorem page2pa_toNat {p : Nat} (hp : p < 2 ^ 52) : (page2pa p).toNat = p * 4096 := by
  simp [page2pa, Nat.shiftLeft_eq]
  omega

theorem page2pa_or_toNat {p : Nat} {f : Word} (hp : p < 2 ^ 52) (hf : f.toNat < 4096) :
    (page2pa p ||| f).toNat = p * 4096 + f.toNat := by
  rw [toNat_or, page2pa_toNat hp, Nat.mul_comm]
  exact (Nat.two_pow_add_eq_or_of_lt (i := 12) hf p).symm

theorem ppn_page2pa {p : Nat} (hp : p < 2 ^ 52) : ppn (page2pa p) = p := by
  rw [ppn_eq, page2pa_toNat hp]
  omega

theorem ppn_page2pa_or {p : Nat} {f : Word} (hp : p < 2 ^ 52) (hf : f.toNat < 4096) :
    ppn (page2pa p ||| f) = p := by
  rw [ppn_eq, page2pa_or_toNat hp hf]
  omega

theorem page2pa_ppn (x : Word) : page2pa (ppn x) = pteAddr x := by
  refine eq_of_toNat_eq ?_
  rw [page2pa_toNat (by rw [ppn_eq]; omega), pteAddr_toNat, ppn_eq]

/-- An entry built from a page and flags gives both back. -/
theorem pteAddr_page2pa_or {p : Nat} {f : Word} (hp : p < 2 ^ 52) (hf : f.toNat < 4096) :
    pteAddr (page2pa p ||| f) = page2pa p := by
  rw [← page2pa_ppn, ppn_page2pa_or hp hf]

theorem epteFlags_page2pa_or {p : Nat} {f : Word} (hp : p < 2 ^ 52) (hf : f.toNat < 4096) :
    epteFlags (page2pa p ||| f) = f := by
  have hm : (4096#64 - 1#64).toNat = 2 ^ 12 - 1 := by decide
  refine eq_of_toNat_eq ?_
  rw [epteFlags, toNat_and, hm, Nat.and_two_pow_sub_one_eq_mod, page2pa_or_toNat hp hf]
  omega

/-- A non-negative `int` keeps its value when it is widened. -/
theorem signExtend_toNat {perm : BitVec 32} (h : perm.toNat < 2 ^ 31) :
    (perm.signExtend 64).toNat = perm.toNat := by
  have hm : perm.msb = false := by
    rw [msb_eq_decide]
    simpa using h
  rw [signExtend_eq_setWidth_of_msb_false hm, toNat_setWidth]
  omega

/-- `PTE_P` is bit 0. -/
theorem and_pteP_eq_zero (e : Word) : e &&& pteP = 0 ↔ e.getLsbD 0 = false := by
  constructor
  · intro hc
    have h₀ := congrArg (fun x : Word => x.getLsbD 0) hc
    rw [getLsbD_and, show pteP.getLsbD 0 = true from rfl, Bool.and_true] at h₀
    exact h₀
  · intro h
    refine eq_of_getLsbD_eq fun i hi => ?_
    rw [getLsbD_and]
    rcases Nat.eq_zero_or_pos i with rfl | h0
    · rw [h]; rfl
    · simp [pteP]; omega

theorem dec_zero : dec 0 = none := by decide

theorem dec_of_present {e : Word} (h : e &&& pteP ≠ 0) : dec e = some (ppn e) := by
  rw [dec, if_neg h, ppn_pteAddr]

theorem dec_eq_none {e : Word} : dec e = none ↔ e &&& pteP = 0 := by
  rw [dec]
  split
  · simpa
  · simpa

theorem dec_eq_some {e : Word} {t : Nat} : dec e = some t ↔ e &&& pteP ≠ 0 ∧ ppn e = t := by
  rw [dec]
  split <;> simp_all

/-- Entries with the same `PTE_P` bit and page number are followed alike. -/
theorem dec_congr {e e' : Word} (hp : e'.getLsbD 0 = e.getLsbD 0) (hn : ppn e' = ppn e) :
    dec e' = dec e := by
  simp only [dec, and_pteP_eq_zero, hp, ppn_pteAddr, hn]

theorem or_and_self_right (a b : Word) : (a ||| b) &&& b = b := by
  refine eq_of_getLsbD_eq fun i _ => ?_
  rw [getLsbD_and, getLsbD_or]
  cases a.getLsbD i <;> cases b.getLsbD i <;> rfl

theorem or_and_of_and_eq {a c : Word} (h : a &&& c = c) (b : Word) : (a ||| b) &&& c = c := by
  rw [and_or_distrib_right, h]
  refine eq_of_getLsbD_eq fun i _ => ?_
  rw [getLsbD_or, getLsbD_and]
  cases c.getLsbD i <;> simp

/-- Flags below `PGSIZE` leave the page number alone. -/
theorem ppn_or {e g : Word} (hg : g.toNat < 4096) : ppn (e ||| g) = ppn e := by
  have h0 : g >>> 12 = 0#64 := by
    refine eq_of_toNat_eq ?_
    rw [toNat_ushiftRight, Nat.shiftRight_eq_div_pow]
    exact Nat.div_eq_of_lt hg
  rw [ppn, ushiftRight_or_distrib, h0, or_zero, ppn]

/-- A present entry may gain flags. -/
theorem dec_or {e g : Word} {t : Nat} (hg : g.toNat < 4096) (h : dec e = some t) :
    dec (e ||| g) = some t := by
  rw [← h]
  refine dec_congr ?_ (ppn_or hg)
  have h0 := (dec_eq_some.mp h).1
  rw [Ne, and_pteP_eq_zero, Bool.not_eq_false] at h0
  rw [getLsbD_or, h0, Bool.true_or]

/-- A last-level entry of a host table. -/
theorem dec_leaf {p : Nat} {f : Word} (hp : p < 2 ^ 52) (hf : f.toNat < 4096) :
    dec (page2pa p ||| f ||| pteP) = some p := by
  rw [dec_eq_some, Ne, and_pteP_eq_zero, getLsbD_or, ppn_or (by decide), ppn_page2pa_or hp hf]
  simp [pteP]

/-! ### The page of an address -/

theorem field_val (la : Word) (k : Nat) : (field la k : Nat) = la.toNat / 2 ^ k % 512 := by
  have h : (0x1FF#64).toNat = 2 ^ 9 - 1 := by decide
  show ((la >>> k) &&& 0x1FF#64).toNat = _
  rw [toNat_and, h, Nat.and_two_pow_sub_one_eq_mod, toNat_ushiftRight, Nat.shiftRight_eq_div_pow]

theorem pgoff_toNat (x : Word) : (pgoff x).toNat = x.toNat % 4096 := by
  have h : (0xFFF#64).toNat = 2 ^ 12 - 1 := by decide
  rw [pgoff, toNat_and, h, Nat.and_two_pow_sub_one_eq_mod]

theorem mod_of_pgoff {x : Word} (h : pgoff x = 0) : x.toNat % 4096 = 0 := by
  rw [← pgoff_toNat, h]
  rfl

/-- Below `2^48` the index fields determine the page. -/
theorem eq_of_vpn_eq {a b : Word} (ha : a.toNat < 2 ^ 48) (hb : b.toNat < 2 ^ 48)
    (ha' : pgoff a = 0) (hb' : pgoff b = 0) (h : vpn a = vpn b) : a = b := by
  have ha'' := mod_of_pgoff ha'
  have hb'' := mod_of_pgoff hb'
  simp only [vpn, Prod.mk.injEq, pml4, pdpe, pdx, ptx, Fin.ext_iff, field_val] at h
  refine eq_of_toNat_eq ?_
  omega

theorem roundDownPg_toNat (a : Word) : (roundDownPg a).toNat = a.toNat - a.toNat % 4096 := by
  rw [roundDownPg, toNat_sub, toNat_umod]
  simp only [toNat_ofNat, Nat.reducePow, Nat.reduceMod]
  omega

/-- The index fields are those of the page. -/
theorem vpn_congr {a b : Word} (h : a.toNat / 4096 = b.toNat / 4096) : vpn a = vpn b := by
  simp only [vpn, Prod.mk.injEq, pml4, pdpe, pdx, ptx, Fin.ext_iff, field_val]
  omega

/-- Below `2 ^ 48` addresses have the same index fields if they are in the same page. -/
theorem vpn_eq_iff {a b : Word} (ha : a.toNat < 2 ^ 48) (hb : b.toNat < 2 ^ 48) :
    vpn a = vpn b ↔ a.toNat / 4096 = b.toNat / 4096 := by
  simp only [vpn, Prod.mk.injEq, pml4, pdpe, pdx, ptx, Fin.ext_iff, field_val]
  omega

/-- Rounding down to a page keeps the index fields. -/
theorem vpn_roundDownPg (a : Word) : vpn (roundDownPg a) = vpn a := by
  refine vpn_congr ?_
  rw [roundDownPg_toNat]
  omega

theorem addrToIdx_eq (a : Word) :
    (addrToIdx a 3, addrToIdx a 2, addrToIdx a 1, addrToIdx a 0) = vpn a := rfl

end JosVmm
