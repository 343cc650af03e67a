import JosVmm.Support.Chain
import JosVmm.Support.Prog
import JosVmm.Support.Radix
import JosVmm.Machine.Words

/-!
# Machine — Pages

Physical memory and the page allocator of `kern/pmap.c`.  Memory is a function from 8-byte words;
the page `p` is the block of words `512 * p … 512 * p + 511`.  The kernel reaches physical memory
through the map at `KERNBASE`, so a kernel pointer into it is modelled by the number of the
physical word it points to (`Ptr`), and `KADDR`, `PADDR` are conversions between addresses and
such numbers.  An access outside `npages` pages is a kernel page fault, which panics.

`struct PageInfo` is the pair `ppRef`, `ppLink`; a `struct PageInfo *` is a page number, and the
free list is threaded through `ppLink` from `pageFreeList`.  The `pages` array itself lies below
the boot allocator's end, where no page table lies, and is kept apart from `mem`.
-/

namespace JosVmm
open Support Support.Radix Support.Prog Function

/-- The ways the kernel stops.  `noVmcs` stands for a `VMREAD` or `VMWRITE` without a current
VMCS, whose result the code does not look at; no exit handler runs without one. -/
inductive Panic where
  | kaddr (pa : Word)
  | pa2page (pa : Word)
  | paddr
  | pageFault
  | assertFailed
  | noVmcs
  | noMemory
  | invalidBinary
  | syscall
  | mmioLimit
  deriving DecidableEq, Repr

/-- The error codes of `inc/error.h` that the modelled functions return. -/
inductive Err where
  | badEnv | inval | noMem | noFreeEnv | noVmx | noEpt | vmcsInit | vmxOn | noEnt
  deriving DecidableEq, Repr

/-- The values that `inc/error.h` gives the codes, as they are returned. -/
def Err.code : Err → Int
  | .badEnv => -2
  | .inval => -3
  | .noMem => -4
  | .noFreeEnv => -5
  | .noVmx => -17
  | .noEpt => -18
  | .vmxOn => -19
  | .vmcsInit => -20
  | .noEnt => -21

theorem Err.code_neg (r : Err) : r.code < 0 := by cases r <;> decide

/-- `max_npages` of `i386_detect_memory`: the `UPAGES` range holds this many `struct PageInfo`. -/
def maxNpages : Nat := 3276800

theorem eight_le_maxNpages : 8 ≤ maxNpages := by decide

theorem sixteen_le_maxNpages : 16 ≤ maxNpages := by decide

/-- A kernel pointer into the map of physical memory: the number of the 8-byte word. -/
abbrev Ptr := Nat

/-- Physical memory and the state of the page allocator. -/
structure Pmap where
  npages : Nat
  npages_le : npages ≤ maxNpages
  mem : Nat → Word
  ppRef : Nat → BitVec 16
  ppLink : Nat → Option Nat
  pageFreeList : Option Nat

abbrev Pm := StateT Pmap (Except Panic)

/-! ### Memory accesses -/

def load (p : Ptr) : Pm Word := fun s =>
  if p < s.npages * 512 then .ok (s.mem p, s) else .error .pageFault

def store (p : Ptr) (w : Word) : Pm Unit := fun s =>
  if p < s.npages * 512 then .ok ((), { s with mem := update s.mem p w })
  else .error .pageFault

/-- `KADDR(pa)`.  The page number is compared after truncation to `uint32_t`. -/
def kaddr (pa : Word) : Pm Ptr := fun s =>
  if s.npages ≤ ppn pa % 2 ^ 32 then .error (.kaddr pa) else .ok (pa.toNat / 8, s)

/-- `pa2page(pa)`. -/
def pa2page (pa : Word) : Pm Nat := fun s =>
  if s.npages ≤ ppn pa then .error (.pa2page pa) else .ok (ppn pa, s)

/-- `page2kva(pp)`. -/
def page2kva (pp : Nat) : Pm Ptr := kaddr (page2pa pp)

/-- `memset(kva, 0, PGSIZE)` at a page boundary. -/
def zeroPage (kva : Ptr) : Pm Unit := fun s =>
  .ok ((), { s with mem := clear 512 s.mem (kva / 512) })

/-! ### The allocator -/

/-- `page_alloc(alloc_flags)`; `allocZero` is `alloc_flags & ALLOC_ZERO`. -/
def pageAlloc (allocZero : Bool) : Pm (Option Nat) := do
  let s ← get
  match s.pageFreeList with
  | none => pure none
  | some pp =>
    set { s with pageFreeList := s.ppLink pp, ppLink := update s.ppLink pp none }
    if allocZero then
      zeroPage (← page2kva pp)
    pure (some pp)

/-- `pp->pp_ref += 1`. -/
def incRef (pp : Nat) : Pm Unit := modify fun s =>
  { s with ppRef := update s.ppRef pp (s.ppRef pp + 1#16) }

/-- `page_free(pp)`: a page that is still referenced, or still linked, is left alone. -/
def pageFree (pp : Nat) : Pm Unit := do
  let s ← get
  if s.ppRef pp ≠ 0#16 ∨ s.ppLink pp ≠ none then
    pure ()
  else
    set { s with
      ppLink := update s.ppLink pp s.pageFreeList
      pageFreeList := some pp
      ppRef := update s.ppRef pp 0#16 }

/-- `page_decref(pp)`. -/
def pageDecref (pp : Nat) : Pm Unit := do
  modify fun s => { s with ppRef := update s.ppRef pp (s.ppRef pp - 1#16) }
  if (← get).ppRef pp = 0#16 then
    pageFree pp

/-! ### What each of them does -/

namespace Pmap

variable {s : Pmap} {p : Nat}

def withMem (s : Pmap) (m : Nat → Word) : Pmap := { s with mem := m }

def setWord (s : Pmap) (a : Nat) (w : Word) : Pmap := { s with mem := update s.mem a w }

def setRef (s : Pmap) (p : Nat) (c : BitVec 16) : Pmap :=
  { s with ppRef := update s.ppRef p c }

/-- The head `p` of the free list taken off it. -/
def take (s : Pmap) (p : Nat) : Pmap :=
  { s with pageFreeList := s.ppLink p, ppLink := update s.ppLink p none }

/-- `p` put back at the head of the free list. -/
def give (s : Pmap) (p : Nat) : Pmap :=
  { s with
    ppLink := update s.ppLink p s.pageFreeList
    pageFreeList := some p
    ppRef := update s.ppRef p 0#16 }

def zero (s : Pmap) (p : Nat) : Pmap := { s with mem := clear 512 s.mem p }

/-- `page_decref` as a function. -/
def decref (s : Pmap) (p : Nat) : Pmap :=
  if s.ppRef p = 1#16 ∧ s.ppLink p = none then s.give p else s.setRef p (s.ppRef p - 1#16)

@[simp] theorem withMem_mem (m : Nat → Word) : (s.withMem m).mem = m := rfl
@[simp] theorem setWord_mem (a : Nat) (w : Word) : (s.setWord a w).mem = update s.mem a w := rfl
@[simp] theorem setWord_ppRef (a : Nat) (w : Word) : (s.setWord a w).ppRef = s.ppRef := rfl
@[simp] theorem setWord_ppLink (a : Nat) (w : Word) : (s.setWord a w).ppLink = s.ppLink := rfl
@[simp] theorem setWord_npages (a : Nat) (w : Word) : (s.setWord a w).npages = s.npages := rfl
@[simp] theorem setRef_mem (c : BitVec 16) : (s.setRef p c).mem = s.mem := rfl
@[simp] theorem setRef_ppRef (c : BitVec 16) : (s.setRef p c).ppRef = update s.ppRef p c := rfl
@[simp] theorem setRef_npages (c : BitVec 16) : (s.setRef p c).npages = s.npages := rfl
@[simp] theorem take_mem : (s.take p).mem = s.mem := rfl
@[simp] theorem take_ppRef : (s.take p).ppRef = s.ppRef := rfl
@[simp] theorem give_ppRef : (s.give p).ppRef = update s.ppRef p 0#16 := rfl
@[simp] theorem zero_mem : (s.zero p).mem = clear 512 s.mem p := rfl
@[simp] theorem zero_ppRef : (s.zero p).ppRef = s.ppRef := rfl

theorem setWord_self (a : Nat) (w : Word) : (s.setWord a w).mem a = w := update_self ..

theorem setWord_of_ne {a b : Nat} {w : Word} (h : b ≠ a) : (s.setWord a w).mem b = s.mem b :=
  update_of_ne h ..

theorem setWord_setWord (s : Pmap) (a : Nat) (w w' : Word) :
    (s.setWord a w).setWord a w' = s.setWord a w' := by
  rw [setWord, setWord, setWord, update_idem]

@[simp] theorem decref_mem : (s.decref p).mem = s.mem := by
  unfold decref; split <;> rfl

@[simp] theorem decref_npages : (s.decref p).npages = s.npages := by
  unfold decref; split <;> rfl

/-- Freed or not, the page is counted down. -/
theorem decref_ppRef : (s.decref p).ppRef = update s.ppRef p (s.ppRef p - 1#16) := by
  unfold decref
  split
  · rename_i h
    rw [h.1]
    rfl
  · rfl

end Pmap

variable {s : Pmap} {p : Nat}

theorem Pmap.lt_two_pow (hp : p < s.npages) : p < 2 ^ 32 :=
  Nat.lt_trans (Nat.lt_of_lt_of_le hp s.npages_le) (by decide)

theorem Pmap.lt_two_pow_52 (hp : p < s.npages) : p < 2 ^ 52 :=
  Nat.lt_trans (s.lt_two_pow hp) (by decide)

theorem load_run {a : Ptr} (h : a < s.npages * 512) : (load a).run s = .ok (s.mem a, s) :=
  if_pos h

theorem store_run {a : Ptr} (h : a < s.npages * 512) (w : Word) :
    (store a w).run s = .ok ((), s.setWord a w) :=
  if_pos h

/-- Reading and writing an entry of the table in page `p`. -/
theorem load_entry (hp : p < s.npages) (i : Fin 512) :
    (load (p * 512 + i)).run s = .ok (s.mem (slot p i), s) :=
  load_run (slot_lt hp i)

theorem store_entry (hp : p < s.npages) (i : Fin 512) (w : Word) :
    (store (p * 512 + i) w).run s = .ok ((), s.setWord (slot p i) w) :=
  store_run (slot_lt hp i) w

theorem kaddr_run {pa : Word} (h : ppn pa < s.npages) :
    (kaddr pa).run s = .ok (pa.toNat / 8, s) := by
  refine if_neg ?_
  omega

theorem pa2page_run {pa : Word} (h : ppn pa < s.npages) : (pa2page pa).run s = .ok (ppn pa, s) :=
  if_neg (by omega)

theorem kaddr_page2pa (hp : p < s.npages) : (kaddr (page2pa p)).run s = .ok (p * 512, s) := by
  have hp' : p < 2 ^ 52 := Nat.lt_trans (s.lt_two_pow hp) (by decide)
  rw [kaddr_run (by rwa [ppn_page2pa hp']), page2pa_toNat hp', show p * 4096 / 8 = p * 512 by omega]

theorem pageAlloc_none (h : s.pageFreeList = none) (z : Bool) :
    (pageAlloc z).run s = .ok (none, s) := by
  simp only [pageAlloc]
  rw [bind_get, h]
  rfl

theorem pageAlloc_some (h : s.pageFreeList = some p) (hp : p < s.npages) :
    (pageAlloc true).run s = .ok (some p, (s.take p).zero p) := by
  simp only [pageAlloc]
  rw [bind_get, h]
  rw [bind_ok (a := ()) (u := s.take p) rfl]
  simp only [↓reduceIte, page2kva]
  rw [bind_ok (kaddr_page2pa (s := s.take p) hp)]
  rw [bind_ok (a := ()) rfl, Nat.mul_div_cancel p (show 0 < 512 by decide)]
  rfl

theorem pageAlloc_some_raw (h : s.pageFreeList = some p) :
    (pageAlloc false).run s = .ok (some p, s.take p) := by
  simp only [pageAlloc]
  rw [bind_get, h]
  rfl

theorem incRef_run (s : Pmap) (p : Nat) :
    (incRef p).run s = .ok ((), s.setRef p (s.ppRef p + 1#16)) := rfl

theorem pageDecref_run (s : Pmap) (p : Nat) : (pageDecref p).run s = .ok ((), s.decref p) := by
  have hsub : s.ppRef p - 1#16 = 0#16 ↔ s.ppRef p = 1#16 := by
    constructor <;> intro h <;> bv_omega
  simp only [pageDecref]
  rw [bind_ok (a := ()) (u := s.setRef p (s.ppRef p - 1#16)) rfl,
    bind_ok (a := s.setRef p (s.ppRef p - 1#16)) rfl]
  simp only [Pmap.setRef, update_self, Pmap.decref, hsub]
  by_cases h1 : s.ppRef p = 1#16
  · rw [if_pos h1]
    simp only [pageFree]
    rw [bind_ok (a := s.setRef p (s.ppRef p - 1#16)) rfl]
    simp only [Pmap.setRef, update_self, h1, true_and, ne_eq]
    by_cases h2 : s.ppLink p = none
    · rw [if_neg (by simp [h2]), if_pos h2]
      simp [Pmap.give]
      rfl
    · rw [if_pos (by simp [h2]), if_neg h2]
      rfl
  · rw [if_neg h1, if_neg (fun h => h1 h.1)]
    rfl

/-! ### Runs that are known to succeed -/

variable {s' : Pmap}

theorem load_eq_ok {p : Ptr} {w : Word} (h : (load p).run s = .ok (w, s')) :
    s' = s ∧ w = s.mem p := by
  change load p s = _ at h
  rw [load] at h
  split at h <;> cases h
  exact ⟨rfl, rfl⟩

theorem store_eq_ok {p : Ptr} {w : Word} {u : Unit} (h : (store p w).run s = .ok (u, s')) :
    s' = s.setWord p w := by
  change store p w s = _ at h
  rw [store] at h
  split at h <;> cases h
  rfl

theorem readOnly_load (p : Ptr) : ReadOnly (load p) := fun _ _ _ h => (load_eq_ok h).1

theorem readOnly_kaddr (pa : Word) : ReadOnly (kaddr pa) := fun s a u h => by
  change kaddr pa s = _ at h
  rw [kaddr] at h
  split at h <;> cases h
  rfl

theorem pa2page_eq_ok {pa : Word} {p : Nat} (h : (pa2page pa).run s = .ok (p, s')) :
    s' = s ∧ p = ppn pa ∧ p < s.npages := by
  change pa2page pa s = _ at h
  rw [pa2page] at h
  split at h <;> cases h
  exact ⟨rfl, rfl, by omega⟩

end JosVmm
