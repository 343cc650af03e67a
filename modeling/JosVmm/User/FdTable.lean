import JosVmm.User.Descriptors
import JosVmm.Machine.Envs

/-!
# User library — the descriptor table

What `pipe` and `dup` leave of the pages of an environment's descriptors, for every outcome of their
system calls.

`pipe` undoes what it has mapped when a later step fails: a page that has been mapped where there
was none is unmapped again (`FdSys.unmap_insert`), so the failed call leaves the pages as they were
(`pipe_atomic`).

`dup` computes the slots of `newfdnum` from the number alone.  Here the table is at its addresses:
the `Fd` pages of the 32 descriptors from `FDTABLE` on, and their data pages behind them.  With two
descriptors `dup` maps at most the slots of the new one (`dupSafe_of_ne`).  `dup(i, i)` closes the
descriptor that it is to duplicate (`dup_self`).  A number that is no descriptor is not refused: the
slots are then other pages of the environment, which are mapped, or unmapped when the mapping fails.
`dup_safe_iff` says for which arguments and tables nothing of this can happen.
-/

namespace JosVmm

open Function BitVec

/-! ### A pipe that fails -/

section pipe

variable {s s' : FdSys} {e : EnvIx} {i j : Fin 32}

theorem fdAlloc_closed (h : s.fdAlloc e = some i) : s.pte (e, .fd i) = none := by
  have := List.find?_some h
  simpa using this

/-- A page that has been mapped where there was none, and is unmapped again. -/
theorem FdSys.unmap_insert {t : FdSys} {va : FdVa} (q : Nat) (h : s.pte (e, va) = none)
    (ht : t.pte = (s.pageInsert e va q).pte) : (t.sysPageUnmap e va).pte = s.pte := by
  rw [(t.remapped_unmap e va).pte, ht, (s.remapped_insert e va q).pte, update_idem,
    ← h, update_eq_self]

/-- **`pipe` is atomic**: for an environment that maps no data pages beside closed descriptors, a
`pipe` that returns an error has left the pages as they were; one that succeeds returns two
descriptors that were closed, and are now over one data page. -/
theorem pipe_atomic {q₀ q₁ q₂ : Option Nat} {ok : Bool} {res : Option (Fin 32 × Fin 32)}
    (hclosed : ∀ i, s.pte (e, .fd i) = none → s.pte (e, .data i) = none)
    (hrun : s.pipe e q₀ q₁ q₂ ok = (res, s')) :
    (res = none → s'.pte = s.pte) ∧
    ∀ fds, res = some fds → fds.1 ≠ fds.2 ∧
      (s.pte (e, .fd fds.1) = none ∧ s'.pte (e, .fd fds.1) ≠ none) ∧
      (s.pte (e, .fd fds.2) = none ∧ s'.pte (e, .fd fds.2) ≠ none) ∧
      ∃ c, s'.pte (e, .data fds.1) = some c ∧ s'.pte (e, .data fds.2) = some c := by
  obtain ⟨rfl, rfl⟩ | ⟨i, a, s₁, hi, -, hs₁, hrun⟩ := FdSys.pipe_cases hrun
  · exact ⟨fun _ => rfl, nofun⟩
  have hfd₀ := fdAlloc_closed hi
  have h₁ := s.remapped_insert e (.fd i) a
  rw [← hs₁] at h₁
  obtain ⟨rfl, rfl⟩ | ⟨j, b, s₂, hj, -, hs₂, hrun⟩ := hrun
  · exact ⟨fun _ => FdSys.unmap_insert a hfd₀ (congrArg _ hs₁), nofun⟩
  have hfd₁ := fdAlloc_closed hj
  have hne : i ≠ j := by
    rintro rfl
    rw [h₁.pte_self] at hfd₁
    cases hfd₁
  have h₂ := s₁.remapped_insert e (.fd j) b
  rw [← hs₂] at h₂
  obtain ⟨rfl, rfl⟩ | ⟨c, s₃, -, hs₃, hrun⟩ := hrun
  · refine ⟨fun _ => FdSys.unmap_insert a hfd₀ ?_, nofun⟩
    rw [FdSys.unmap_insert b hfd₁ (congrArg _ hs₂), hs₁]
  have hdata : s₂.pte (e, .data i) = none := by
    rw [h₂.data_eq, h₁.data_eq]
    exact hclosed i hfd₀
  obtain ⟨rfl, rfl⟩ | ⟨s₄, rfl, hs₄, hpte, -⟩ := hrun
  · refine ⟨fun _ => FdSys.unmap_insert a hfd₀ ?_, nofun⟩
    rw [FdSys.unmap_insert b hfd₁ ?_, hs₁]
    rw [FdSys.unmap_insert c hdata (congrArg _ hs₃), hs₂]
  · have h₃ := s₂.remapped_insert e (.data i) c
    have h₄ := s₃.remapped_insert e (.data j) c
    rw [← hs₃] at h₃
    rw [← hs₄] at h₄
    refine ⟨nofun, fun fds hfds => ?_⟩
    obtain rfl := Option.some.inj hfds
    rw [hpte]
    refine ⟨hne, ⟨hfd₀, ?_⟩, ⟨?_, ?_⟩, c, ?_, h₄.pte_self⟩
    · rw [h₄.fd_eq, h₃.fd_eq, h₂.pte_of_ne (fun _ h => hne (FdVa.fd.inj h)), h₁.pte_self]
      exact Option.some_ne_none _
    · rwa [h₁.pte_of_ne (fun _ h => hne (FdVa.fd.inj h).symm)] at hfd₁
    · rw [h₄.fd_eq, h₃.fd_eq, h₂.pte_self]
      exact Option.some_ne_none _
    · rw [h₄.pte_of_ne (fun _ h => hne (FdVa.data.inj h)), h₃.pte_self]

/-- The second mapping of the data page fails, and then it succeeds. -/
theorem pipe_atomic_first :
    (noFds.pipe 0 (some 1) (some 2) (some 3) false).1 = none ∧
    (noFds.pipe 0 (some 1) (some 2) (some 3) false).2.pte = noFds.pte ∧
    (noFds.pipe 0 (some 1) (some 2) (some 3) true).1 = some (0, 1) ∧
    ∃ c, (noFds.pipe 0 (some 1) (some 2) (some 3) true).2.pte (0, .data 0) = some c ∧
      (noFds.pipe 0 (some 1) (some 2) (some 3) true).2.pte (0, .data 1) = some c := by
  have hfail : (noFds.pipe 0 (some 1) (some 2) (some 3) false).1 = none := by decide +kernel
  have hok : (noFds.pipe 0 (some 1) (some 2) (some 3) true).1 = some (0, 1) := by decide +kernel
  refine ⟨hfail, ?_, hok, ?_⟩
  · exact (pipe_atomic (s := noFds) (fun _ _ => rfl) (Prod.ext hfail rfl)).1 rfl
  · exact ((pipe_atomic (s := noFds) (fun _ _ => rfl) (Prod.ext hok rfl)).2 (0, 1) rfl).2.2.2

end pipe
/-! ### The table at its addresses -/

/-- `MAXFD`, `FDTABLE` and `FILEDATA`. -/
def maxfd : BitVec 32 := 32#32
def fdtable : Word := 0xD0000000#64
def filedata : Word := 0xD0020000#64

/-- `INDEX2FD(i)`, for an `int`. -/
def index2fd (i : BitVec 32) : Word := fdtable + i.signExtend 64 * 4096#64

/-- `INDEX2DATA(i)`, for a `uint64_t`. -/
def index2data (i : Word) : Word := filedata + i * 4096#64

def fd2num (fd : Word) : Word := (fd - fdtable) / 4096#64

def fd2data (fd : Word) : Word := index2data (fd2num fd)

/-- `PTE_SYSCALL`. -/
def pteSyscall : BitVec 12 := 0xE07#12

/-- What an address of an environment maps: a page, and permissions that have `PTE_U` and
`PTE_P`. -/
structure UserPte where
  page : Nat
  perm : BitVec 12
  user : perm &&& 0x005#12 = 0x005#12

/-- The page with the permissions that `dup` hands on. -/
def UserPte.shared (e : UserPte) : UserPte where
  page := e.page
  perm := e.perm &&& pteSyscall
  user := by
    rw [BitVec.and_assoc, BitVec.and_comm pteSyscall, ← BitVec.and_assoc, e.user]
    decide

/-- The addresses of one environment, and the device of each `Fd` page. -/
structure FdSpace where
  pte : Word → Option UserPte
  fdDevId : Nat → BitVec 32

namespace FdSpace

def setPte (s : FdSpace) (va : Word) (o : Option UserPte) : FdSpace :=
  { s with pte := update s.pte va o }

/-- The flags that `uvpt[PGNUM(va)]` shows. -/
def perm (s : FdSpace) (va : Word) : BitVec 12 :=
  match s.pte va with
  | none => 0
  | some e => e.perm

/-- `sys_page_unmap(0, va)`, as `kern/syscall.c` documents it. -/
def sysPageUnmap (s : FdSpace) (va : Word) : FdSpace :=
  if utop ≤ va ∨ pgoff va ≠ 0 then s else s.setPte va none

/-- `sys_page_map(0, srcva, 0, dstva, perm)`, as `kern/syscall.c` documents it; `mem` says that
there is memory for the page tables. -/
def sysPageMap (s : FdSpace) (mem : Bool) (srcva dstva : Word) (perm : BitVec 12) :
    Except Err FdSpace :=
  if utop ≤ srcva ∨ pgoff srcva ≠ 0 ∨ utop ≤ dstva ∨ pgoff dstva ≠ 0 then
    .error .inval
  else
    match s.pte srcva with
    | none => .error .inval
    | some e =>
      if h : perm &&& 0x005#12 = 0x005#12 ∧ perm &&& ~~~pteSyscall = 0 then
        if perm &&& 0x002#12 ≠ 0 ∧ e.perm &&& 0x002#12 = 0 then .error .inval
        else if mem then .ok (s.setPte dstva (some ⟨e.page, perm, h.1⟩))
        else .error .noMem
      else .error .inval

/-- `fd_lookup`. -/
def fdLookup (s : FdSpace) (fdnum : BitVec 32) : Except Err Word :=
  if fdnum.slt 0 || maxfd.sle fdnum then
    .error .inval
  else
    match s.pte (index2fd fdnum) with
    | none => .error .inval
    | some _ => .ok (index2fd fdnum)

/-- `devpipe.dev_id`. -/
def devpipe : BitVec 32 := 0x70#32

def devpipeClose (s : FdSpace) (fd : Word) : FdSpace :=
  (s.sysPageUnmap fd).sysPageUnmap (fd2data fd)

/-- `(*dev->dev_close)(fd)`, for the device of `fd`.  No device but `devpipe` unmaps pages when it
is closed. -/
def devClose (s : FdSpace) (fd : Word) : FdSpace :=
  match s.pte fd with
  | none => s
  | some e => if s.fdDevId e.page = devpipe then s.devpipeClose fd else s

/-- `fd_close(fd, 1)`, without its result. -/
def fdClose (s : FdSpace) (fd : Word) : FdSpace :=
  match s.fdLookup ((fd2num fd).setWidth 32) with
  | .error _ => s
  | .ok fd2 => if fd ≠ fd2 then s else (s.devClose fd).sysPageUnmap fd

/-- `close`, without its result. -/
def close (s : FdSpace) (fdnum : BitVec 32) : FdSpace :=
  match s.fdLookup fdnum with
  | .error _ => s
  | .ok fd => s.fdClose fd

/-- The label `err` of `dup`. -/
def dupErr (s : FdSpace) (newfd nva : Word) : FdSpace :=
  (s.sysPageUnmap newfd).sysPageUnmap nva

/-- The data page of `dup`, if there is one. -/
def dupData (s : FdSpace) (mem : Bool) (ova nva : Word) : Except Err FdSpace :=
  match s.pte ova with
  | none => .ok s
  | some _ => s.sysPageMap mem ova nva (s.perm ova &&& pteSyscall)

/-- `dup` from the first `sys_page_map` on. -/
def dupPages (s : FdSpace) (mem₁ mem₂ : Bool) (oldfd newfd : Word) : Except Err Unit × FdSpace :=
  match s.dupData mem₁ (fd2data oldfd) (fd2data newfd) with
  | .error r => (.error r, s.dupErr newfd (fd2data newfd))
  | .ok s₁ =>
    match s₁.sysPageMap mem₂ oldfd newfd (s₁.perm oldfd &&& pteSyscall) with
    | .error r => (.error r, s₁.dupErr newfd (fd2data newfd))
    | .ok s₂ => (.ok (), s₂)

/-- `dup(oldfdnum, newfdnum)`; `mem₁` and `mem₂` say that there is memory for the page tables of its
two mappings. -/
def dup (s : FdSpace) (mem₁ mem₂ : Bool) (oldfdnum newfdnum : BitVec 32) : Int × FdSpace :=
  match s.fdLookup oldfdnum with
  | .error r => (r.code, s)
  | .ok oldfd =>
    match (s.close newfdnum).dupPages mem₁ mem₂ oldfd (index2fd newfdnum) with
    | (.error r, s') => (r.code, s')
    | (.ok _, s') => (newfdnum.toInt, s')

end FdSpace

/-! ### Addresses of the slots -/

section slots

variable {i j : BitVec 32}

/-- `i` is the number of a descriptor. -/
def IsFd (i : BitVec 32) : Prop := i.toNat < 32

theorem fd2num_index2fd (i : BitVec 32) :
    fd2num (index2fd i) = i.signExtend 64 * 4096#64 / 4096#64 := by
  rw [fd2num, index2fd, BitVec.add_comm, BitVec.add_sub_cancel]

theorem fd2data_index2fd_toNat (i : BitVec 32) :
    (fd2data (index2fd i)).toNat = ((index2fd i).toNat + 0x20000) % 2 ^ 64 := by
  rw [fd2data, index2data, fd2num_index2fd, index2fd, fdtable, filedata]
  simp only [toNat_add, toNat_mul, toNat_udiv, toNat_ofNat, Nat.reducePow, Nat.reduceMod]
  omega

theorem index2fd_toNat (h : IsFd i) : (index2fd i).toNat = 0xD0000000 + 4096 * i.toNat := by
  have hi : i.toNat < 32 := h
  have hs : (i.signExtend 64).toNat = i.toNat := by
    rw [signExtend_eq_setWidth_of_msb_false, toNat_setWidth]
    · omega
    · rw [msb_eq_false_iff_two_mul_lt]
      omega
  rw [index2fd, fdtable, toNat_add, toNat_mul, hs]
  simp only [toNat_ofNat]
  omega

theorem pgoff_index2fd (i : BitVec 32) : pgoff (index2fd i) = 0 := by
  apply eq_of_toNat_eq
  rw [pgoff_toNat, index2fd, fdtable, toNat_add, toNat_mul]
  simp only [ofNat_eq_ofNat, toNat_ofNat, Nat.reducePow, Nat.reduceMod]
  omega

theorem pgoff_fd2data (i : BitVec 32) : pgoff (fd2data (index2fd i)) = 0 := by
  have h := congrArg BitVec.toNat (pgoff_index2fd i)
  apply eq_of_toNat_eq
  rw [pgoff_toNat, ofNat_eq_ofNat, toNat_ofNat] at h ⊢
  rw [fd2data_index2fd_toNat]
  omega

theorem index2fd_lt_utop (h : IsFd i) : ¬ utop ≤ index2fd i := by
  have hi : i.toNat < 32 := h
  rw [BitVec.not_le, lt_def, index2fd_toNat h]
  show _ < 0x8000800000
  omega

theorem fd2data_lt_utop (h : IsFd i) : ¬ utop ≤ fd2data (index2fd i) := by
  have hi : i.toNat < 32 := h
  rw [BitVec.not_le, lt_def, fd2data_index2fd_toNat, index2fd_toNat h]
  show _ < 0x8000800000
  omega

theorem index2fd_ne (hi : IsFd i) (hj : IsFd j) (hne : i ≠ j) : index2fd i ≠ index2fd j := by
  intro h
  have h := congrArg BitVec.toNat h
  rw [index2fd_toNat hi, index2fd_toNat hj] at h
  exact hne (eq_of_toNat_eq (by omega))

theorem index2fd_ne_fd2data (hi : IsFd i) (hj : IsFd j) : index2fd i ≠ fd2data (index2fd j) := by
  have hi' : i.toNat < 32 := hi
  intro h
  have h := congrArg BitVec.toNat h
  rw [fd2data_index2fd_toNat, index2fd_toNat hi, index2fd_toNat hj] at h
  omega

theorem fd2data_ne (hi : IsFd i) (hj : IsFd j) (hne : i ≠ j) :
    fd2data (index2fd i) ≠ fd2data (index2fd j) := by
  intro h
  have h := congrArg BitVec.toNat h
  rw [fd2data_index2fd_toNat, fd2data_index2fd_toNat, index2fd_toNat hi, index2fd_toNat hj] at h
  exact hne (eq_of_toNat_eq (by omega))

theorem isFd_iff : (i.slt 0 || maxfd.sle i) = false ↔ IsFd i := by
  rw [IsFd, maxfd, BitVec.slt, BitVec.sle, Bool.or_eq_false_iff, decide_eq_false_iff_not,
    decide_eq_false_iff_not, toInt_eq_toNat_cond]
  have h32 : (32#32).toInt = 32 := by decide
  have h0 : (0 : BitVec 32).toInt = 0 := by decide
  split <;> omega

end slots

namespace FdSpace

variable {s s' : FdSpace} {va va' : Word} {old new i : BitVec 32} {mem mem₁ mem₂ : Bool}

/-! ### The system calls at the slots -/

theorem setPte_self (s : FdSpace) (va : Word) (o : Option UserPte) : (s.setPte va o).pte va = o :=
  update_self ..

theorem setPte_of_ne (h : va' ≠ va) (o : Option UserPte) : (s.setPte va o).pte va' = s.pte va' :=
  update_of_ne h ..

theorem sysPageUnmap_of_le (s : FdSpace) (h : utop ≤ va) : s.sysPageUnmap va = s :=
  if_pos (.inl h)

theorem sysPageUnmap_eq (s : FdSpace) (h : ¬ utop ≤ va) (hoff : pgoff va = 0) :
    s.sysPageUnmap va = s.setPte va none :=
  if_neg (not_or.mpr ⟨h, not_not.mpr hoff⟩)

theorem sysPageUnmap_of_ne (h : va' ≠ va) : (s.sysPageUnmap va).pte va' = s.pte va' := by
  rw [sysPageUnmap]
  split
  · rfl
  · exact setPte_of_ne h none

theorem sysPageUnmap_none (s : FdSpace) (va : Word) (h : s.pte va' = none) :
    (s.sysPageUnmap va).pte va' = none := by
  by_cases heq : va' = va
  · subst heq
    rw [sysPageUnmap]
    split
    · exact h
    · exact setPte_self s _ none
  · rw [sysPageUnmap_of_ne heq, h]

/-- A page is mapped with its own permissions: that fails only for the address or for memory. -/
theorem sysPageMap_eq_ok_iff (hva : ¬ utop ≤ va) (hoff : pgoff va = 0) (hoff' : pgoff va' = 0) :
    s.sysPageMap mem va va' (s.perm va &&& pteSyscall) = .ok s' ↔
      ∃ e, s.pte va = some e ∧ ¬ utop ≤ va' ∧ mem = true ∧ s' = s.setPte va' (some e.shared) := by
  rw [sysPageMap]
  by_cases hle : utop ≤ va'
  · rw [if_pos (.inr (.inr (.inl hle)))]
    exact ⟨nofun, fun ⟨_, _, h, _⟩ => absurd hle h⟩
  rw [if_neg (by simp only [hva, hoff, hoff', hle]; decide)]
  cases he : s.pte va with
  | none => exact ⟨nofun, nofun⟩
  | some e =>
    have hperm : s.perm va = e.perm := by rw [perm, he]
    have hsys : e.perm &&& pteSyscall &&& ~~~pteSyscall = 0 := by
      rw [BitVec.and_assoc, BitVec.and_not_self]
      exact and_zero
    have hw : ¬ (e.perm &&& pteSyscall &&& 0x002#12 ≠ 0 ∧ e.perm &&& 0x002#12 = 0) := by
      rintro ⟨hne, h0⟩
      rw [BitVec.and_assoc, BitVec.and_comm pteSyscall, ← BitVec.and_assoc, h0] at hne
      exact hne (zero_and ..)
    dsimp only
    rw [hperm, dif_pos ⟨e.shared.user, hsys⟩, if_neg hw]
    cases mem with
    | false => exact ⟨nofun, nofun⟩
    | true =>
      refine ⟨fun h => ⟨e, rfl, hle, rfl, (Except.ok.inj h).symm⟩, ?_⟩
      rintro ⟨_, ⟨⟩, -, -, rfl⟩
      rfl

/-! ### Opening and closing -/

/-- The descriptor `i` is open. -/
def Open (s : FdSpace) (i : BitVec 32) : Prop := IsFd i ∧ s.pte (index2fd i) ≠ none

theorem fdLookup_open (h : s.Open i) : s.fdLookup i = .ok (index2fd i) := by
  rw [fdLookup, isFd_iff.mpr h.1]
  cases hp : s.pte (index2fd i) with
  | none => exact absurd hp h.2
  | some e => rfl

theorem fdLookup_not_open (h : ¬ s.Open i) : s.fdLookup i = .error .inval := by
  rw [fdLookup]
  cases hfd : i.slt 0 || maxfd.sle i with
  | true => rfl
  | false =>
    cases hp : s.pte (index2fd i) with
    | none => rfl
    | some e => exact absurd ⟨isFd_iff.mp hfd, hp ▸ Option.some_ne_none e⟩ h

theorem close_not_open (h : ¬ s.Open i) : s.close i = s := by
  rw [close, fdLookup_not_open h]

theorem close_open (h : s.Open i) :
    s.close i = (s.devClose (index2fd i)).sysPageUnmap (index2fd i) := by
  have hnum : (fd2num (index2fd i)).setWidth 32 = i := by
    apply eq_of_toNat_eq
    rw [fd2num, toNat_setWidth, toNat_udiv, toNat_sub_of_le, index2fd_toNat h.1]
    · show (_ - 0xD0000000) / 4096 % _ = _
      omega
    · rw [le_def, index2fd_toNat h.1]
      exact Nat.le_add_right ..
  rw [close, fdLookup_open h]
  dsimp only
  rw [fdClose, hnum, fdLookup_open h]
  exact if_neg (not_not.mpr rfl)

section

variable (h : va ≠ index2fd i) (h' : va ≠ fd2data (index2fd i))
include h h'

theorem devClose_of_ne : (s.devClose (index2fd i)).pte va = s.pte va := by
  rw [devClose]
  split
  · rfl
  · split
    · rw [devpipeClose, sysPageUnmap_of_ne h', sysPageUnmap_of_ne h]
    · rfl

theorem close_of_ne : (s.close i).pte va = s.pte va := by
  by_cases hopen : s.Open i
  · rw [close_open hopen, sysPageUnmap_of_ne h, devClose_of_ne h h']
  · rw [close_not_open hopen]

end

theorem close_fd (h : IsFd i) : (s.close i).pte (index2fd i) = none := by
  by_cases hopen : s.Open i
  · rw [close_open hopen, sysPageUnmap_eq _ (index2fd_lt_utop h) (pgoff_index2fd i), setPte_self]
  · rw [close_not_open hopen]
    by_contra hne
    exact hopen ⟨h, hne⟩

/-! ### The pages of `dup` -/

theorem dupErr_of_ne {fd nva : Word} (h : va ≠ fd) (h' : va ≠ nva) :
    (s.dupErr fd nva).pte va = s.pte va := by
  rw [dupErr, sysPageUnmap_of_ne h', sysPageUnmap_of_ne h]

/-- What has been mapped at the data slot is unmapped again. -/
theorem dupErr_setPte {fd nva : Word} (o : Option UserPte) (hnva : ¬ utop ≤ nva)
    (hoff : pgoff nva = 0) : (s.setPte nva o).dupErr fd nva = s.dupErr fd nva := by
  have hunmap : ∀ t : FdSpace, t.sysPageUnmap nva = t.setPte nva none :=
    fun t => t.sysPageUnmap_eq hnva hoff
  have hidem : ∀ t : FdSpace, (t.setPte nva o).setPte nva none = t.setPte nva none := by
    intro t
    simp only [setPte, update_idem]
  rw [dupErr, dupErr, hunmap, hunmap, sysPageUnmap, sysPageUnmap]
  split
  · exact hidem s
  · by_cases heq : fd = nva
    · subst heq
      simp only [setPte, update_idem]
    · simp only [setPte]
      rw [update_comm heq, update_idem, update_comm heq]

theorem dupData_eq_ok (hold : IsFd old)
    (hrun : s.dupData mem (fd2data (index2fd old)) (fd2data (index2fd new)) = .ok s') :
    s.pte (fd2data (index2fd old)) = none ∧ s' = s ∨
    ∃ e, s.pte (fd2data (index2fd old)) = some e ∧ ¬ utop ≤ fd2data (index2fd new) ∧
      s' = s.setPte (fd2data (index2fd new)) (some e.shared) := by
  rw [dupData] at hrun
  cases he : s.pte (fd2data (index2fd old)) with
  | none =>
    rw [he] at hrun
    exact .inl ⟨rfl, (Except.ok.inj hrun).symm⟩
  | some e =>
    rw [he] at hrun
    obtain ⟨e', he', hle, -, hs'⟩ := (sysPageMap_eq_ok_iff (fd2data_lt_utop hold)
      (pgoff_fd2data old) (pgoff_fd2data new)).mp hrun
    rw [he] at he'
    obtain rfl := Option.some.inj he'
    exact .inr ⟨e, rfl, hle, hs'⟩

/-- **What the mappings of `dup` do**: an error undoes them, and success has made both. -/
theorem dupPages_cases (s : FdSpace) (mem₁ mem₂ : Bool) (hold : IsFd old) (new : BitVec 32) :
    (∃ r, s.dupPages mem₁ mem₂ (index2fd old) (index2fd new) =
      (.error r, s.dupErr (index2fd new) (fd2data (index2fd new)))) ∨
    ∃ s1 e, s.dupData mem₁ (fd2data (index2fd old)) (fd2data (index2fd new)) = .ok s1 ∧
      s1.pte (index2fd old) = some e ∧ ¬ utop ≤ index2fd new ∧ mem₂ = true ∧
      s.dupPages mem₁ mem₂ (index2fd old) (index2fd new) =
        (.ok (), s1.setPte (index2fd new) (some e.shared)) := by
  rw [dupPages]
  cases hdata : s.dupData mem₁ (fd2data (index2fd old)) (fd2data (index2fd new)) with
  | error r => exact .inl ⟨r, rfl⟩
  | ok s1 =>
    dsimp only
    cases hmap : s1.sysPageMap mem₂ (index2fd old) (index2fd new)
        (s1.perm (index2fd old) &&& pteSyscall) with
    | error r =>
      refine .inl ⟨r, ?_⟩
      obtain ⟨-, rfl⟩ | ⟨e, -, hle, rfl⟩ := dupData_eq_ok hold hdata
      · rfl
      · dsimp only
        rw [dupErr_setPte _ hle (pgoff_fd2data new)]
    | ok s2 =>
      obtain ⟨e, he, hle, hmem, rfl⟩ := (sysPageMap_eq_ok_iff (index2fd_lt_utop hold)
        (pgoff_index2fd old) (pgoff_index2fd new)).mp hmap
      exact .inr ⟨s1, e, rfl, he, hle, hmem, rfl⟩

/-! ### When `dup` is safe -/

/-- The page that `va` maps. -/
def page (s : FdSpace) (va : Word) : Option Nat := (s.pte va).map UserPte.page

/-- In `s'` the descriptor `i` refers to the `Fd` page that `old` has in `s`, and to its data page
if it has one. -/
def Refers (s s' : FdSpace) (old i : BitVec 32) : Prop :=
  s'.page (index2fd i) = s.page (index2fd old) ∧
  (s.pte (fd2data (index2fd old)) ≠ none →
    s'.page (fd2data (index2fd i)) = s.page (fd2data (index2fd old)))

/-- What `dup(old, new)` is to do, when it returns `res.1` and leaves `res.2`. -/
structure DupSafe (s : FdSpace) (old new : BitVec 32) (res : Int × FdSpace) : Prop where
  answer : res.1 < 0 ∨
    res.1 = new.toInt ∧ IsFd new ∧ s.Refers res.2 old old ∧ s.Refers res.2 old new
  stays_open : s.Open old → res.2.Open old
  frame : ∀ va, ¬ (IsFd new ∧ (va = index2fd new ∨ va = fd2data (index2fd new))) →
    res.2.pte va = s.pte va

/-- For a `new` that is no descriptor, one of the mappings is refused for its address, and `dup`
finds nothing there that its error path could unmap. -/
def DupRefused (s : FdSpace) (old new : BitVec 32) : Prop :=
  (utop ≤ index2fd new ∨
    s.pte (fd2data (index2fd old)) ≠ none ∧ utop ≤ fd2data (index2fd new)) ∧
  (utop ≤ index2fd new ∨ s.pte (index2fd new) = none) ∧
  (utop ≤ fd2data (index2fd new) ∨ s.pte (fd2data (index2fd new)) = none)

theorem dup_open (h : s.Open old) (mem₁ mem₂ : Bool) (new : BitVec 32) :
    (∃ r : Err, s.dup mem₁ mem₂ old new =
      (r.code, (s.close new).dupErr (index2fd new) (fd2data (index2fd new)))) ∨
    ∃ s1 e, (s.close new).dupData mem₁ (fd2data (index2fd old)) (fd2data (index2fd new)) = .ok s1 ∧
      s1.pte (index2fd old) = some e ∧ ¬ utop ≤ index2fd new ∧ mem₂ = true ∧
      s.dup mem₁ mem₂ old new = (new.toInt, s1.setPte (index2fd new) (some e.shared)) := by
  rw [dup, fdLookup_open h]
  dsimp only
  obtain ⟨r, hr⟩ | ⟨s1, e, hdata, he, hle, hmem, hok⟩ :=
    (s.close new).dupPages_cases mem₁ mem₂ h.1 new
  · exact .inl ⟨r, by rw [hr]⟩
  · exact .inr ⟨s1, e, hdata, he, hle, hmem, by rw [hok]⟩

theorem dup_of_ne (mem₁ mem₂ : Bool) (h : va ≠ index2fd new) (h' : va ≠ fd2data (index2fd new)) :
    (s.dup mem₁ mem₂ old new).2.pte va = s.pte va := by
  by_cases hopen : s.Open old
  · obtain ⟨r, hr⟩ | ⟨s1, e, hdata, -, -, -, hok⟩ := dup_open hopen mem₁ mem₂ new
    · rw [hr, dupErr_of_ne h h', close_of_ne h h']
    · rw [hok, setPte_of_ne h]
      obtain ⟨-, rfl⟩ | ⟨e, -, -, rfl⟩ := dupData_eq_ok hopen.1 hdata
      · exact close_of_ne h h'
      · rw [setPte_of_ne h', close_of_ne h h']
  · rw [dup, fdLookup_not_open hopen]

/-- Two descriptors: whatever the mappings do, `dup` is safe. -/
theorem dupSafe_of_ne (hopen : s.Open old) (hnew : IsFd new) (hne : new ≠ old)
    (mem₁ mem₂ : Bool) : s.DupSafe old new (s.dup mem₁ mem₂ old new) := by
  have hold := hopen.1
  have hfd : index2fd old ≠ index2fd new := index2fd_ne hold hnew hne.symm
  have hfd' : index2fd old ≠ fd2data (index2fd new) := index2fd_ne_fd2data hold hnew
  have hdat : fd2data (index2fd old) ≠ index2fd new := (index2fd_ne_fd2data hnew hold).symm
  have hdat' : fd2data (index2fd old) ≠ fd2data (index2fd new) := fd2data_ne hold hnew hne.symm
  have hkeep : (s.dup mem₁ mem₂ old new).2.pte (index2fd old) = s.pte (index2fd old) :=
    dup_of_ne mem₁ mem₂ hfd hfd'
  have hkeep' : (s.dup mem₁ mem₂ old new).2.pte (fd2data (index2fd old)) =
      s.pte (fd2data (index2fd old)) := dup_of_ne mem₁ mem₂ hdat hdat'
  refine ⟨?_, fun _ => ⟨hold, hkeep ▸ hopen.2⟩, fun va hva => ?_⟩
  · obtain ⟨r, hr⟩ | ⟨s1, e, hdata, he, -, -, hok⟩ := dup_open hopen mem₁ mem₂ new
    · rw [hr]
      exact .inl r.code_neg
    · refine .inr ⟨by rw [hok], hnew, ⟨congrArg _ hkeep, fun _ => congrArg _ hkeep'⟩, ?_⟩
      have hclose : (s.close new).pte (index2fd old) = s.pte (index2fd old) := close_of_ne hfd hfd'
      have hclose' : (s.close new).pte (fd2data (index2fd old)) = s.pte (fd2data (index2fd old)) :=
        close_of_ne hdat hdat'
      have hfdNew : index2fd new ≠ fd2data (index2fd new) := index2fd_ne_fd2data hnew hnew
      rw [hok]
      obtain ⟨hnone, rfl⟩ | ⟨d, hd, -, rfl⟩ := dupData_eq_ok hold hdata
      · rw [hclose] at he
        rw [hclose'] at hnone
        refine ⟨?_, fun h => absurd hnone h⟩
        rw [page, page, setPte_self, he]
        rfl
      · rw [setPte_of_ne hfd', hclose] at he
        rw [hclose'] at hd
        refine ⟨?_, fun _ => ?_⟩
        · rw [page, page, setPte_self, he]
          rfl
        · rw [page, page, setPte_of_ne hfdNew.symm, setPte_self, hd]
          rfl
  · refine dup_of_ne mem₁ mem₂ ?_ ?_
    · exact fun h => hva ⟨hnew, .inl h⟩
    · exact fun h => hva ⟨hnew, .inr h⟩

/-- `dup(i, i)` closes the descriptor and cannot map it again. -/
theorem dup_self (hopen : s.Open i) (mem₁ mem₂ : Bool) : ¬ (s.dup mem₁ mem₂ i i).2.Open i := by
  have hi := hopen.1
  have hne : index2fd i ≠ fd2data (index2fd i) := index2fd_ne_fd2data hi hi
  rintro ⟨-, hfd⟩
  obtain ⟨r, hr⟩ | ⟨s1, e, hdata, he, -⟩ := dup_open hopen mem₁ mem₂ i
  · rw [hr, dupErr, sysPageUnmap_of_ne hne, sysPageUnmap_eq _ (index2fd_lt_utop hi)
      (pgoff_index2fd i)] at hfd
    exact hfd (setPte_self ..)
  · obtain ⟨-, rfl⟩ | ⟨d, -, -, rfl⟩ := dupData_eq_ok hi hdata
    · rw [close_fd hi] at he
      cases he
    · rw [setPte_of_ne hne, close_fd hi] at he
      cases he

/-- Where there is no memory, `dup` fails and unmaps what is at the slots of `new`. -/
theorem dup_no_mem (hopen : s.Open old) (hnew : ¬ IsFd new) :
    (s.dup false false old new).2 = s.dupErr (index2fd new) (fd2data (index2fd new)) := by
  have hclose : s.close new = s := close_not_open fun h => hnew h.1
  obtain ⟨r, hr⟩ | ⟨s1, e, -, -, -, hmem, -⟩ := dup_open hopen false false new
  · rw [hr, hclose]
  · cases hmem

theorem dupErr_eq_iff (s : FdSpace) (new : BitVec 32) :
    (∀ va, (s.dupErr (index2fd new) (fd2data (index2fd new))).pte va = s.pte va) ↔
      (utop ≤ index2fd new ∨ s.pte (index2fd new) = none) ∧
      (utop ≤ fd2data (index2fd new) ∨ s.pte (fd2data (index2fd new)) = none) := by
  have hmapped : ∀ {t : FdSpace} {va : Word}, pgoff va = 0 →
      (utop ≤ va ∨ t.pte va = none) → t.sysPageUnmap va = t := by
    rintro t va hoff (hle | hnone)
    · exact t.sysPageUnmap_of_le hle
    · rw [sysPageUnmap]
      split
      · rfl
      · rw [setPte, ← hnone, update_eq_self]
  constructor
  · intro h
    constructor
    · by_cases hle : utop ≤ index2fd new
      · exact .inl hle
      · right
        rw [← h, dupErr]
        refine sysPageUnmap_none _ _ ?_
        rw [sysPageUnmap_eq s hle (pgoff_index2fd new), setPte_self]
    · by_cases hle : utop ≤ fd2data (index2fd new)
      · exact .inl hle
      · right
        rw [← h, dupErr, sysPageUnmap_eq _ hle (pgoff_fd2data new), setPte_self]
  · rintro ⟨hfd, hdata⟩ va
    rw [dupErr, hmapped (pgoff_index2fd new) hfd, hmapped (pgoff_fd2data new) hdata]

section

variable (hopen : s.Open old) (hnew : ¬ IsFd new)
include hopen hnew

theorem dupSafe_of_refused (h : s.DupRefused old new) (mem₁ mem₂ : Bool) :
    s.DupSafe old new (s.dup mem₁ mem₂ old new) := by
  obtain ⟨hrefused, hempty⟩ := h
  have hclose : s.close new = s := close_not_open fun h => hnew h.1
  obtain ⟨r, hr⟩ | ⟨s1, e, hdata, -, hle, -⟩ := dup_open hopen mem₁ mem₂ new
  · have hkeep := (s.dupErr_eq_iff new).mpr hempty
    rw [hr, hclose]
    refine ⟨.inl r.code_neg, fun _ => ⟨hopen.1, ?_⟩, fun va _ => hkeep va⟩
    exact (hkeep _).symm ▸ hopen.2
  · rw [hclose] at hdata
    obtain hle' | ⟨hmapped, hle'⟩ := hrefused
    · exact absurd hle' hle
    · obtain ⟨hnone, -⟩ | ⟨d, -, hlt, -⟩ := dupData_eq_ok hopen.1 hdata
      · exact absurd hnone hmapped
      · exact absurd hle' hlt

/-- Where nothing refuses it, `dup` maps the `Fd` page at `INDEX2FD(new)`. -/
theorem dup_maps (hfd : ¬ utop ≤ index2fd new)
    (hdata : s.pte (fd2data (index2fd old)) = none ∨ ¬ utop ≤ fd2data (index2fd new))
    (hempty : utop ≤ fd2data (index2fd new) ∨ s.pte (fd2data (index2fd new)) = none) :
    (s.dup true true old new).2.pte (index2fd new) ≠ none := by
  have hclose : s.close new = s := close_not_open fun h => hnew h.1
  obtain ⟨e, he⟩ := Option.ne_none_iff_exists'.mp hopen.2
  have hdup : ∃ s1, s.dupData true (fd2data (index2fd old)) (fd2data (index2fd new)) = .ok s1 ∧
      s1.pte (index2fd old) = some e := by
    rw [dupData]
    cases hd : s.pte (fd2data (index2fd old)) with
    | none => exact ⟨s, rfl, he⟩
    | some d =>
      have hlt : ¬ utop ≤ fd2data (index2fd new) := by
        refine hdata.resolve_left ?_
        rw [hd]
        exact nofun
      have hne : index2fd old ≠ fd2data (index2fd new) := by
        intro heq
        rw [heq, hempty.resolve_left hlt] at he
        cases he
      refine ⟨s.setPte (fd2data (index2fd new)) (some d.shared), ?_, ?_⟩
      · exact (sysPageMap_eq_ok_iff (fd2data_lt_utop hopen.1) (pgoff_fd2data old)
          (pgoff_fd2data new)).mpr ⟨d, hd, hlt, rfl, rfl⟩
      · rw [setPte_of_ne hne, he]
  obtain ⟨s1, hs1, he1⟩ := hdup
  have hmap : s1.sysPageMap true (index2fd old) (index2fd new)
      (s1.perm (index2fd old) &&& pteSyscall) = .ok (s1.setPte (index2fd new) (some e.shared)) :=
    (sysPageMap_eq_ok_iff (index2fd_lt_utop hopen.1) (pgoff_index2fd old)
      (pgoff_index2fd new)).mpr ⟨e, he1, hfd, rfl, rfl⟩
  rw [dup, fdLookup_open hopen]
  dsimp only
  rw [hclose, dupPages, hs1]
  dsimp only
  rw [hmap]
  rw [setPte_self]
  exact Option.some_ne_none _

theorem refused_of_dupSafe (h : ∀ mem₁ mem₂, s.DupSafe old new (s.dup mem₁ mem₂ old new)) :
    s.DupRefused old new := by
  have hframe : ∀ mem₁ mem₂ va, (s.dup mem₁ mem₂ old new).2.pte va = s.pte va :=
    fun mem₁ mem₂ va => (h mem₁ mem₂).frame va fun hslot => hnew hslot.1
  have hempty := (s.dupErr_eq_iff new).mp fun va => by
    rw [← dup_no_mem hopen hnew, hframe]
  refine ⟨?_, hempty⟩
  by_contra hnot
  obtain ⟨hfd, hdata⟩ := not_or.mp hnot
  refine dup_maps hopen hnew hfd ?_ hempty.2 ?_
  · obtain hdata | hdata := Classical.not_and_iff_not_or_not.mp hdata
    · exact .inl (not_not.mp hdata)
    · exact .inr hdata
  · rw [hframe]
    exact hempty.1.resolve_left hfd

end

/-- **When `dup` is safe**, whatever memory there is: `old` is closed, or `new` is another
descriptor, or the mappings are refused for their addresses and nothing is unmapped. -/
theorem dup_safe_iff (s : FdSpace) (old new : BitVec 32) :
    (∀ mem₁ mem₂, s.DupSafe old new (s.dup mem₁ mem₂ old new)) ↔
      ¬ s.Open old ∨ (IsFd new ∧ new ≠ old) ∨ (¬ IsFd new ∧ s.DupRefused old new) := by
  constructor
  · intro h
    by_cases hopen : s.Open old
    · right
      by_cases hnew : IsFd new
      · refine .inl ⟨hnew, ?_⟩
        rintro rfl
        exact dup_self hopen true true ((h true true).stays_open hopen)
      · exact .inr ⟨hnew, refused_of_dupSafe hopen hnew h⟩
    · exact .inl hopen
  · intro h mem₁ mem₂
    by_cases hopen : s.Open old
    · obtain ⟨hnew, hne⟩ | ⟨hnew, hrefused⟩ := h.resolve_left (not_not.mpr hopen)
      · exact dupSafe_of_ne hopen hnew hne mem₁ mem₂
      · exact dupSafe_of_refused hopen hnew hrefused mem₁ mem₂
    · rw [dup, fdLookup_not_open hopen]
      exact ⟨.inl (Err.code_neg .inval), fun h => absurd h hopen, fun _ _ => rfl⟩

/-- An environment with the console as its descriptor 0. -/
def console : FdSpace where
  pte va := if va = index2fd 0 then some ⟨1, 0x007#12, by decide⟩ else none
  fdDevId _ := 0x63#32

/-- `dup(0, 0)` closes the descriptor and fails. -/
theorem dup_self_closes : console.Open 0 ∧ (console.dup true true 0 0).1 = -3 ∧
    ¬ (console.dup true true 0 0).2.Open 0 ∧
    ¬ console.DupSafe 0 0 (console.dup true true 0 0) := by
  have hopen : console.Open 0 := ⟨show 0 < 32 by decide, by simp [console]⟩
  have hclosed : ¬ (console.dup true true 0 0).2.Open 0 := dup_self hopen true true
  exact ⟨hopen, by decide, hclosed, fun h => hclosed (h.stays_open hopen)⟩

end FdSpace
end JosVmm
