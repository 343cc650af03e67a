import Mathlib.Tactic.DeriveFintype
import JosVmm.Machine.Kernel
import JosVmm.Support.Counting

/-!
# User library — the ends of a pipe

Each descriptor of an environment has two pages, its `struct Fd` and its data.  The two ends of a
pipe are two `Fd` pages over one data page, and a pipe counts as closed when its data page is
mapped as often as the `Fd` page of one end (`_pipeisclosed`).

Here any environments map and unmap these pages in the steps of `dup` and `close`, on the one
processor that runs environments, and are interrupted between any two of them.  `dup` maps the data
page before the `Fd` page, and `close` unmaps it after, so wherever an end is mapped the data page
is mapped beside it (`PipePages.Inv`).  Hence the data page is mapped at least as often as both
ends together, and where it is mapped as often as one of them the other one is mapped nowhere
(`pipeisclosed_sound`).

The system calls are those that `kern/syscall.c` documents: `sys_page_map` replaces what is mapped
at the destination, or fails and changes nothing, and each keeps `pp_ref` for the pages concerned.
-/

namespace JosVmm
open Support.Counting Support.Prog Function

/-- The addresses that the descriptor `i` uses: `INDEX2FD(i)` and `INDEX2DATA(i)`. -/
inductive FdVa where
  | fd (i : Fin 32)
  | data (i : Fin 32)
  deriving DecidableEq, Fintype

/-- Where an environment is in `dup`, `close` or `_pipeisclosed`.  A `close` that `dup(old, new)`
makes goes on with `cont = some old`. -/
inductive FdCall where
  | idle
  /-- The two steps of `devpipe_close`. -/
  | unmapFd (i : Fin 32) (cont : Option (Fin 32))
  | unmapData (i : Fin 32) (cont : Option (Fin 32))
  /-- The last step of `fd_close`. -/
  | unmapAgain (i : Fin 32) (cont : Option (Fin 32))
  | mapData (old new : Fin 32)
  | mapFd (old new : Fin 32)
  /-- The error path of `dup`. -/
  | errFd (new : Fin 32)
  | errData (new : Fin 32)
  /-- `n = thisenv->env_runs`, `pageref(fd)`, `pageref(p)` and `nn = thisenv->env_runs`. -/
  | readRuns (i : Fin 32)
  | readFd (i : Fin 32) (n : Nat)
  | readData (i : Fin 32) (n a : Nat)
  | readAgain (i : Fin 32) (n a b : Nat)
  deriving DecidableEq

/-- The descriptor pages of all environments, and what each of them is doing. -/
structure FdSys where
  pte : EnvIx × FdVa → Option Nat
  ppRef : Nat → BitVec 16
  /-- The `Fd` pages that belong to the device `devpipe`. -/
  devpipe : Nat → Bool
  /-- The environment that runs. -/
  cur : EnvIx
  envRuns : EnvIx → Nat
  call : EnvIx → FdCall

namespace FdSys

variable {s s' : FdSys} {e e' : EnvIx} {va : FdVa} {q r : Nat}

/-! ### System calls -/

/-- `sys_page_unmap(0, va)` in the environment `e`. -/
def sysPageUnmap (s : FdSys) (e : EnvIx) (va : FdVa) : FdSys :=
  match s.pte (e, va) with
  | none => s
  | some q => { s with
      pte := update s.pte (e, va) none
      ppRef := update s.ppRef q (s.ppRef q - 1#16) }

/-- The page `q` is mapped at `va`, and replaces what was there. -/
def pageInsert (s : FdSys) (e : EnvIx) (va : FdVa) (q : Nat) : FdSys :=
  let s₁ := { s with ppRef := update s.ppRef q (s.ppRef q + 1#16) }
  let s₂ := s₁.sysPageUnmap e va
  { s₂ with pte := update s₂.pte (e, va) (some q) }

/-- `sys_page_map(0, src, 0, dst, perm)` in the environment `e`; `ok` says that there is memory
for it. -/
def sysPageMap (s : FdSys) (ok : Bool) (e : EnvIx) (src dst : FdVa) : Option FdSys :=
  match s.pte (e, src) with
  | none => none
  | some q => if ok then some (s.pageInsert e dst q) else none

/-- `pageref(va)`. -/
def pageref (s : FdSys) (e : EnvIx) (va : FdVa) : Nat :=
  match s.pte (e, va) with
  | none => 0
  | some q => (s.ppRef q).toNat

/-! ### A new pipe -/

/-- `fd_alloc`. -/
def fdAlloc (s : FdSys) (e : EnvIx) : Option (Fin 32) :=
  (List.finRange 32).find? fun i => (s.pte (e, .fd i)).isNone

/-- `pipe(pfd)`, for which `sys_page_alloc` finds the pages `q₀`, `q₁` and `q₂`, if any, and `ok` is
the outcome of `sys_page_map`. -/
def pipe (s : FdSys) (e : EnvIx) (q₀ q₁ q₂ : Option Nat) (ok : Bool) :
    Option (Fin 32 × Fin 32) × FdSys :=
  match s.fdAlloc e, q₀ with
  | some fd₀, some a =>
    let s₁ := s.pageInsert e (.fd fd₀) a
    match s₁.fdAlloc e, q₁ with
    | some fd₁, some b =>
      let s₂ := s₁.pageInsert e (.fd fd₁) b
      match q₂ with
      | some c =>
        let s₃ := s₂.pageInsert e (.data fd₀) c
        match s₃.sysPageMap ok e (.data fd₀) (.data fd₁) with
        | some s₄ => (some (fd₀, fd₁), { s₄ with
            devpipe := update (update s₄.devpipe a true) b true })
        | none => (none, ((s₃.sysPageUnmap e (.data fd₀)).sysPageUnmap e (.fd fd₁)).sysPageUnmap
            e (.fd fd₀))
      | none => (none, (s₂.sysPageUnmap e (.fd fd₁)).sysPageUnmap e (.fd fd₀))
    | _, _ => (none, s₁.sysPageUnmap e (.fd fd₀))
  | _, _ => (none, s)

/-! ### The calls -/

def setCall (s : FdSys) (e : EnvIx) (c : FdCall) : FdSys :=
  { s with call := update s.call e c }

/-- What follows `close(i)`. -/
def afterClose (i : Fin 32) : Option (Fin 32) → FdCall
  | none => .idle
  | some old => .mapData old i

/-- `close(i)` up to its first system call. -/
def close (s : FdSys) (e : EnvIx) (i : Fin 32) (cont : Option (Fin 32)) : FdCall :=
  match s.pte (e, .fd i) with
  | none => afterClose i cont
  | some q => if s.devpipe q then .unmapFd i cont else .unmapAgain i cont

/-- `dup(old, new)` up to its first system call. -/
def dup (s : FdSys) (e : EnvIx) (old new : Fin 32) : FdCall :=
  match s.pte (e, .fd old) with
  | none => .idle
  | some _ => s.close e new (some old)

/-- `pipeisclosed(i)` up to the loop of `_pipeisclosed`. -/
def pipeisclosed (s : FdSys) (e : EnvIx) (i : Fin 32) : FdCall :=
  match s.pte (e, .fd i) with
  | none => .idle
  | some _ => .readRuns i

/-- One step of the environment `e`; `ok` is the outcome of a `sys_page_map`. -/
def step (s : FdSys) (ok : Bool) (e : EnvIx) : FdSys :=
  match s.call e with
  | .idle => s
  | .unmapFd i cont => (s.sysPageUnmap e (.fd i)).setCall e (.unmapData i cont)
  | .unmapData i cont => (s.sysPageUnmap e (.data i)).setCall e (.unmapAgain i cont)
  | .unmapAgain i cont => (s.sysPageUnmap e (.fd i)).setCall e (afterClose i cont)
  | .mapData old new =>
    match s.pte (e, .data old) with
    | none => s.setCall e (.mapFd old new)
    | some _ =>
      match s.sysPageMap ok e (.data old) (.data new) with
      | none => s.setCall e (.errFd new)
      | some s₁ => s₁.setCall e (.mapFd old new)
  | .mapFd old new =>
    match s.sysPageMap ok e (.fd old) (.fd new) with
    | none => s.setCall e (.errFd new)
    | some s₁ => s₁.setCall e .idle
  | .errFd new => (s.sysPageUnmap e (.fd new)).setCall e (.errData new)
  | .errData new => (s.sysPageUnmap e (.data new)).setCall e .idle
  | .readRuns i => s.setCall e (.readFd i (s.envRuns e))
  | .readFd i n => s.setCall e (.readData i n (s.pageref e (.fd i)))
  | .readData i n a => s.setCall e (.readAgain i n a (s.pageref e (.data i)))
  | .readAgain i n _ _ =>
    -- the counters are compared as 32 bits
    s.setCall e (if n % 2 ^ 32 = s.envRuns e % 2 ^ 32 then .idle else .readRuns i)

end FdSys

/-- What may happen next: the running environment takes a step or starts a call, or another one is
run. -/
inductive FdAct where
  | step (ok : Bool)
  | close (i : Fin 32)
  | dup (old new : Fin 32)
  | pipeisclosed (i : Fin 32)
  | switch (e : EnvIx)

/-- `dup` is called with two descriptors. -/
def FdAct.Distinct : FdAct → Prop
  | .dup old new => old ≠ new
  | _ => True

namespace FdSys

/-- A new call of the running environment, if it is in none. -/
def start (s : FdSys) (c : FdCall) : FdSys :=
  if s.call s.cur = .idle then s.setCall s.cur c else s

def act (s : FdSys) : FdAct → FdSys
  | .step ok => s.step ok s.cur
  | .close i => s.start (s.close s.cur i none)
  | .dup old new => s.start (s.dup s.cur old new)
  | .pipeisclosed i => s.start (s.pipeisclosed s.cur i)
  | .switch e =>
    if e = s.cur then s
    else { s with cur := e, envRuns := update s.envRuns e (s.envRuns e + 1) }

end FdSys

/-- One action. -/
def FdStep (s s' : FdSys) : Prop := ∃ a : FdAct, a.Distinct ∧ s' = s.act a

variable {s s' : FdSys} {e e' : EnvIx} {va : FdVa} {q r : Nat} {i : Fin 32} {o : Option Nat}
  {c : FdCall}

/-! ### Reference counts -/

namespace FdSys

/-- The page is counted once for each address that maps it. -/
def Counted (s : FdSys) (r : Nat) : Prop := s.ppRef r = BitVec.ofNat 16 (fibre s.pte r)

/-- `s'` differs from `s` in what `va` maps in the environment `e`, and in the counts. -/
structure Remapped (s s' : FdSys) (e : EnvIx) (va : FdVa) (o : Option Nat) : Prop where
  pte : s'.pte = update s.pte (e, va) o
  counted : ∀ r, s.Counted r → s'.Counted r
  cur : s'.cur = s.cur
  envRuns : s'.envRuns = s.envRuns
  call : s'.call = s.call

theorem Remapped.pte_self (h : Remapped s s' e va o) : s'.pte (e, va) = o := by
  rw [h.pte, update_self]

theorem Remapped.pte_of_ne {va' : FdVa} (h : Remapped s s' e va o) (hne : e' = e → va' ≠ va) :
    s'.pte (e', va') = s.pte (e', va') := by
  rw [h.pte, update_of_ne]
  rintro ⟨⟩
  exact hne rfl rfl

theorem Remapped.fd_eq (h : Remapped s s' e (.data i) o) (e' : EnvIx) (j : Fin 32) :
    s'.pte (e', .fd j) = s.pte (e', .fd j) :=
  h.pte_of_ne fun _ => nofun

theorem Remapped.data_eq (h : Remapped s s' e (.fd i) o) (e' : EnvIx) (j : Fin 32) :
    s'.pte (e', .data j) = s.pte (e', .data j) :=
  h.pte_of_ne fun _ => nofun

theorem Remapped.cases (h : Remapped s s' e va o) (e' : EnvIx) (va' : FdVa) :
    s'.pte (e', va') = s.pte (e', va') ∨ e' = e ∧ va' = va ∧ s'.pte (e', va') = o := by
  by_cases hne : e' = e → va' ≠ va
  · exact .inl (h.pte_of_ne hne)
  · obtain ⟨rfl, hva⟩ := Classical.not_imp.mp hne
    obtain rfl := not_not.mp hva
    exact .inr ⟨rfl, rfl, h.pte_self⟩

theorem ofNat_fibre_update (s : FdSys) (e : EnvIx) (va : FdVa) (o : Option Nat) (r : Nat) :
    BitVec.ofNat 16 (fibre (update s.pte (e, va) o) r) =
      BitVec.ofNat 16 (fibre s.pte r) + BitVec.ofNat 16 (one (o = some r)) -
        BitVec.ofNat 16 (one (s.pte (e, va) = some r)) := by
  have h := congrArg (BitVec.ofNat 16) (fibre_update s.pte (e, va) o r)
  rw [BitVec.ofNat_add, BitVec.ofNat_add] at h
  rw [← h, BitVec.add_sub_cancel]

theorem sysPageUnmap_ppRef (s : FdSys) (e : EnvIx) (va : FdVa) (r : Nat) :
    (s.sysPageUnmap e va).ppRef r =
      s.ppRef r - BitVec.ofNat 16 (one (s.pte (e, va) = some r)) := by
  rw [sysPageUnmap]
  cases h : s.pte (e, va) with
  | none => rw [one_not nofun, BitVec.sub_zero]
  | some q =>
    by_cases hq : r = q
    · subst hq
      rw [one_of rfl]
      exact update_self ..
    · rw [one_not fun e => hq (Option.some.inj e).symm, BitVec.sub_zero]
      exact update_of_ne hq ..

theorem sysPageUnmap_pte (s : FdSys) (e : EnvIx) (va : FdVa) :
    (s.sysPageUnmap e va).pte = update s.pte (e, va) none := by
  rw [sysPageUnmap]
  cases h : s.pte (e, va) with
  | none => exact (Function.update_eq_self_iff.mpr h.symm).symm
  | some q => rfl

theorem sysPageUnmap_rest (s : FdSys) (e : EnvIx) (va : FdVa) :
    (s.sysPageUnmap e va).cur = s.cur ∧ (s.sysPageUnmap e va).envRuns = s.envRuns ∧
      (s.sysPageUnmap e va).call = s.call := by
  rw [sysPageUnmap]
  split
  · exact ⟨rfl, rfl, rfl⟩
  · exact ⟨rfl, rfl, rfl⟩

theorem remapped_unmap (s : FdSys) (e : EnvIx) (va : FdVa) :
    Remapped s (s.sysPageUnmap e va) e va none := by
  obtain ⟨hcur, hruns, hcall⟩ := sysPageUnmap_rest s e va
  refine ⟨sysPageUnmap_pte s e va, fun r hr => ?_, hcur, hruns, hcall⟩
  have hnone : one ((none : Option Nat) = some r) = 0 := one_not nofun
  rw [Counted, sysPageUnmap_ppRef, sysPageUnmap_pte, ofNat_fibre_update, hr, hnone, BitVec.add_zero]

theorem pageInsert_ppRef (s : FdSys) (e : EnvIx) (va : FdVa) (q r : Nat) :
    (s.pageInsert e va q).ppRef r = s.ppRef r + BitVec.ofNat 16 (one (some q = some r)) -
      BitVec.ofNat 16 (one (s.pte (e, va) = some r)) := by
  rw [pageInsert]
  rw [sysPageUnmap_ppRef]
  by_cases hq : r = q
  · subst hq
    rw [one_of rfl]
    dsimp only
    rw [update_self]
  · rw [one_not fun e => hq (Option.some.inj e).symm]
    dsimp only
    rw [update_of_ne hq, BitVec.add_zero]

theorem remapped_insert (s : FdSys) (e : EnvIx) (va : FdVa) (q : Nat) :
    Remapped s (s.pageInsert e va q) e va (some q) := by
  have hpte : (s.pageInsert e va q).pte = update s.pte (e, va) (some q) := by
    rw [pageInsert]
    rw [sysPageUnmap_pte, update_idem]
  obtain ⟨hcur, hruns, hcall⟩ := sysPageUnmap_rest
    { s with ppRef := update s.ppRef q (s.ppRef q + 1#16) } e va
  refine ⟨hpte, fun r hr => ?_, hcur, hruns, hcall⟩
  rw [Counted, pageInsert_ppRef, hpte, ofNat_fibre_update, hr]

/-- **What a call of `pipe` has done**: the steps up to the one that failed, and their undoing. -/
theorem pipe_cases {q0 q1 q2 : Option Nat} {ok : Bool} {res : Option (Fin 32 × Fin 32)}
    (hrun : s.pipe e q0 q1 q2 ok = (res, s')) :
    res = none ∧ s' = s ∨
    ∃ i a s1, s.fdAlloc e = some i ∧ q0 = some a ∧ s1 = s.pageInsert e (.fd i) a ∧
      (res = none ∧ s' = s1.sysPageUnmap e (.fd i) ∨
      ∃ j b s2, s1.fdAlloc e = some j ∧ q1 = some b ∧ s2 = s1.pageInsert e (.fd j) b ∧
        (res = none ∧ s' = (s2.sysPageUnmap e (.fd j)).sysPageUnmap e (.fd i) ∨
        ∃ c s3, q2 = some c ∧ s3 = s2.pageInsert e (.data i) c ∧
          (res = none ∧ s' = ((s3.sysPageUnmap e (.data i)).sysPageUnmap e (.fd j)).sysPageUnmap e
            (.fd i) ∨
          ∃ s4, res = some (i, j) ∧ s4 = s3.pageInsert e (.data j) c ∧ s'.pte = s4.pte ∧
            s'.ppRef = s4.ppRef ∧ s'.call = s4.call))) := by
  unfold FdSys.pipe at hrun
  cases hi : s.fdAlloc e with
  | none =>
    rw [hi] at hrun
    cases hrun
    exact .inl ⟨rfl, rfl⟩
  | some i =>
  cases q0 with
  | none =>
    rw [hi] at hrun
    cases hrun
    exact .inl ⟨rfl, rfl⟩
  | some a =>
  refine .inr ⟨i, a, _, rfl, rfl, rfl, ?_⟩
  rw [hi] at hrun
  dsimp only at hrun
  cases hj : (s.pageInsert e (.fd i) a).fdAlloc e with
  | none =>
    rw [hj] at hrun
    cases hrun
    exact .inl ⟨rfl, rfl⟩
  | some j =>
  cases q1 with
  | none =>
    rw [hj] at hrun
    cases hrun
    exact .inl ⟨rfl, rfl⟩
  | some b =>
  refine .inr ⟨j, b, _, rfl, rfl, rfl, ?_⟩
  rw [hj] at hrun
  cases q2 with
  | none =>
    cases hrun
    exact .inl ⟨rfl, rfl⟩
  | some c =>
    refine .inr ⟨c, _, rfl, rfl, ?_⟩
    have hdata := (((s.pageInsert e (.fd i) a).pageInsert e (.fd j) b).remapped_insert e
      (.data i) c).pte_self
    dsimp only at hrun
    rw [FdSys.sysPageMap, hdata] at hrun
    cases ok with
    | false =>
      cases hrun
      exact .inl ⟨rfl, rfl⟩
    | true =>
      cases hrun
      exact .inr ⟨_, rfl, rfl, rfl, rfl, rfl⟩

end FdSys

/-! ### The pages of a pipe -/

/-- The `Fd` pages of the two ends of a pipe, and its data page. -/
structure PipePages where
  fd : Bool → Nat
  data : Nat
  ends_ne : fd false ≠ fd true
  fd_ne : ∀ x, fd x ≠ data

/-- What a call of `e` relies on in the descriptors that are mapped. -/
def FdCall.Ok (pte : EnvIx × FdVa → Option Nat) (e : EnvIx) : FdCall → Prop
  | .unmapFd i cont => cont ≠ some i
  | .unmapData i cont => cont ≠ some i ∧ pte (e, .fd i) = none
  | .unmapAgain i cont => cont ≠ some i
  | .mapData old new => old ≠ new ∧ pte (e, .fd new) = none
  | .mapFd old new => old ≠ new ∧ pte (e, .fd new) = none ∧
      ∀ q, pte (e, .data old) = some q → pte (e, .data new) = some q
  | .errData new => pte (e, .fd new) = none
  | _ => True

/-- What `_pipeisclosed` has read is true as long as the environment is not interrupted. -/
def FdCall.Seen (s : FdSys) (e : EnvIx) : FdCall → Prop
  | .readFd _ n => n ≤ s.envRuns e
  | .readData i n a => n ≤ s.envRuns e ∧ (s.cur = e → n = s.envRuns e → a = s.pageref e (.fd i))
  | .readAgain i n a b => n ≤ s.envRuns e ∧ (s.cur = e → n = s.envRuns e →
      a = s.pageref e (.fd i) ∧ b = s.pageref e (.data i))
  | _ => True

theorem FdCall.Ok.congr {pte pte' : EnvIx × FdVa → Option Nat} (h : c.Ok pte e)
    (hpte : ∀ va, pte' (e, va) = pte (e, va)) : c.Ok pte' e := by
  cases c with
  | unmapData i cont => exact ⟨h.1, (hpte _).trans h.2⟩
  | mapData old new => exact ⟨h.1, (hpte _).trans h.2⟩
  | mapFd old new =>
    exact ⟨h.1, (hpte _).trans h.2.1, fun q hq =>
      (hpte _).trans (h.2.2 q ((hpte _).symm.trans hq))⟩
  | errData new => exact (hpte _).trans h
  | _ => exact h

/-- What an environment that does not run has read stays behind. -/
theorem FdCall.Seen.other (h : c.Seen s e) (hcur : s'.cur ≠ e)
    (hruns : s.envRuns e ≤ s'.envRuns e) : c.Seen s' e := by
  cases c with
  | readFd i n => exact Nat.le_trans h hruns
  | readData i n a => exact ⟨Nat.le_trans h.1 hruns, fun hc => absurd hc hcur⟩
  | readAgain i n a b => exact ⟨Nat.le_trans h.1 hruns, fun hc => absurd hc hcur⟩
  | _ => trivial

theorem FdCall.Seen.resumed (h : c.Seen s e) (hruns : s'.envRuns e = s.envRuns e + 1) :
    c.Seen s' e := by
  cases c with
  | readFd i n =>
    change n ≤ s'.envRuns e
    rw [hruns]
    exact Nat.le_succ_of_le h
  | readData i n a =>
    have hn : n < s'.envRuns e := by rw [hruns]; exact Nat.lt_succ_of_le h.1
    exact ⟨Nat.le_of_lt hn, fun _ h' => absurd h' (Nat.ne_of_lt hn)⟩
  | readAgain i n a b =>
    have hn : n < s'.envRuns e := by rw [hruns]; exact Nat.lt_succ_of_le h.1
    exact ⟨Nat.le_of_lt hn, fun _ h' => absurd h' (Nat.ne_of_lt hn)⟩
  | _ => trivial

variable {P : PipePages}

namespace PipePages

/-- **Where an end is mapped the data page is mapped beside it.** -/
structure Maps (P : PipePages) (s : FdSys) : Prop where
  beside : ∀ e i x, s.pte (e, .fd i) = some (P.fd x) → s.pte (e, .data i) = some P.data
  fd_place : ∀ e i x, s.pte (e, .data i) ≠ some (P.fd x)
  data_place : ∀ e i, s.pte (e, .fd i) ≠ some P.data
  fd_counted : ∀ x, s.Counted (P.fd x)
  data_counted : s.Counted P.data

structure Inv (P : PipePages) (s : FdSys) : Prop where
  maps : P.Maps s
  ok : ∀ e, (s.call e).Ok s.pte e
  seen : ∀ e, (s.call e).Seen s e

/-- Environments that share a pipe, and are in no call. -/
structure Shared (P : PipePages) (s : FdSys) : Prop extends P.Maps s where
  idle : ∀ e, s.call e = .idle

theorem Shared.inv (h : P.Shared s) : P.Inv s where
  maps := h.toMaps
  ok e := by
    rw [h.idle]
    trivial
  seen e := by
    rw [h.idle]
    trivial

/-- What may be mapped at `va`. -/
def Fits (P : PipePages) (pte : EnvIx × FdVa → Option Nat) (e : EnvIx) (o : Option Nat) : FdVa → Prop
  | .fd i => (∀ x, o = some (P.fd x) → pte (e, .data i) = some P.data) ∧ o ≠ some P.data
  | .data i => (∀ x, o ≠ some (P.fd x)) ∧ ∀ x, pte (e, .fd i) = some (P.fd x) → o = some P.data

theorem Maps.remapped (h : P.Maps s) (hs : s.Remapped s' e va o) (ho : P.Fits s.pte e o va) :
    P.Maps s' := by
  have hcount := fun x => hs.counted _ (h.fd_counted x)
  cases va with
  | fd i =>
    refine ⟨fun e' j x hj => ?_, fun e' j x => hs.data_eq e' j ▸ h.fd_place e' j x,
      fun e' j => ?_, hcount, hs.counted _ h.data_counted⟩
    · rw [hs.data_eq]
      rcases hs.cases e' (.fd j) with h' | ⟨rfl, ⟨⟩, h'⟩
      · exact h.beside e' j x (h'.symm.trans hj)
      · exact ho.1 x (h'.symm.trans hj)
    · rcases hs.cases e' (.fd j) with h' | ⟨rfl, ⟨⟩, h'⟩
      · exact h' ▸ h.data_place e' j
      · exact h' ▸ ho.2
  | data i =>
    refine ⟨fun e' j x hj => ?_, fun e' j x => ?_, fun e' j => hs.fd_eq e' j ▸ h.data_place e' j,
      hcount, hs.counted _ h.data_counted⟩
    · rw [hs.fd_eq] at hj
      rcases hs.cases e' (.data j) with h' | ⟨rfl, ⟨⟩, h'⟩
      · exact h'.trans (h.beside e' j x hj)
      · exact h'.trans (ho.2 x hj)
    · rcases hs.cases e' (.data j) with h' | ⟨rfl, ⟨⟩, h'⟩
      · exact h' ▸ h.fd_place e' j x
      · exact h' ▸ ho.1 x

/-- What a call of `pipe` that succeeds has mapped. -/
theorem pipe_eq_some {a b c : Nat} {ok : Bool} {fds : Fin 32 × Fin 32}
    (hrun : s.pipe e (some a) (some b) (some c) ok = (some fds, s')) :
    ∃ s1 s2 s3 s4, s.Remapped s1 e (.fd fds.1) (some a) ∧ s1.Remapped s2 e (.fd fds.2) (some b) ∧
      s2.Remapped s3 e (.data fds.1) (some c) ∧ s3.Remapped s4 e (.data fds.2) (some c) ∧
      s'.pte = s4.pte ∧ s'.ppRef = s4.ppRef ∧ s'.call = s4.call := by
  obtain ⟨h, -⟩ | ⟨i, _, s1, -, ⟨⟩, rfl, ⟨h, -⟩ | ⟨j, _, s2, -, ⟨⟩, rfl, ⟨h, -⟩ | ⟨_, s3, ⟨⟩, rfl,
    ⟨h, -⟩ | ⟨s4, h, rfl, hpte, href, hcall⟩⟩⟩⟩ := FdSys.pipe_cases hrun
  iterate 4 cases h
  cases h
  exact ⟨_, _, _, _, s.remapped_insert .., FdSys.remapped_insert .., FdSys.remapped_insert ..,
    FdSys.remapped_insert .., hpte, href, hcall⟩

/-- **A new pipe is shared**, by its environment alone. -/
theorem pipe_shared {ok : Bool} {fds : Fin 32 × Fin 32} (hidle : ∀ e, s.call e = .idle)
    (hfd : ∀ x v, s.pte v ≠ some (P.fd x)) (hdata : ∀ v, s.pte v ≠ some P.data)
    (href : ∀ x, s.ppRef (P.fd x) = 0#16) (hdref : s.ppRef P.data = 0#16)
    (hrun : s.pipe e (some (P.fd false)) (some (P.fd true)) (some P.data) ok = (some fds, s')) :
    P.Shared s' := by
  obtain ⟨s1, s2, s3, s4, h1, h2, h3, h4, hpte, hppRef, hcall⟩ := pipe_eq_some hrun
  have hcount : ∀ q, (∀ v, s.pte v ≠ some q) → s.ppRef q = 0#16 → s'.Counted q := fun q hq h0 => by
    have hzero : fibre s.pte q = 0 := Nat.eq_zero_of_not_pos fun hpos => by
      obtain ⟨v, hv⟩ := fibre_pos_iff.mp hpos
      exact hq v hv
    have hs : s.Counted q := by rw [FdSys.Counted, h0, hzero]
    rw [FdSys.Counted, hpte, hppRef]
    exact h4.counted q (h3.counted q (h2.counted q (h1.counted q hs)))
  have hfds : ∀ e' k, s'.pte (e', .fd k) = s2.pte (e', .fd k) := fun e' k => by
    rw [hpte, h4.fd_eq, h3.fd_eq]
  have hdatas : ∀ e' k, s2.pte (e', .data k) = s.pte (e', .data k) := fun e' k => by
    rw [h2.data_eq, h1.data_eq]
  refine ⟨⟨fun e' k x hk => ?_, fun e' k x => ?_, fun e' k => ?_, fun x => hcount _ (hfd x) (href x),
    hcount _ hdata hdref⟩, fun e' => ?_⟩
  · rw [hfds] at hk
    rcases h2.cases e' (.fd k) with h' | ⟨rfl, ⟨⟩, -⟩
    · rcases h1.cases e' (.fd k) with h'' | ⟨rfl, ⟨⟩, -⟩
      · exact absurd (h''.symm.trans (h'.symm.trans hk)) (hfd x _)
      · rw [hpte]
        rcases h4.cases e' (.data fds.1) with h | ⟨-, -, h⟩
        · exact h.trans h3.pte_self
        · exact h
    · rw [hpte, h4.pte_self]
  · rw [hpte]
    rcases h4.cases e' (.data k) with h | ⟨-, -, h⟩
    · rcases h3.cases e' (.data k) with h' | ⟨-, -, h'⟩
      · rw [h, h', hdatas]
        exact hfd x _
      · rw [h, h']
        exact fun h => P.fd_ne x (Option.some.inj h).symm
    · rw [h]
      exact fun h => P.fd_ne x (Option.some.inj h).symm
  · rw [hfds]
    rcases h2.cases e' (.fd k) with h | ⟨-, -, h⟩
    · rcases h1.cases e' (.fd k) with h' | ⟨-, -, h'⟩
      · rw [h, h']
        exact hdata _
      · rw [h, h']
        exact fun h => P.fd_ne _ (Option.some.inj h)
    · rw [h]
      exact fun h => P.fd_ne _ (Option.some.inj h)
  · rw [hcall, h4.call, h3.call, h2.call, h1.call]
    exact hidle e'

/-! ### One step -/

theorem Maps.setCall (h : P.Maps s) : P.Maps (s.setCall e c) :=
  ⟨h.beside, h.fd_place, h.data_place, h.fd_counted, h.data_counted⟩

/-- **A step of the running environment**: the others keep what they rely on. -/
theorem Inv.next (h : P.Inv s) (hm : P.Maps s') (hcur : s'.cur = s.cur)
    (hruns : s'.envRuns = s.envRuns) (hcall : s'.call = update s.call s.cur c)
    (hpte : ∀ e va, e ≠ s.cur → s'.pte (e, va) = s.pte (e, va)) (hok : c.Ok s'.pte s.cur)
    (hseen : c.Seen s' s.cur) : P.Inv s' := by
  refine ⟨hm, fun e => ?_, fun e => ?_⟩
  · by_cases he : e = s.cur
    · rw [hcall, he, update_self]
      exact hok
    · rw [hcall, update_of_ne he]
      exact (h.ok e).congr fun va => hpte e va he
  · by_cases he : e = s.cur
    · rw [hcall, he, update_self]
      exact hseen
    · rw [hcall, update_of_ne he]
      exact FdCall.Seen.other (h.seen e) (hcur ▸ Ne.symm he) (by rw [hruns])

/-- A step that maps or unmaps one page. -/
theorem Inv.remap {s1 : FdSys} (h : P.Inv s) (hs : s.Remapped s1 s.cur va o)
    (ho : P.Fits s.pte s.cur o va) (hok : c.Ok s1.pte s.cur)
    (hseen : c.Seen (s1.setCall s.cur c) s.cur) : P.Inv (s1.setCall s.cur c) := by
  refine h.next (h.maps.remapped hs ho).setCall hs.cur hs.envRuns ?_ (fun e va' he => ?_) hok hseen
  · rw [FdSys.setCall, hs.call]
  · exact hs.pte_of_ne fun h' => absurd h' he

/-- A step that does neither. -/
theorem Inv.call (h : P.Inv s) (hok : c.Ok s.pte s.cur) (hseen : c.Seen (s.setCall s.cur c) s.cur) :
    P.Inv (s.setCall s.cur c) :=
  h.next h.maps.setCall rfl rfl rfl (fun _ _ _ => rfl) hok hseen

/-- An unmapped page fits anywhere but beside an end. -/
theorem fits_none (h : ∀ i, va = .data i → s.pte (e, .fd i) = none) : P.Fits s.pte e none va := by
  cases va with
  | fd i => exact ⟨nofun, nofun⟩
  | data i => exact ⟨nofun, fun x hx => by rw [h i rfl] at hx; cases hx⟩

theorem Inv.mapData {old new : Fin 32} (h : P.Inv s) (ok : Bool)
    (hc : s.call s.cur = .mapData old new) : P.Inv (s.step ok s.cur) := by
  have hcall := h.ok s.cur
  rw [hc] at hcall
  obtain ⟨hne, hfd⟩ := hcall
  rw [FdSys.step, hc]
  dsimp only
  cases hd : s.pte (s.cur, .data old) with
  | none => exact h.call ⟨hne, hfd, fun q hq => by rw [hd] at hq; cases hq⟩ trivial
  | some q =>
    rw [FdSys.sysPageMap, hd]
    cases ok with
    | false => exact h.call trivial trivial
    | true =>
      have hs := s.remapped_insert s.cur (.data new) q
      refine h.remap hs ⟨fun x => hd ▸ h.maps.fd_place s.cur old x, fun x hx => ?_⟩
        ⟨hne, ?_, fun q' hq' => ?_⟩ trivial
      · rw [hfd] at hx
        cases hx
      · exact (hs.fd_eq s.cur new).trans hfd
      · rw [hs.pte_of_ne fun _ h' => hne (FdVa.data.inj h'), hd] at hq'
        rw [hs.pte_self, hq']

theorem Inv.mapFd {old new : Fin 32} (h : P.Inv s) (ok : Bool)
    (hc : s.call s.cur = .mapFd old new) : P.Inv (s.step ok s.cur) := by
  have hcall := h.ok s.cur
  rw [hc] at hcall
  obtain ⟨-, -, hdata⟩ := hcall
  rw [FdSys.step, hc]
  dsimp only
  rw [FdSys.sysPageMap]
  cases hf : s.pte (s.cur, .fd old) with
  | none => exact h.call trivial trivial
  | some q =>
    cases ok with
    | false => exact h.call trivial trivial
    | true =>
      refine h.remap (s.remapped_insert s.cur (.fd new) q) ⟨fun x hx => ?_, ?_⟩ trivial trivial
      · -- the data page was mapped before
        exact hdata _ (h.maps.beside s.cur old x (hf.trans hx))
      · exact hf ▸ h.maps.data_place s.cur old

/-- **Every step keeps the invariant.** -/
theorem Inv.step (h : P.Inv s) (ok : Bool) : P.Inv (s.step ok s.cur) := by
  have hok := h.ok s.cur
  have hseen := h.seen s.cur
  cases hc : s.call s.cur with
  | idle =>
    rw [FdSys.step, hc]
    exact h
  | unmapFd i cont =>
    rw [hc] at hok
    rw [FdSys.step, hc]
    have hs := s.remapped_unmap s.cur (.fd i)
    exact h.remap hs (fits_none nofun) ⟨hok, hs.pte_self⟩ trivial
  | unmapData i cont =>
    rw [hc] at hok
    rw [FdSys.step, hc]
    have hs := s.remapped_unmap s.cur (.data i)
    exact h.remap hs (fits_none fun j hj => FdVa.data.inj hj ▸ hok.2) hok.1 trivial
  | unmapAgain i cont =>
    rw [hc] at hok
    rw [FdSys.step, hc]
    have hs := s.remapped_unmap s.cur (.fd i)
    refine h.remap hs (fits_none nofun) ?_ ?_
    · cases cont with
      | none => trivial
      | some old => exact ⟨fun h' => hok (congrArg some h'), hs.pte_self⟩
    · cases cont with
      | none => trivial
      | some old => trivial
  | mapData old new => exact h.mapData ok hc
  | mapFd old new => exact h.mapFd ok hc
  | errFd new =>
    rw [FdSys.step, hc]
    have hs := s.remapped_unmap s.cur (.fd new)
    exact h.remap hs (fits_none nofun) hs.pte_self trivial
  | errData new =>
    rw [hc] at hok
    rw [FdSys.step, hc]
    have hs := s.remapped_unmap s.cur (.data new)
    exact h.remap hs (fits_none fun j hj => FdVa.data.inj hj ▸ hok) trivial trivial
  | readRuns i =>
    rw [FdSys.step, hc]
    exact h.call trivial (Nat.le_refl _)
  | readFd i n =>
    rw [hc] at hseen
    rw [FdSys.step, hc]
    exact h.call trivial ⟨hseen, fun _ _ => rfl⟩
  | readData i n a =>
    rw [hc] at hseen
    rw [FdSys.step, hc]
    exact h.call trivial ⟨hseen.1, fun hcur hn => ⟨hseen.2 hcur hn, rfl⟩⟩
  | readAgain i n a b =>
    rw [FdSys.step, hc]
    dsimp only
    split
    · exact h.call trivial trivial
    · exact h.call trivial trivial

theorem close_ok {cont : Option (Fin 32)} (hne : cont ≠ some i) :
    (s.close e i cont).Ok s.pte e := by
  rw [FdSys.close]
  cases hf : s.pte (e, .fd i) with
  | none =>
    cases cont with
    | none => trivial
    | some old => exact ⟨fun h' => hne (congrArg some h'), hf⟩
  | some q =>
    dsimp only
    split
    · exact hne
    · exact hne

theorem close_seen (cont : Option (Fin 32)) : (s.close e i cont).Seen s' e' := by
  rw [FdSys.close]
  cases s.pte (e, .fd i) with
  | none =>
    cases cont with
    | none => trivial
    | some old => trivial
  | some q =>
    dsimp only
    split
    · trivial
    · trivial

theorem Inv.start (h : P.Inv s) (hok : c.Ok s.pte s.cur)
    (hseen : c.Seen (s.setCall s.cur c) s.cur) : P.Inv (s.start c) := by
  rw [FdSys.start]
  split
  · exact h.call hok hseen
  · exact h

theorem Inv.act {a : FdAct} (h : P.Inv s) (ha : a.Distinct) : P.Inv (s.act a) := by
  cases a with
  | step ok => exact h.step ok
  | close i =>
    have hne : none ≠ some i := nofun
    exact h.start (close_ok hne) (close_seen none)
  | dup old new =>
    have hne : some old ≠ some new := fun h' => ha (Option.some.inj h')
    refine h.start ?_ ?_
    · rw [FdSys.dup]
      split
      · trivial
      · exact close_ok hne
    · rw [FdSys.dup]
      split
      · trivial
      · exact close_seen (some old)
  | pipeisclosed i =>
    rw [FdSys.act, FdSys.pipeisclosed]
    split
    · exact h.start trivial trivial
    · exact h.start trivial trivial
  | switch e =>
    rw [FdSys.act]
    split
    · exact h
    · refine ⟨⟨h.maps.beside, h.maps.fd_place, h.maps.data_place, h.maps.fd_counted,
        h.maps.data_counted⟩, h.ok, fun e' => ?_⟩
      by_cases hne : e' = e
      · -- it was interrupted, and its counter has moved on
        rw [hne]
        exact (h.seen e).resumed (update_self ..)
      · refine (h.seen e').other (Ne.symm hne) ?_
        dsimp only
        rw [update_of_ne hne]

/-! ### Closed ends -/

theorem Maps.fd_le (h : P.Maps s) :
    fibre s.pte (P.fd false) + fibre s.pte (P.fd true) ≤ fibre s.pte P.data := by
  -- an end is mapped at a descriptor's address, and the data page at the one beside it
  have hplace : ∀ v, s.pte v = some (P.fd false) ∨ s.pte v = some (P.fd true) →
      ∃ e i x, v = (e, .fd i) ∧ s.pte (e, .fd i) = some (P.fd x) := by
    rintro ⟨e, i | i⟩ (hv | hv)
    · exact ⟨e, i, false, rfl, hv⟩
    · exact ⟨e, i, true, rfl, hv⟩
    · exact absurd hv (h.fd_place e i false)
    · exact absurd hv (h.fd_place e i true)
  refine fibre_add_le P.ends_ne (fun v => match v with
    | (e, .fd i) => (e, .data i)
    | v => v) (fun v hv => ?_) fun v w hv hw hvw => ?_
  · obtain ⟨e, i, x, rfl, hx⟩ := hplace v hv
    exact h.beside e i x hx
  · obtain ⟨e, i, x, rfl, -⟩ := hplace v hv
    obtain ⟨e', j, y, rfl, -⟩ := hplace w hw
    cases hvw
    rfl

theorem Maps.data_lt (h : P.Maps s) : fibre s.pte P.data < 2 ^ 16 := by
  refine Nat.lt_of_le_of_lt (fibre_le_card (fun w : EnvIx × Fin 32 => (w.1, FdVa.data w.2)) ?_)
    (show Fintype.card (EnvIx × Fin 32) < 2 ^ 16 by simp)
  rintro ⟨e, i | i⟩ hv
  · exact absurd hv (h.data_place e i)
  · exact ⟨(e, i), rfl⟩

/-- The counts are the numbers of mappings. -/
theorem Maps.toNat_ref (h : P.Maps s) :
    (∀ x, (s.ppRef (P.fd x)).toNat = fibre s.pte (P.fd x)) ∧
      (s.ppRef P.data).toNat = fibre s.pte P.data := by
  have hle := h.fd_le
  have hlt := h.data_lt
  refine ⟨fun x => ?_, ?_⟩
  · rw [h.fd_counted, BitVec.toNat_ofNat, Nat.mod_eq_of_lt]
    cases x with
    | false => omega
    | true => omega
  · rw [h.data_counted, BitVec.toNat_ofNat, Nat.mod_eq_of_lt hlt]

/-- **An end that is mapped as often as the data page** is the only one. -/
theorem Maps.other_end {x : Bool} (h : P.Maps s) (hf : s.pte (e, .fd i) = some (P.fd x))
    (heq : s.pageref e (.fd i) = s.pageref e (.data i)) (v : EnvIx × FdVa) :
    s.pte v ≠ some (P.fd !x) := by
  intro hv
  have hpos : 0 < fibre s.pte (P.fd !x) := fibre_pos_iff.mpr ⟨v, hv⟩
  have hle := h.fd_le
  rw [FdSys.pageref, FdSys.pageref, hf, h.beside e i x hf] at heq
  dsimp only at heq
  rw [h.toNat_ref.1, h.toNat_ref.2] at heq
  cases x with
  | false => simp only [Bool.not_false] at hpos; omega
  | true => simp only [Bool.not_true] at hpos; omega

end PipePages

/-- The environment that runs is in `_pipeisclosed` for its descriptor `i`, and the round returns
that the pipe is closed.  Its counter has not gone around in the meantime. -/
def FdSys.Reports (s : FdSys) (i : Fin 32) : Prop :=
  ∃ n a b, s.call s.cur = .readAgain i n a b ∧ a = b ∧
    n % 2 ^ 32 = s.envRuns s.cur % 2 ^ 32 ∧ s.envRuns s.cur < n + 2 ^ 32

/-- **A pipe is reported closed only when it is.**  In every state that environments reach which
share a pipe, dup its ends and close them: the data page is counted at least as often as both ends
together; an environment that holds an end which is counted as often as the data page holds the
last one; and so does one for which `_pipeisclosed` says so, even though it reads one count after
the other. -/
theorem pipeisclosed_sound {s₀ : FdSys} (h₀ : P.Shared s₀)
    (h : Relation.ReflTransGen FdStep s₀ s) :
    (s.ppRef (P.fd false)).toNat + (s.ppRef (P.fd true)).toNat ≤ (s.ppRef P.data).toNat ∧
    (∀ e i x, s.pte (e, .fd i) = some (P.fd x) → s.pageref e (.fd i) = s.pageref e (.data i) →
      ∀ v, s.pte v ≠ some (P.fd !x)) ∧
    ∀ i x, s.pte (s.cur, .fd i) = some (P.fd x) → s.Reports i → ∀ v, s.pte v ≠ some (P.fd !x) := by
  have hinv : P.Inv s := invariant (fun s s' hs ⟨a, ha, heq⟩ => heq ▸ hs.act ha) h₀.inv h
  have hle := hinv.maps.fd_le
  refine ⟨?_, fun e i x hf heq => hinv.maps.other_end hf heq, fun i x hf hrep => ?_⟩
  · rw [hinv.maps.toNat_ref.1, hinv.maps.toNat_ref.1, hinv.maps.toNat_ref.2]
    exact hle
  · obtain ⟨n, a, b, hc, hab, hmod, hlt⟩ := hrep
    have hseen := hinv.seen s.cur
    rw [hc] at hseen
    have hn : n = s.envRuns s.cur := by
      have := hseen.1
      omega
    obtain ⟨ha, hb⟩ := hseen.2 rfl hn
    exact hinv.maps.other_end hf (ha.symm.trans (hab.trans hb))

/-! ### A new pipe -/

/-- No descriptor is open. -/
def noFds : FdSys := ⟨fun _ => none, fun _ => 0, fun _ => false, 0, fun _ => 0, fun _ => .idle⟩

/-- The pages 1 and 2 for the ends, and 3 for the data. -/
def firstPages : PipePages where
  fd x := if x then 2 else 1
  data := 3
  ends_ne := by decide
  fd_ne := by decide

/-- In the middle of `dup(0, 5)`, on a new pipe: the data page is mapped for the third time. -/
theorem pipeisclosed_sound_dup : ∃ s₀ s,
    noFds.pipe 0 (some 1) (some 2) (some 3) true = (some (0, 1), s₀) ∧
    Relation.ReflTransGen FdStep s₀ s ∧ s.call 0 = .mapFd 0 5 ∧ (s.ppRef 3).toNat = 3 ∧
    (s.ppRef 1).toNat + (s.ppRef 2).toNat ≤ (s.ppRef 3).toNat := by
  have hfds : (noFds.pipe 0 (some 1) (some 2) (some 3) true).1 = some (0, 1) := by decide +kernel
  have hrun : noFds.pipe 0 (some 1) (some 2) (some 3) true =
      (some (0, 1), (noFds.pipe 0 (some 1) (some 2) (some 3) true).2) := Prod.ext hfds rfl
  have h₀ : firstPages.Shared (noFds.pipe 0 (some 1) (some 2) (some 3) true).2 :=
    PipePages.pipe_shared (s := noFds) (fun _ => rfl) nofun nofun (fun _ => rfl) rfl hrun
  have h : Relation.ReflTransGen FdStep (noFds.pipe 0 (some 1) (some 2) (some 3) true).2
      (((noFds.pipe 0 (some 1) (some 2) (some 3) true).2.act (.dup 0 5)).act (.step true)) :=
    (Relation.ReflTransGen.single ⟨.dup 0 5, show (0 : Fin 32) ≠ 5 by decide, rfl⟩).tail
      ⟨.step true, trivial, rfl⟩
  exact ⟨_, _, hrun, h, by decide +kernel, by decide +kernel, (pipeisclosed_sound h₀ h).1⟩

end JosVmm
