import JosVmm.Machine.Words
import JosVmm.Support.Prog

/-!
# Network — the system layer of lwIP

The mailboxes and semaphores of `net/lwip/jos/arch/sys_arch.c`, used by any number of threads.  The
threads are cooperative: one runs until it ends its call or sleeps in `thread_wait`, which only
`sys_arch_sem_wait` calls.  So a step here (`NetAct.exec`) is the part of a call between two such
points, and when a sleeping thread is run again is left open, since the loop of `sys_arch_sem_wait`
tests the counter in any case.

The state also keeps what was put into each mailbox and taken from it.
-/

namespace JosVmm
open Support Support.Prog Function

/-! ### The state -/

/-- `struct sys_sem_entry`, without its list link. -/
structure SemEntry where
  freed : Bool
  gen : BitVec 32
  counter : BitVec 16
  waiters : BitVec 16

/-- `struct sys_mbox_entry`, without its list link.  `none` stands for the head `-1`, and for
`SYS_SEM_NULL`. -/
structure MboxEntry where
  freed : Bool
  head : Option (Fin 32)
  nextq : Fin 32
  msg : Fin 32 → Word
  queuedMsg : Option (Fin 256)
  freeMsg : Option (Fin 256)

/-- The semaphore that counts the messages, or the one that counts the free slots. -/
def MboxEntry.sem (b : MboxEntry) (free : Bool) : Option (Fin 256) :=
  if free then b.freeMsg else b.queuedMsg

/-- The calls; `out` says that `sys_arch_mbox_fetch` is given an address for the message. -/
inductive MboxCall where
  | trypost (mbox : Fin 128) (msg : Word)
  | post (mbox : Fin 128) (msg : Word)
  | fetch (mbox : Fin 128) (out : Bool) (tmMsec : BitVec 32)

/-- What they return, and the message that is handed over. -/
inductive MboxRet where
  | errOk
  | errMem
  | void
  | waited (w : BitVec 32) (msg : Option Word)
  deriving DecidableEq

/-- A thread is in no call, or asleep in `sys_arch_sem_wait`. -/
inductive NetThread where
  | idle
  | asleep (c : MboxCall) (sem : Fin 256) (gen waited a : BitVec 32)

/-- The semaphores, the mailboxes, the threads, the kernel's clock, and what happened so far: the
messages put into and taken from each mailbox, and what the calls returned. -/
structure Lwip where
  sems : Fin 256 → SemEntry
  mboxes : Fin 128 → MboxEntry
  semFree : List (Fin 256)
  mboxFree : List (Fin 128)
  threads : Nat → NetThread
  ticks : BitVec 32
  posted : Fin 128 → List Word
  fetched : Fin 128 → List Word
  rets : List MboxRet

/-- The ways a thread stops the program.  `badSem` is the use of `SYS_SEM_NULL` as an index, and
`timeOverflow` the panic of `time_tick`. -/
inductive NetFault where
  | assertFailed
  | noMessage
  | badSem
  | timeOverflow
  deriving DecidableEq

abbrev Nm := StateT Lwip (Except NetFault)

/-- `SYS_ARCH_TIMEOUT`. -/
def sysArchTimeout : BitVec 32 := 0xFFFFFFFF#32

/-- `SYS_ARCH_NOWAIT`. -/
def sysArchNowait : BitVec 32 := 0xFFFFFFFE#32

def assert (c : Bool) : Nm Unit := if c then pure () else throw .assertFailed

def semIndex (sem : Option (Fin 256)) : Nm (Fin 256) :=
  match sem with
  | none => throw .badSem
  | some i => pure i

def modifySem (i : Fin 256) (f : SemEntry → SemEntry) : Nm Unit := modify fun s =>
  { s with sems := update s.sems i (f (s.sems i)) }

def modifyMbox (m : Fin 128) (f : MboxEntry → MboxEntry) : Nm Unit := modify fun s =>
  { s with mboxes := update s.mboxes m (f (s.mboxes m)) }

/-! ### Semaphores -/

/-- `sys_sem_new(count)`. -/
def sysSemNew (count : BitVec 8) : Nm (Option (Fin 256)) := do
  match (← get).semFree with
  | [] => return none
  | se :: rest =>
    modify fun s => { s with semFree := rest }
    assert ((← get).sems se).freed
    modifySem se fun v =>
      { v with freed := false, counter := count.setWidth 16, gen := v.gen + 1#32 }
    return some se

/-- `sys_sem_free(sem)`. -/
def sysSemFree (sem : Option (Fin 256)) : Nm Unit := do
  let i ← semIndex sem
  assert !((← get).sems i).freed
  modifySem i fun v => { v with freed := true, gen := v.gen + 1#32 }
  modify fun s => { s with semFree := i :: s.semFree }

/-- `sys_sem_signal(sem)`. -/
def sysSemSignal (sem : Option (Fin 256)) : Nm Unit := do
  let i ← semIndex sem
  assert !((← get).sems i).freed
  modifySem i fun v => { v with counter := v.counter + 1#16, waiters := 0 }

/-- `sys_time_msec()`, the time of `kern/time.c`. -/
def Lwip.timeMsec (s : Lwip) : BitVec 32 := s.ticks * 10#32

/-- `time_tick()`. -/
def timeTick : Nm Unit := do
  modify fun s => { s with ticks := s.ticks + 1#32 }
  let s ← get
  if s.timeMsec < s.ticks then
    throw .timeOverflow

/-- How a round of the loop of `sys_arch_sem_wait` ends: the call returns, or the thread sleeps. -/
inductive WaitRound where
  | done (waited : BitVec 32)
  | sleep (a : BitVec 32)

/-- A round of the loop of `sys_arch_sem_wait`, up to `thread_wait`. -/
def semWaitRound (i : Fin 256) (tmMsec waited : BitVec 32) : Nm WaitRound := do
  if tmMsec = 0 ∨ waited < tmMsec then
    if 0#16 < ((← get).sems i).counter then
      modifySem i fun v => { v with counter := v.counter - 1#16 }
      return .done waited
    else if tmMsec = sysArchNowait then
      return .done sysArchTimeout
    else
      modifySem i fun v => { v with waiters := 1 }
      return .sleep (← get).timeMsec
  else
    return .done sysArchTimeout

/-! ### Mailboxes -/

/-- `sys_mbox_free(mbox)`. -/
def sysMboxFree (m : Fin 128) : Nm Unit := do
  assert !((← get).mboxes m).freed
  sysSemFree ((← get).mboxes m).queuedMsg
  sysSemFree ((← get).mboxes m).freeMsg
  modify fun s => { s with mboxFree := m :: s.mboxFree }
  modifyMbox m fun b => { b with freed := true }

/-- `sys_mbox_new(size)`. -/
def sysMboxNew (size : Int) : Nm (Option (Fin 128)) := do
  assert (size < 32)
  match (← get).mboxFree with
  | [] => return none
  | m :: rest =>
    modify fun s => { s with mboxFree := rest }
    assert ((← get).mboxes m).freed
    let queuedMsg ← sysSemNew 0
    let freeMsg ← sysSemNew 32
    modifyMbox m fun b =>
      { b with freed := false, head := none, nextq := 0, queuedMsg := queuedMsg, freeMsg := freeMsg }
    if queuedMsg = none ∨ freeMsg = none then
      sysMboxFree m
      return none
    else
      return some m

/-- `sys_mbox_trypost` after its `sys_arch_sem_wait`. -/
def trypostRest (m : Fin 128) (msg : Word) : Nm MboxRet := do
  let b := (← get).mboxes m
  if b.head = some b.nextq then
    return .errMem
  else
    let slot := b.nextq
    modifyMbox m fun b => { b with
      nextq := slot + 1
      msg := update b.msg slot msg
      head := if b.head = none then some slot else b.head }
    modify fun s => { s with posted := update s.posted m (s.posted m ++ [msg]) }
    sysSemSignal b.queuedMsg
    return .errOk

/-- `sys_arch_mbox_fetch` after its `sys_arch_sem_wait`, which returned `waited`. -/
def fetchRest (m : Fin 128) (out : Bool) (waited : BitVec 32) : Nm MboxRet := do
  if waited = sysArchTimeout then
    return .waited waited none
  else
    let b := (← get).mboxes m
    match b.head with
    | none => throw .noMessage
    | some slot =>
      modifyMbox m fun b => { b with
        head := if slot + 1 = b.nextq then none else some (slot + 1) }
      modify fun s => { s with
        fetched := update s.fetched m (s.fetched m ++ [b.msg slot]) }
      sysSemSignal b.freeMsg
      return .waited waited (if out then some (b.msg slot) else none)

/-- `sys_arch_mbox_tryfetch(mbox, msg)`. -/
def MboxCall.tryfetch (m : Fin 128) (out : Bool) : MboxCall := .fetch m out sysArchNowait

namespace MboxCall

/-- The mailbox of a call. -/
def mbox : MboxCall → Fin 128
  | trypost m _ => m
  | post m _ => m
  | fetch m _ _ => m

/-- How long it may wait. -/
def tmMsec : MboxCall → BitVec 32
  | fetch _ _ tm => tm
  | _ => 0

/-- It waits for a free slot, and not for a message. -/
def waitsFree : MboxCall → Bool
  | fetch .. => false
  | _ => true

/-- The rest of a call after its `sys_arch_sem_wait`, which returned `waited`. -/
def rest (c : MboxCall) (waited : BitVec 32) : Nm MboxRet :=
  match c with
  | trypost m msg => trypostRest m msg
  | post m msg => do
    assert ((← trypostRest m msg) = .errOk)
    return .void
  | fetch m out _ => fetchRest m out waited

end MboxCall

def setThread (t : Nat) (v : NetThread) : Nm Unit := modify fun s =>
  { s with threads := update s.threads t v }

/-- The thread `t` goes on in `sys_arch_sem_wait`, and with the rest of the call when that is over. -/
def goOn (t : Nat) (c : MboxCall) (i : Fin 256) (gen waited : BitVec 32) : Nm Unit := do
  match ← semWaitRound i c.tmMsec waited with
  | .sleep a => setThread t (.asleep c i gen waited a)
  | .done waited =>
    setThread t .idle
    let r ← c.rest waited
    modify fun s => { s with rets := r :: s.rets }

/-- The thread `t` makes a call. -/
def startCall (t : Nat) (c : MboxCall) : Nm Unit := do
  let b := (← get).mboxes c.mbox
  assert !b.freed
  let i ← semIndex (b.sem c.waitsFree)
  assert !((← get).sems i).freed
  goOn t c i ((← get).sems i).gen 0

/-- The thread `t` returns from `thread_wait`. -/
def wakeUp (t : Nat) : Nm Unit := do
  match (← get).threads t with
  | .idle => return ()
  | .asleep c i gen waited a =>
    if gen ≠ ((← get).sems i).gen then
      setThread t .idle
      let r ← c.rest sysArchTimeout
      modify fun s => { s with rets := r :: s.rets }
    else
      goOn t c i gen (waited + ((← get).timeMsec - a))

/-- What may happen next. -/
inductive NetAct where
  | new (size : Int)
  | call (t : Nat) (c : MboxCall)
  | wake (t : Nat)
  | tick

def NetAct.exec : NetAct → Nm Unit
  | new size => do let _ ← sysMboxNew size
  | call t c => do
    match (← get).threads t with
    | .idle => startCall t c
    | .asleep .. => return ()
  | wake t => wakeUp t
  | tick => timeTick

/-- The state after `sys_init`. -/
def Lwip.init : Lwip where
  sems _ := ⟨true, 0, 0, 0⟩
  mboxes _ := ⟨true, none, 0, fun _ => 0, some 0, some 0⟩
  semFree := (List.finRange 256).reverse
  mboxFree := (List.finRange 128).reverse
  threads _ := .idle
  ticks := 0
  posted _ := []
  fetched _ := []
  rets := []

end JosVmm
