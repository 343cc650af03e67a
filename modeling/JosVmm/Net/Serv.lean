import JosVmm.Support.Prog

/-!
# Network — the buffers of the server

`net/serv.c`: the server takes a buffer, waits for a request with it, and gives it back when the
request is a timer's, or leaves that to the thread that serves the request.  A request without an
argument page, or for which there is no thread, keeps its buffer.  So in a run the busy buffers are
one more than the threads exactly if there was no such request (`serve_buffers_iff`).
-/

namespace JosVmm

open Support.Prog Function List

/-- `buse`, the buffer of `serve` while it waits in `ipc_recv`, and those of the threads that have not
ended. -/
structure Ns where
  buse : Fin 20 → Bool
  va : Option (Fin 20)
  running : List (Fin 20)

/-- The panics of `serve`. -/
inductive NsFault where
  | bufferOverflow
  | noThreadArgs
  deriving DecidableEq

abbrev Sv := StateT Ns (Except NsFault)

/-- `get_buffer`. -/
def getBuffer : Sv (Fin 20) := do
  let s ← get
  match (finRange 20).find? fun i => !s.buse i with
  | none => throw .bufferOverflow
  | some i =>
    modify fun s => { s with buse := update s.buse i true }
    return i

/-- `put_buffer`. -/
def putBuffer (i : Fin 20) : Sv Unit := modify fun s => { s with buse := update s.buse i false }

/-- What happens next: `serve` goes to wait for a request, it gets one, or a thread ends. -/
inductive NsAct where
  | wait
  /-- `args` and `created` say that `malloc` and `thread_create` succeed. -/
  | recv (reqno perm : BitVec 32) (args created : Bool)
  | finish (i : Fin 20)

namespace NsAct

def exec : NsAct → Sv Unit
  | wait => do
    let i ← getBuffer
    modify fun s => { s with va := some i }
  | recv reqno perm args created => do
    match (← get).va with
    | none => return ()
    | some i =>
      modify fun s => { s with va := none }
      -- `NSREQ_TIMER`
      if reqno = 12#32 then
        putBuffer i
      else if perm &&& 1#32 = 0#32 then
        return ()
      else if args = false then
        throw .noThreadArgs
      else if created then
        modify fun s => { s with running := i :: s.running }
  | finish i => do
    modify fun s => { s with running := s.running.erase i }
    putBuffer i

def Enabled (s : Ns) : NsAct → Prop
  | wait => s.va = none
  | recv .. => s.va ≠ none
  | finish i => i ∈ s.running

/-- A request that is left hanging. -/
def Drops : NsAct → Bool
  | recv reqno perm _ created => reqno ≠ 12#32 ∧ (perm &&& 1#32 = 0#32 ∨ created = false)
  | _ => false

end NsAct

namespace Ns

/-- At the start of `serve`. -/
def init : Ns := ⟨fun _ => false, none, []⟩

/-- The number of busy entries. -/
def busy (s : Ns) : Nat := (finRange 20).countP s.buse

variable {s u : Ns} {i : Fin 20} {L L' : List (Fin 20)} {l : List NsAct} {a : NsAct}

/-- The busy entries are `L`. -/
structure Uses (buse : Fin 20 → Bool) (L : List (Fin 20)) : Prop where
  nodup : L.Nodup
  mem : ∀ i, buse i = true ↔ i ∈ L

variable {buse : Fin 20 → Bool}

theorem Uses.perm (h : Uses buse L) (hp : L.Perm L') : Uses buse L' :=
  ⟨hp.nodup h.nodup, fun i => (h.mem i).trans hp.mem_iff⟩

theorem Uses.take (h : Uses buse L) (hi : buse i = false) : Uses (update buse i true) (i :: L) := by
  refine ⟨nodup_cons.mpr ⟨fun hmem => ?_, h.nodup⟩, fun j => ?_⟩
  · rw [(h.mem i).mpr hmem] at hi
    cases hi
  · rw [mem_cons, ← h.mem, update_apply]
    split <;> simp_all

theorem Uses.put (h : Uses buse (i :: L)) : Uses (update buse i false) L := by
  obtain ⟨hi, hnodup⟩ := nodup_cons.mp h.nodup
  refine ⟨hnodup, fun j => ?_⟩
  rw [update_apply]
  split
  · rename_i hj
    simp [hj, hi]
  · rename_i hj
    rw [h.mem, mem_cons, or_iff_right hj]

theorem Uses.busy (h : Uses s.buse L) : s.busy = L.length := by
  have hperm : ((finRange 20).filter s.buse).Perm L :=
    (perm_ext_iff_of_nodup ((nodup_finRange 20).filter _) h.nodup).mpr fun i => by
      rw [mem_filter, ← h.mem]
      simp
  rw [Ns.busy, countP_eq_length_filter, hperm.length_eq]

/-- The busy entries are those of `serve`, of the threads, and of the requests left hanging. -/
def Inv (l : List NsAct) (s : Ns) : Prop := ∃ lost : List (Fin 20), lost.length = l.countP NsAct.Drops ∧
  Uses s.buse (s.va.toList ++ (s.running ++ lost))

theorem getBuffer_eq_ok (h : getBuffer.run s = .ok (i, u)) :
    s.buse i = false ∧ u = { s with buse := update s.buse i true } := by
  rw [getBuffer, bind_get] at h
  split at h
  · cases h
  · rename_i hfind
    cases h
    exact ⟨by simpa using find?_some hfind, rfl⟩

theorem Inv.exec (h : Inv l s) (hC : a.Enabled s) (hrun : a.exec.run s = .ok ((), u)) :
    Inv (l ++ [a]) u := by
  obtain ⟨lost, hlost, huse⟩ := h
  have hcount : (l ++ [a]).countP NsAct.Drops = lost.length + [a].countP NsAct.Drops := by
    rw [countP_append, hlost]
  unfold Inv
  rw [hcount]
  cases a with
  | wait =>
    obtain ⟨i, s1, hget, hrun⟩ := bind_inv hrun
    obtain ⟨hi, rfl⟩ := getBuffer_eq_ok hget
    cases hrun
    rw [show s.va = none from hC] at huse
    exact ⟨lost, rfl, huse.take hi⟩
  | recv reqno perm args created =>
    obtain ⟨i, hva⟩ := Option.ne_none_iff_exists'.mp hC
    rw [hva] at huse
    have hkeep : Uses s.buse (s.running ++ i :: lost) :=
      Uses.perm (L := i :: (s.running ++ lost)) huse perm_middle.symm
    rw [NsAct.exec, bind_get, hva] at hrun
    simp only [bind_modify] at hrun
    split at hrun
    · rename_i htimer
      cases hrun
      exact ⟨lost, by simp [NsAct.Drops, htimer], huse.put⟩
    rename_i htimer
    split at hrun
    · rename_i hpage
      cases hrun
      exact ⟨i :: lost, by simp [NsAct.Drops, htimer, hpage], hkeep⟩
    rename_i hpage
    split at hrun
    · cases hrun
    split at hrun
    · rename_i hcreated
      cases hrun
      exact ⟨lost, by simp [NsAct.Drops, hpage, hcreated], huse⟩
    · rename_i hcreated
      cases hrun
      exact ⟨i :: lost, by simp [NsAct.Drops, htimer, hcreated], hkeep⟩
  | finish i =>
    cases hrun
    have hperm := ((perm_cons_erase hC).append_right lost).append_left s.va.toList
    exact ⟨lost, rfl, (huse.perm (hperm.trans perm_middle)).put⟩

theorem inv_of_trace (h : Trace NsAct.exec (fun _ => NsAct.Enabled) init l s) : Inv l s := by
  refine h.invariant (fun _ _ _ _ hinv hC hrun => hinv.exec hC hrun) ⟨[], rfl, ?_⟩
  exact ⟨nodup_nil, fun _ => ⟨nofun, nofun⟩⟩

/-- `get_buffer` panics when all entries are busy. -/
theorem wait_overflows_iff : NsAct.wait.exec.run s = .error .bufferOverflow ↔ s.busy = 20 := by
  have hall : s.busy = 20 ↔ (finRange 20).find? (fun i => !s.buse i) = none := by
    have hcount := countP_eq_length (p := s.buse) (l := finRange 20)
    rw [length_finRange] at hcount
    rw [busy, hcount, find?_eq_none]
    simp
  rw [hall, NsAct.exec]
  cases hfind : (finRange 20).find? (fun i => !s.buse i) with
  | none =>
    have hget : getBuffer.run s = .error .bufferOverflow := by
      rw [getBuffer, bind_get, hfind]
      rfl
    exact ⟨fun _ => rfl, fun _ => bind_error hget⟩
  | some i =>
    have hget : getBuffer.run s = .ok (i, { s with buse := update s.buse i true }) := by
      rw [getBuffer, bind_get, hfind]
      rfl
    rw [bind_ok hget]
    exact ⟨nofun, nofun⟩

/-- **The server leaks no buffers but for the requests that it leaves hanging.**  While it waits, the
busy entries are one more than the threads exactly if there was no such request; and it runs out of
buffers exactly if the threads and these requests have them all. -/
theorem serve_buffers_iff (h : Trace NsAct.exec (fun _ => NsAct.Enabled) init l s) :
    (s.va ≠ none → (s.busy = 1 + s.running.length ↔ ∀ a ∈ l, a.Drops = false)) ∧
    (s.va = none → (NsAct.wait.exec.run s = .error .bufferOverflow ↔
      s.running.length + l.countP NsAct.Drops = 20)) := by
  obtain ⟨lost, hlost, huse⟩ := inv_of_trace h
  have hbusy := huse.busy
  rw [length_append, length_append, hlost] at hbusy
  refine ⟨fun hva => ?_, fun hva => ?_⟩
  · obtain ⟨i, hi⟩ := Option.ne_none_iff_exists'.mp hva
    rw [hi] at hbusy
    have hnone : l.countP NsAct.Drops = 0 ↔ ∀ a ∈ l, a.Drops = false := by simp [countP_eq_zero]
    rw [← hnone, hbusy, Option.toList_some, length_singleton]
    omega
  · rw [wait_overflows_iff, hbusy, hva, Option.toList_none, length_nil, Nat.zero_add]

/-- A request, from the start. -/
theorem trace_recv (reqno perm : BitVec 32) {u : Ns}
    (hrun : (NsAct.recv reqno perm true true).exec.run ⟨update (fun _ => false) 0 true, some 0, []⟩ =
      .ok ((), u)) :
    Trace NsAct.exec (fun _ => NsAct.Enabled) init [.wait, .recv reqno perm true true] u :=
  .snoc (.snoc .nil rfl rfl) nofun hrun

/-- A message of the timer. -/
theorem serve_buffers_timer : ∃ s, Trace NsAct.exec (fun _ => NsAct.Enabled) init
    [.wait, .recv 12#32 0#32 true true, .wait] s ∧ s.busy = 1 + s.running.length := by
  have h : Trace NsAct.exec _ init [.wait, .recv 12#32 0#32 true true, .wait] _ :=
    .snoc (trace_recv 12#32 0#32 rfl) rfl rfl
  exact ⟨_, h, ((serve_buffers_iff h).1 nofun).mpr (by decide)⟩

/-- A request for a socket without an argument page. -/
theorem serve_left_hanging : ∃ s, Trace NsAct.exec (fun _ => NsAct.Enabled) init
    [.wait, .recv 9#32 0#32 true true, .wait] s ∧ s.running = [] ∧ s.busy = 2 :=
  ⟨_, .snoc (trace_recv 9#32 0#32 rfl) rfl rfl, rfl, rfl⟩

end Ns

end JosVmm
