import JosVmm.Machine.Words

/-!
# User library — pipes

One writer and one reader of a pipe, each in a call of `devpipe_write` or `devpipe_read` or
between calls, in any interleaving of their byte-level steps: test for space or data, access
`p_buf`, advance the position.  The positions are 32-bit signed counters that are never reduced,
and an access whose index is not in the buffer is an error of the run.

`Pipe.Inv` relates the positions and the buffer to the bytes stored and taken so far.  It holds
in every state reached (`PipeReach.inv`), because the run itself stops at the first index that is
out of range.  `pipe_fifo` says when that is: at the store after `2^31 + 1` bytes, whose position
is negative.
-/

namespace JosVmm

open Function List

/-- `PIPEBUFSIZ`. -/
def pipebufsiz : Nat := 32

/-- `struct Pipe`. -/
structure Pipe where
  pRpos : BitVec 32
  pWpos : BitVec 32
  pBuf : Fin 32 → BitVec 8

/-- Where the writer is in `devpipe_write(fd, buf, n)`, in round `i` of its loop; `ready r` is
between calls, after one that returned `r`. -/
inductive WriteCall where
  | ready (r : BitVec 32)
  | test (buf : List (BitVec 8)) (i : Nat)
  | store (buf : List (BitVec 8)) (i : Nat)
  | advance (buf : List (BitVec 8)) (i : Nat)
  deriving DecidableEq

/-- Where the reader is in `devpipe_read(fd, buf, n)`. -/
inductive ReadCall where
  | ready (r : BitVec 32)
  | test (n i : Nat)
  | fetch (n i : Nat)
  | advance (n i : Nat)
  deriving DecidableEq

/-- The pipe, its two ends, and the bytes stored in and taken from the buffer so far. -/
structure PipeSys where
  pipe : Pipe
  writer : WriteCall
  reader : ReadCall
  written : List (BitVec 8)
  read : List (BitVec 8)

/-- A fault of a pipe's end. -/
inductive PipeFault where
  | outOfBounds
  deriving DecidableEq

/-- `pos % PIPEBUFSIZ`, on `off_t`. -/
def bufIndex (pos : BitVec 32) : Int := Int.tmod pos.toInt 32

/-- `p->p_wpos >= p->p_rpos + sizeof(p->p_buf)`, a comparison of 64-bit unsigned numbers. -/
def Pipe.full (p : Pipe) : Bool :=
  decide (p.pRpos.signExtend 64 + 32#64 ≤ p.pWpos.signExtend 64)

/-- `p->p_rpos == p->p_wpos`. -/
def Pipe.empty (p : Pipe) : Bool := decide (p.pRpos = p.pWpos)

/-- The place of an index in `p_buf`. -/
def bufCell (i : Int) : Except PipeFault (Fin 32) :=
  if h : 0 ≤ i ∧ i < 32 then .ok ⟨i.toNat, by omega⟩ else .error .outOfBounds

/-- The steps of the two ends, and new calls.  `closed` is what `_pipeisclosed` returns, if it is
called. -/
inductive PipeOp where
  | startWrite (buf : List (BitVec 8))
  | write (closed : Bool)
  | startRead (n : Nat)
  | read (closed : Bool)

/-- One step of `devpipe_write`. -/
def writeStep (closed : Bool) (s : PipeSys) : Except PipeFault PipeSys :=
  match s.writer with
  | .ready _ => .ok s
  | .test buf i =>
    if i < buf.length then
      if s.pipe.full then
        .ok (if closed then { s with writer := .ready 0 } else s)
      else
        .ok { s with writer := .store buf i }
    else
      .ok { s with writer := .ready (BitVec.ofNat 32 i) }
  | .store buf i => do
    let c ← bufCell (bufIndex s.pipe.pWpos)
    return { s with
      pipe := { s.pipe with pBuf := update s.pipe.pBuf c (buf.getD i 0) }
      writer := .advance buf i
      written := s.written ++ [buf.getD i 0] }
  | .advance buf i =>
    .ok { s with
      pipe := { s.pipe with pWpos := s.pipe.pWpos + 1#32 }
      writer := .test buf (i + 1) }

/-- One step of `devpipe_read`. -/
def readStep (closed : Bool) (s : PipeSys) : Except PipeFault PipeSys :=
  match s.reader with
  | .ready _ => .ok s
  | .test n i =>
    if i < n then
      if s.pipe.empty then
        if 0 < i then .ok { s with reader := .ready (BitVec.ofNat 32 i) }
        else .ok (if closed then { s with reader := .ready 0 } else s)
      else
        .ok { s with reader := .fetch n i }
    else
      .ok { s with reader := .ready (BitVec.ofNat 32 i) }
  | .fetch n i => do
    let c ← bufCell (bufIndex s.pipe.pRpos)
    return { s with reader := .advance n i, read := s.read ++ [s.pipe.pBuf c] }
  | .advance n i =>
    .ok { s with
      pipe := { s.pipe with pRpos := s.pipe.pRpos + 1#32 }
      reader := .test n (i + 1) }

/-- One step of the system. -/
def PipeOp.step (s : PipeSys) : PipeOp → Except PipeFault PipeSys
  | .startWrite buf => match s.writer with
      | .ready _ => .ok { s with writer := .test buf 0 }
      | _ => .ok s
  | .write closed => writeStep closed s
  | .startRead n => match s.reader with
      | .ready _ => .ok { s with reader := .test n 0 }
      | _ => .ok s
  | .read closed => readStep closed s

/-- A new pipe: `sys_page_alloc` has cleared the page of `struct Pipe`. -/
def newPipe : PipeSys := ⟨⟨0, 0, fun _ => 0⟩, .ready 0, .ready 0, [], []⟩

/-- The states reached by steps of the two ends. -/
inductive PipeReach : PipeSys → Prop
  | new : PipeReach newPipe
  | step {s s' : PipeSys} (op : PipeOp) : PipeReach s → op.step s = .ok s' → PipeReach s'

variable {s s' : PipeSys}

/-! ### Positions -/

/-- The first position that is used with a negative index is `2^31 + 1`. -/
theorem bufIndex_ofNat {k : Nat} (h : k ≤ 2 ^ 31) : bufIndex (BitVec.ofNat 32 k) = (k % 32 : Nat) := by
  rw [bufIndex, BitVec.toInt_eq_toNat_cond, BitVec.toNat_ofNat,
    Nat.mod_eq_of_lt (Nat.lt_of_le_of_lt h (by decide))]
  rcases Nat.lt_or_eq_of_le h with h | rfl
  · rw [if_pos (by omega), Int.tmod_eq_emod_of_nonneg (Int.natCast_nonneg k)]
    omega
  · rfl

theorem bufIndex_wrapped : bufIndex (BitVec.ofNat 32 (2 ^ 31 + 1)) = -31 := by decide

theorem bufCell_ofNat {k : Nat} (h : k ≤ 2 ^ 31) :
    bufCell (bufIndex (BitVec.ofNat 32 k)) = .ok ⟨k % 32, Nat.mod_lt k (by decide)⟩ := by
  rw [bufIndex_ofNat h, bufCell, dif_pos (by omega)]
  rfl

theorem signExtend_pos {k : Nat} (h : k ≤ 2 ^ 31 + 1) :
    ((BitVec.ofNat 32 k).signExtend 64).toNat =
      if k < 2 ^ 31 then k else 2 ^ 64 - 2 ^ 32 + k := by
  rw [BitVec.toNat_signExtend, BitVec.toNat_setWidth, BitVec.msb_eq_decide, BitVec.toNat_ofNat,
    Nat.mod_eq_of_lt (Nat.lt_of_le_of_lt h (by decide))]
  simp only [decide_eq_true_eq]
  split <;> split <;> omega

/-- With room as the writer sees it there is room. -/
theorem room_of_not_full {p : Pipe} {r w : Nat} (hr : p.pRpos = BitVec.ofNat 32 r)
    (hw : p.pWpos = BitVec.ofNat 32 w) (hrw : r ≤ w) (hmax : w ≤ 2 ^ 31 + 1)
    (h : p.full = false) : w < r + 32 := by
  rw [Pipe.full, decide_eq_false_iff_not, hr, hw, BitVec.le_def, BitVec.toNat_add,
    signExtend_pos (Nat.le_trans hrw hmax), signExtend_pos hmax] at h
  simp only [BitVec.toNat_ofNat] at h
  split at h <;> split at h <;> omega

/-! ### The invariant -/

/-- Bytes stored whose position is not counted yet. -/
def WriteCall.ahead : WriteCall → Nat
  | .advance .. => 1
  | _ => 0

/-- Bytes taken whose position is not counted yet. -/
def ReadCall.ahead : ReadCall → Nat
  | .advance .. => 1
  | _ => 0

/-- The cell of a byte, by its place in the stream. -/
def streamCell (k : Nat) : Fin 32 := ⟨k % 32, Nat.mod_lt k (by decide)⟩

theorem streamCell_inj {j k : Nat} (hjk : j < k) (h : k < j + 32) : streamCell j ≠ streamCell k := by
  intro e
  have := congrArg Fin.val e
  simp only [streamCell] at this
  omega

/-- The positions `r` and `w` and the buffer, in terms of the bytes stored and taken. -/
structure PipeInv (s : PipeSys) (r w : Nat) : Prop where
  rpos : s.pipe.pRpos = BitVec.ofNat 32 r
  wpos : s.pipe.pWpos = BitVec.ofNat 32 w
  stored : s.written.length = w + s.writer.ahead
  taken : s.read.length = r + s.reader.ahead
  le : s.read.length ≤ w
  max : s.written.length ≤ 2 ^ 31 + 1
  transit : s.written.length ≤ r + 32
  room : ∀ buf i, s.writer = .store buf i → w < r + 32
  data : ∀ n i, s.reader = .fetch n i → r < w
  cells : ∀ k b, r ≤ k → s.written[k]? = some b → s.pipe.pBuf (streamCell k) = b
  fifo : s.read <+: s.written

variable {r w i n : Nat} {buf : List (BitVec 8)}

theorem newPipe_inv : PipeInv newPipe 0 0 where
  rpos := rfl
  wpos := rfl
  stored := rfl
  taken := rfl
  le := Nat.le_refl 0
  max := by decide
  transit := by decide
  room := nofun
  data := nofun
  cells := nofun
  fifo := prefix_refl []

namespace PipeInv

section

variable (h : PipeInv s r w)
include h

/-- The writer moves on without a store. -/
theorem setWriter {c : WriteCall} (hc : c.ahead = s.writer.ahead)
    (hroom : ∀ buf i, c = .store buf i → w < r + 32) : PipeInv { s with writer := c } r w :=
  { h with stored := h.stored.trans (by rw [hc]), room := hroom }

/-- The reader moves on without taking a byte. -/
theorem setReader {c : ReadCall} (hc : c.ahead = s.reader.ahead)
    (hdata : ∀ n i, c = .fetch n i → r < w) : PipeInv { s with reader := c } r w :=
  { h with taken := h.taken.trans (by rw [hc]), data := hdata }

theorem le_max : w ≤ 2 ^ 31 + 1 := by
  have h1 := h.max
  have h2 := h.stored
  omega

/-- The index of the next store is in the buffer, unless the position is negative. -/
theorem cell_of_store (hc : s.writer = .store buf i) :
    bufCell (bufIndex s.pipe.pWpos) =
      if s.written.length ≤ 2 ^ 31 then .ok (streamCell w) else .error .outOfBounds := by
  have hlen : s.written.length = w := by rw [h.stored, hc]; rfl
  have hmax := h.le_max
  rw [hlen, h.wpos]
  split
  · exact bufCell_ofNat ‹_›
  · obtain rfl : w = 2 ^ 31 + 1 := by omega
    rw [bufIndex_wrapped]
    rfl

theorem store (hc : s.writer = .store buf i) (hmax : s.written.length ≤ 2 ^ 31) : PipeInv
      { s with
        pipe := { s.pipe with
          pBuf := update s.pipe.pBuf (streamCell w) (buf.getD i 0) }
        writer := .advance buf i
        written := s.written ++ [buf.getD i 0] } r w := by
  have hroom := h.room buf i hc
  have hlen : s.written.length = w := by rw [h.stored, hc]; rfl
  exact
    { rpos := h.rpos
      wpos := h.wpos
      stored := by rw [length_append, hlen]; rfl
      taken := h.taken
      le := h.le
      max := by rw [length_append, length_singleton]; omega
      transit := by rw [length_append, length_singleton]; omega
      room := nofun
      data := h.data
      cells := fun k b hk hb => by
        show update s.pipe.pBuf (streamCell w) (buf.getD i 0) (streamCell k) = b
        rcases Nat.lt_trichotomy k w with hlt | rfl | hgt
        · rw [update_of_ne (streamCell_inj hlt (by omega))]
          exact h.cells k b hk (by rwa [getElem?_append_left (by omega)] at hb)
        · rw [update_self]
          rw [getElem?_append_right (by omega), hlen, Nat.sub_self] at hb
          exact Option.some.inj hb
        · rw [getElem?_eq_none (by rw [length_append, length_singleton]; omega)] at hb
          cases hb
      fifo := h.fifo.trans (prefix_append ..) }

theorem advanceWrite (hc : s.writer = .advance buf i) : PipeInv
      { s with
        pipe := { s.pipe with pWpos := s.pipe.pWpos + 1#32 }
        writer := .test buf (i + 1) } r (w + 1) :=
  { h with
    wpos := by rw [h.wpos, BitVec.ofNat_add]
    stored := by rw [h.stored, hc]; rfl
    le := Nat.le_succ_of_le h.le
    room := nofun
    data := fun n i hn => Nat.lt_succ_of_lt (h.data n i hn) }

/-- The index of a fetch is in the buffer. -/
theorem cell_of_fetch (hc : s.reader = .fetch n i) :
    bufCell (bufIndex s.pipe.pRpos) = .ok (streamCell r) := by
  have h1 := h.data n i hc
  have h2 := h.le_max
  rw [h.rpos]
  exact bufCell_ofNat (by omega)

theorem fetch (hc : s.reader = .fetch n i) : PipeInv
      { s with
        reader := .advance n i
        read := s.read ++ [s.pipe.pBuf (streamCell r)] } r w := by
  have hdata := h.data n i hc
  have hlen : s.read.length = r := by rw [h.taken, hc]; rfl
  have hw : w ≤ s.written.length := by rw [h.stored]; omega
  have hcell := h.cells r _ (Nat.le_refl r) (getElem?_eq_getElem (by omega))
  exact
    { h with
      taken := by rw [length_append, hlen]; rfl
      le := by rw [length_append, hlen, length_singleton]; omega
      data := nofun
      fifo := by
        -- the byte taken is the first one after those taken before
        have hr : s.written[r]? = some (s.pipe.pBuf (streamCell r)) := by
          rw [hcell]
          exact getElem?_eq_getElem (by omega)
        refine List.prefix_iff_eq_take.mpr ?_
        rw [length_append, hlen, length_singleton, take_add_one, hr,
          Option.toList_some, ← hlen, ← List.prefix_iff_eq_take.mp h.fifo] }

theorem advanceRead (hc : s.reader = .advance n i) : PipeInv
      { s with
        pipe := { s.pipe with pRpos := s.pipe.pRpos + 1#32 }
        reader := .test n (i + 1) } (r + 1) w :=
  { h with
    rpos := by rw [h.rpos, BitVec.ofNat_add]
    taken := by rw [h.taken, hc]; rfl
    transit := Nat.le_trans h.transit (by omega)
    room := fun buf i hb => Nat.lt_of_lt_of_le (h.room buf i hb) (by omega)
    data := nofun
    cells := fun k b hk => h.cells k b (by omega) }

end

/-! ### Steps -/

theorem writeStep {closed : Bool} (h : PipeInv s r w) (hs : writeStep closed s = .ok s') :
    ∃ w', PipeInv s' r w' := by
  cases hc : s.writer with
  | ready q =>
    rw [JosVmm.writeStep, hc] at hs
    cases hs
    exact ⟨w, h⟩
  | test buf i =>
    have hquiet : ∀ q, PipeInv { s with writer := .ready q } r w := fun q =>
      h.setWriter (by rw [hc]; rfl) nofun
    rw [JosVmm.writeStep, hc] at hs
    dsimp only at hs
    split at hs
    · split at hs
      · cases hs
        cases closed with
        | false => exact ⟨w, h⟩
        | true => exact ⟨w, hquiet 0⟩
      · cases hs
        have hroom := room_of_not_full h.rpos h.wpos
          (by have h1 := h.le; have h2 := h.taken; omega) h.le_max
          (Bool.eq_false_iff.mpr ‹¬ s.pipe.full = true›)
        exact ⟨w, h.setWriter (by rw [hc]; rfl) fun _ _ _ => hroom⟩
    · cases hs
      exact ⟨w, hquiet _⟩
  | store buf i =>
    rw [JosVmm.writeStep, hc] at hs
    dsimp only at hs
    rw [h.cell_of_store hc] at hs
    split at hs
    · cases hs
      exact ⟨w, h.store hc ‹_›⟩
    · cases hs
  | advance buf i =>
    rw [JosVmm.writeStep, hc] at hs
    cases hs
    exact ⟨w + 1, h.advanceWrite hc⟩

theorem readStep {closed : Bool} (h : PipeInv s r w) (hs : readStep closed s = .ok s') :
    ∃ r', PipeInv s' r' w := by
  cases hc : s.reader with
  | ready q =>
    rw [JosVmm.readStep, hc] at hs
    cases hs
    exact ⟨r, h⟩
  | test n i =>
    have hquiet : ∀ q, PipeInv { s with reader := .ready q } r w := fun q =>
      h.setReader (by rw [hc]; rfl) nofun
    rw [JosVmm.readStep, hc] at hs
    dsimp only at hs
    split at hs
    · split at hs
      · split at hs
        · cases hs
          exact ⟨r, hquiet _⟩
        · cases hs
          cases closed with
          | false => exact ⟨r, h⟩
          | true => exact ⟨r, hquiet 0⟩
      · cases hs
        have hle : r ≤ w := by have h1 := h.le; have h2 := h.taken; omega
        have hne : r ≠ w := by
          rintro rfl
          have hempty : ¬ s.pipe.empty = true := ‹_›
          rw [Pipe.empty, decide_eq_true_eq, h.rpos, h.wpos] at hempty
          exact hempty rfl
        exact ⟨r, h.setReader (by rw [hc]; rfl) fun _ _ _ => Nat.lt_of_le_of_ne hle hne⟩
    · cases hs
      exact ⟨r, hquiet _⟩
  | fetch n i =>
    rw [JosVmm.readStep, hc] at hs
    dsimp only at hs
    rw [h.cell_of_fetch hc] at hs
    cases hs
    exact ⟨r, h.fetch hc⟩
  | advance n i =>
    rw [JosVmm.readStep, hc] at hs
    cases hs
    exact ⟨r + 1, h.advanceRead hc⟩

/-- **One step keeps the invariant.** -/
theorem step {op : PipeOp} (h : PipeInv s r w) (hs : op.step s = .ok s') :
    ∃ r' w', PipeInv s' r' w' := by
  cases op with
  | startWrite buf =>
    simp only [PipeOp.step] at hs
    split at hs
    · rename_i q hc
      cases hs
      exact ⟨r, w, h.setWriter (by rw [hc]; rfl) nofun⟩
    · cases hs
      exact ⟨r, w, h⟩
  | write closed =>
    obtain ⟨w', h'⟩ := h.writeStep hs
    exact ⟨r, w', h'⟩
  | startRead n =>
    simp only [PipeOp.step] at hs
    split at hs
    · rename_i q hc
      cases hs
      exact ⟨r, w, h.setReader (by rw [hc]; rfl) nofun⟩
    · cases hs
      exact ⟨r, w, h⟩
  | read closed =>
    obtain ⟨r', h'⟩ := h.readStep hs
    exact ⟨r', w, h'⟩

end PipeInv

theorem PipeReach.inv (h : PipeReach s) : ∃ r w, PipeInv s r w := by
  induction h with
  | new => exact ⟨0, 0, newPipe_inv⟩
  | step op _ hs ih =>
    obtain ⟨r, w, h⟩ := ih
    exact h.step hs

/-! ### First in, first out -/

/-- The step stores a byte. -/
def PipeOp.Stores (s : PipeSys) : PipeOp → Prop
  | .write _ => ∃ buf i, s.writer = .store buf i
  | _ => False

/-- The index into `p_buf` that a step uses, if it does. -/
def PipeOp.index (s : PipeSys) : PipeOp → Option Int
  | .write _ => match s.writer with
      | .store .. => some (bufIndex s.pipe.pWpos)
      | _ => none
  | .read _ => match s.reader with
      | .fetch .. => some (bufIndex s.pipe.pRpos)
      | _ => none
  | _ => none

theorem bufCell_eq_ok {j : Int} {c : Fin 32} (h : bufCell j = .ok c) : 0 ≤ j ∧ j < 32 := by
  rw [bufCell] at h
  split at h
  · assumption
  · cases h

theorem bufCell_eq_error {j : Int} {e : PipeFault} (h : bufCell j = .error e) :
    ¬ (0 ≤ j ∧ j < 32) := by
  rw [bufCell] at h
  split at h
  · cases h
  · assumption

/-- **Pipes are first in, first out** as long as positions do not become negative.  In every state
reached, the bytes taken are a prefix of those stored and at most `PIPEBUFSIZ` are in transit;
and the index that a step uses into `p_buf` is in range exactly if the step is not the store of
another byte after `2^31 + 1`. -/
theorem pipe_fifo (h : PipeReach s) :
    s.read <+: s.written ∧ s.written.length ≤ s.read.length + pipebufsiz ∧
      ∀ op : PipeOp, (∀ j, op.index s = some j → 0 ≤ j ∧ j < pipebufsiz) ↔
        (op.Stores s → s.written.length < 2 ^ 31 + 1) := by
  obtain ⟨r, w, h⟩ := h.inv
  have htransit := h.transit
  have htaken := h.taken
  refine ⟨h.fifo, by rw [pipebufsiz]; omega, fun op => ?_⟩
  cases op with
  | write closed =>
    cases hc : s.writer with
    | store buf i =>
      have hcell := h.cell_of_store hc
      simp only [PipeOp.index, PipeOp.Stores, hc, Option.some.injEq, forall_eq']
      split at hcell
      · exact ⟨fun _ _ => Nat.lt_succ_of_le ‹_›, fun _ => bufCell_eq_ok hcell⟩
      · exact ⟨fun hj => absurd hj (bufCell_eq_error hcell),
          fun hlt => absurd (Nat.le_of_lt_succ (hlt ⟨buf, i, rfl⟩)) ‹_›⟩
    | ready q => simp [PipeOp.index, PipeOp.Stores, hc]
    | test buf i => simp [PipeOp.index, PipeOp.Stores, hc]
    | advance buf i => simp [PipeOp.index, PipeOp.Stores, hc]
  | read closed =>
    refine ⟨fun _ => nofun, fun _ j hj => ?_⟩
    cases hc : s.reader with
    | fetch n i =>
      simp only [PipeOp.index, hc, Option.some.injEq] at hj
      exact hj ▸ bufCell_eq_ok (h.cell_of_fetch hc)
    | ready q => simp [PipeOp.index, hc] at hj
    | test n i => simp [PipeOp.index, hc] at hj
    | advance n i => simp [PipeOp.index, hc] at hj
  | startWrite buf => exact ⟨fun _ => nofun, fun _ => nofun⟩
  | startRead n => exact ⟨fun _ => nofun, fun _ => nofun⟩

/-- A writer about to store its first byte. -/
def firstStore : PipeSys := { newPipe with writer := .store [7] 0 }

theorem firstStore_reach : PipeReach firstStore :=
  (PipeReach.new.step (.startWrite [7]) rfl).step (.write false) rfl

theorem pipe_fifo_firstStore : (PipeOp.write false).Stores firstStore ∧
    (∀ j, (PipeOp.write false).index firstStore = some j → 0 ≤ j ∧ j < pipebufsiz) :=
  ⟨⟨[7], 0, rfl⟩, ((pipe_fifo firstStore_reach).2.2 (.write false)).mpr fun _ => by decide⟩

/-! ### A long run -/

/-- Both ends are between calls, and `n` bytes have passed. -/
structure PipeIdle (s : PipeSys) (n : Nat) : Prop where
  reach : PipeReach s
  writer : ∃ q, s.writer = .ready q
  reader : ∃ q, s.reader = .ready q
  rpos : s.pipe.pRpos = BitVec.ofNat 32 n
  wpos : s.pipe.pWpos = BitVec.ofNat 32 n

theorem full_of_eq {p : Pipe} (hr : p.pRpos = BitVec.ofNat 32 n) (hw : p.pWpos = BitVec.ofNat 32 n)
    (hn : n ≤ 2 ^ 31 + 1) : p.full = false := by
  rw [Pipe.full, decide_eq_false_iff_not, hr, hw, BitVec.le_def, BitVec.toNat_add,
    signExtend_pos hn]
  simp only [BitVec.toNat_ofNat]
  split <;> omega

/-- The writer's test passes when the pipe is empty. -/
theorem PipeIdle.ready_to_store (h : PipeIdle s n) (hn : n ≤ 2 ^ 31 + 1) :
    PipeReach { s with writer := .store [0] 0 } := by
  obtain ⟨q, hq⟩ := h.writer
  have h1 : PipeReach { s with writer := .test [0] 0 } :=
    h.reach.step (.startWrite [0]) (by simp only [PipeOp.step, hq])
  refine h1.step (.write false) ?_
  have hfull : s.pipe.full = false := full_of_eq h.rpos h.wpos hn
  simp only [PipeOp.step, writeStep, hfull]
  rfl

/-- One byte is written and read. -/
theorem PipeIdle.next (h : PipeIdle s n) (hn : n ≤ 2 ^ 31) : ∃ s', PipeIdle s' (n + 1) := by
  have h1 := h.ready_to_store (by omega)
  obtain ⟨-, -, ⟨q, hq⟩, hr, hw⟩ := h
  obtain ⟨⟨rp, wp, buf⟩, wr, rd, ws, rs⟩ := s
  dsimp only at hq hr hw
  subst hq hr hw
  have hcell : bufCell (bufIndex (BitVec.ofNat 32 n)) = .ok (streamCell n) := bufCell_ofNat hn
  have hne : decide (BitVec.ofNat 32 n = BitVec.ofNat 32 n + 1#32) = false :=
    decide_eq_false (by bv_omega)
  have h2 := h1.step (.write false) (by simp only [PipeOp.step, writeStep, hcell]; rfl)
  have h3 := ((h2.step (.write false) rfl).step (.write false) rfl).step (.startRead 1) rfl
  have h4 := h3.step (.read false) (by simp only [PipeOp.step, readStep, Pipe.empty, hne]; rfl)
  have h5 := h4.step (.read false) (by simp only [PipeOp.step, readStep, hcell]; rfl)
  have h6 := (h5.step (.read false) rfl).step (.read false) rfl
  exact ⟨_, h6, ⟨_, rfl⟩, ⟨_, rfl⟩, (BitVec.ofNat_add ..).symm, (BitVec.ofNat_add ..).symm⟩

theorem exists_pipeIdle : ∀ n ≤ 2 ^ 31 + 1, ∃ s, PipeIdle s n
  | 0, _ => ⟨newPipe, .new, ⟨0, rfl⟩, ⟨0, rfl⟩, rfl, rfl⟩
  | n + 1, hn => by
    obtain ⟨s, h⟩ := exists_pipeIdle n (by omega)
    exact h.next (by omega)

/-- After `2^31 + 1` bytes the writer stores before the buffer. -/
theorem pipe_index_negative : ∃ (s : PipeSys) (op : PipeOp),
    PipeReach s ∧ op.index s = some (-31) := by
  obtain ⟨s, h⟩ := exists_pipeIdle (2 ^ 31 + 1) (Nat.le_refl _)
  refine ⟨_, .write false, h.ready_to_store (Nat.le_refl _), ?_⟩
  simp only [PipeOp.index, h.wpos, bufIndex_wrapped]

end JosVmm
