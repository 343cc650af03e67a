import Mathlib.Data.List.GetD
import JosVmm.Fs.Disk

/-!
# File server — the reads of the formatter

`readn` of `fs/fsformat.c`, by which `writefile` reads a file of the host into the disk image.  The
host answers each `read` with some of the bytes that are asked for, with none at the end of the
file, or with an error (`FmtRead`).

`Delivers` says what has been delivered by answers with bytes, and `readn` follows it
(`readn_delivers`): it returns once all bytes are there, and panics at an answer without any.  The
result of `read` is kept in a `size_t`, though, so that the error `-1` is a count of `2 ^ 64 - 1`
and the test for an error never holds: the position goes back by one, or at the first byte beyond
every `n`.  Hence `readn` is as it should be exactly for those answers in which no error comes
before all bytes are delivered (`readn_honest_iff`).
-/

namespace JosVmm

open List BitVec

/-- What the host answers to a `read`: bytes, and none at the end of the file, or `-1`. -/
inductive FmtRead where
  | bytes (data : List (BitVec 8))
  | error
  deriving DecidableEq

/-- The bytes that a `read` of `n` bytes delivers. -/
def FmtRead.data (n : Nat) : FmtRead → List (BitVec 8)
  | .bytes data => data.take n
  | .error => []

/-- The result of `read`, as a `size_t`. -/
def FmtRead.count (n : Nat) : FmtRead → Word
  | .bytes data => BitVec.ofNat 64 (data.take n).length
  | .error => -1#64

/-- The texts with which `readn` panics. -/
inductive ReadnPanic where
  /-- "read: %s" -/
  | read
  /-- "read: Unexpected EOF" -/
  | eof
  deriving DecidableEq

inductive ReadnResult where
  /-- The loop has not ended yet. -/
  | running
  | returned (disk : Bytes)
  | panic (text : ReadnPanic)

/-- The loop of `readn`, from the position `p` and the answer `k` on, for at most as many calls of
`read` as the first argument says. -/
def readnFrom (host : Nat → FmtRead) (out : Nat) (n : Word) : Nat → Nat → Word → Bytes → ReadnResult
  | 0, _, p, disk => if p < n then .running else .returned disk
  | calls + 1, k, p, disk =>
    if p < n then
      let data := (host k).data (n - p).toNat
      let m := (host k).count (n - p).toNat
      let disk := blit disk (out + p.toNat) data.length fun i => data.getD i 0#8
      -- `m` is unsigned
      if m < 0#64 then .panic .read
      else if m = 0#64 then .panic .eof
      else readnFrom host out n calls (k + 1) (p + m) disk
    else
      .returned disk

/-- `readn(f, out, n)`, for an `out` in the disk image. -/
def readn (host : Nat → FmtRead) (out : Nat) (n : Word) (calls : Nat) (disk : Bytes) : ReadnResult :=
  readnFrom host out n calls 0 0#64 disk

/-- The first `k` answers have delivered the bytes `d` of the `n` that are asked for. -/
inductive Delivers (host : Nat → FmtRead) (n : Nat) : Nat → List (BitVec 8) → Prop where
  | start : Delivers host n 0 []
  | more {k : Nat} {d data : List (BitVec 8)} : Delivers host n k d → d.length < n →
      host k = .bytes data → data ≠ [] → Delivers host n (k + 1) (d ++ data.take (n - d.length))

/-- **`readn` is honest**: it returns only when the `n` bytes were delivered, with these bytes in
their order at `out`; it does return then; and it panics at an error, or where the file ends too
early. -/
structure ReadnHonest (host : Nat → FmtRead) (out : Nat) (n : Word) (disk : Bytes) : Prop where
  returned : ∀ calls disk', readn host out n calls disk = .returned disk' →
    ∃ k d, Delivers host n.toNat k d ∧ d.length = n.toNat ∧
      disk' = blit disk out n.toNat fun i => d.getD i 0#8
  returns : ∀ k d, Delivers host n.toNat k d → d.length = n.toNat →
    ∃ disk', readn host out n k disk = .returned disk'
  panics : ∀ k d, Delivers host n.toNat k d → d.length < n.toNat →
    host k = .error ∨ host k = .bytes [] →
    ∃ text, readn host out n (k + 1) disk = .panic text

variable {host : Nat → FmtRead} {out calls k : Nat} {n : Word} {disk disk' : Bytes}
  {d data : List (BitVec 8)}

theorem Delivers.length_le {n : Nat} (h : Delivers host n k d) : d.length ≤ n := by
  induction h with
  | start => exact Nat.zero_le n
  | more _ hlt _ _ _ =>
    rw [length_append, length_take]
    omega

/-- Bytes that are stored one after the other. -/
theorem blit_append (disk : Bytes) (out : Nat) (d data : List (BitVec 8)) :
    blit (blit disk out d.length fun i => d.getD i 0#8) (out + d.length) data.length
        (fun i => data.getD i 0#8) =
      blit disk out (d ++ data).length fun i => (d ++ data).getD i 0#8 := by
  funext x
  rw [length_append]
  by_cases hd : out ≤ x ∧ x < out + d.length
  · rw [blit_of_not (by omega), blit, if_pos hd, blit, if_pos (by omega),
      getD_append _ _ _ _ (by omega)]
  · rw [blit]
    split
    · rw [blit, if_pos (by omega), getD_append_right _ _ _ _ (by omega)]
      congr 1
      omega
    · rw [blit_of_not hd, blit_of_not (by omega)]

theorem ofNat_length_lt (h : d.length < n.toNat) : BitVec.ofNat 64 d.length < n := by
  rw [lt_def, toNat_ofNat, Nat.mod_eq_of_lt (by omega)]
  exact h

/-- One `read` that delivers bytes. -/
theorem readnFrom_bytes (hlt : d.length < n.toNat) (hk : host k = .bytes data) (hne : data ≠ []) :
    readnFrom host out n (calls + 1) k (BitVec.ofNat 64 d.length)
        (blit disk out d.length fun i => d.getD i 0#8) =
      readnFrom host out n calls (k + 1)
        (BitVec.ofNat 64 (d ++ data.take (n.toNat - d.length)).length)
        (blit disk out (d ++ data.take (n.toNat - d.length)).length
          fun i => (d ++ data.take (n.toNat - d.length)).getD i 0#8) := by
  have hp : (BitVec.ofNat 64 d.length).toNat = d.length := by
    rw [toNat_ofNat, Nat.mod_eq_of_lt (by omega)]
  have hsub : (n - BitVec.ofNat 64 d.length).toNat = n.toNat - d.length := by
    rw [toNat_sub_of_le (by rw [le_def, hp]; omega), hp]
  have hpos : 0 < (data.take (n.toNat - d.length)).length := by
    rw [length_take]
    have := List.length_pos_iff.mpr hne
    omega
  have hcount : BitVec.ofNat 64 (data.take (n.toNat - d.length)).length ≠ 0#64 := by
    intro h
    have h := congrArg BitVec.toNat h
    rw [toNat_ofNat, Nat.mod_eq_of_lt, toNat_ofNat] at h
    · omega
    · rw [length_take]
      omega
  rw [readnFrom, if_pos (ofNat_length_lt hlt), hk, hsub, hp]
  dsimp only [FmtRead.data, FmtRead.count]
  rw [if_neg (BitVec.not_lt_zero), if_neg hcount, blit_append, ← ofNat_add, length_append]

/-- **`readn` follows the answers** as long as they deliver bytes. -/
theorem readn_delivers (h : Delivers host n.toNat k d) (calls : Nat) (disk : Bytes) :
    readn host out n (k + calls) disk = readnFrom host out n calls k (BitVec.ofNat 64 d.length)
      (blit disk out d.length fun i => d.getD i 0#8) := by
  induction h generalizing calls with
  | start =>
    rw [readn, Nat.zero_add]
    congr 1
    funext x
    exact (blit_of_not (by simp)).symm
  | more _ hlt hk hne ih => rw [Nat.add_assoc, Nat.add_comm 1, ih, readnFrom_bytes hlt hk hne]

/-- All bytes are there. -/
theorem readnFrom_full (hd : d.length = n.toNat) :
    readnFrom host out n calls k (BitVec.ofNat 64 d.length) disk = .returned disk := by
  have hnot : ¬ BitVec.ofNat 64 d.length < n := by
    rw [hd, ofNat_toNat, setWidth_eq]
    exact BitVec.lt_irrefl n
  cases calls with
  | zero => rw [readnFrom, if_neg hnot]
  | succ calls => rw [readnFrom, if_neg hnot]

theorem readnFrom_eof (hlt : d.length < n.toNat) (hk : host k = .bytes []) :
    readnFrom host out n (calls + 1) k (BitVec.ofNat 64 d.length) disk = .panic .eof := by
  rw [readnFrom, if_pos (ofNat_length_lt hlt), hk]
  dsimp only [FmtRead.data, FmtRead.count]
  rw [take_nil, length_nil, if_neg BitVec.not_lt_zero, if_pos rfl]

/-- The error is taken for a count: there is another round, or `readn` returns. -/
theorem readnFrom_error {p : Word} (hp : p < n) (hk : host k = .error) (text : ReadnPanic) :
    readnFrom host out n 1 k p disk ≠ .panic text := by
  rw [readnFrom, if_pos hp, hk]
  dsimp only [FmtRead.data, FmtRead.count]
  rw [if_neg BitVec.not_lt_zero, if_neg (by decide), readnFrom]
  split
  · exact nofun
  · exact nofun

/-- Without an error `readn` returns only the bytes that were delivered. -/
theorem returned_delivers
    (hno : ∀ k d, Delivers host n.toNat k d → d.length < n.toNat → host k ≠ .error)
    (h : Delivers host n.toNat k d)
    (hrun : readnFrom host out n calls k (BitVec.ofNat 64 d.length)
      (blit disk out d.length fun i => d.getD i 0#8) = .returned disk') :
    ∃ k d, Delivers host n.toNat k d ∧ d.length = n.toNat ∧
      disk' = blit disk out n.toNat fun i => d.getD i 0#8 := by
  induction calls generalizing k d with
  | zero =>
    obtain hlt | hd := Nat.lt_or_eq_of_le h.length_le
    · rw [readnFrom, if_pos (ofNat_length_lt hlt)] at hrun
      cases hrun
    · rw [readnFrom_full hd] at hrun
      cases hrun
      exact ⟨k, d, h, hd, by rw [hd]⟩
  | succ calls ih =>
    obtain hlt | hd := Nat.lt_or_eq_of_le h.length_le
    · cases hk : host k with
      | error => exact absurd hk (hno k d h hlt)
      | bytes data =>
        by_cases hne : data = []
        · rw [readnFrom_eof hlt (hne ▸ hk)] at hrun
          cases hrun
        · rw [readnFrom_bytes hlt hk hne] at hrun
          exact ih (h.more hlt hk hne) hrun
    · rw [readnFrom_full hd] at hrun
      cases hrun
      exact ⟨k, d, h, hd, by rw [hd]⟩

/-- **`readn` is honest** if and only if no `read` fails before all bytes are delivered. -/
theorem readn_honest_iff (host : Nat → FmtRead) (out : Nat) (n : Word) (disk : Bytes) :
    ReadnHonest host out n disk ↔
      ∀ k d, Delivers host n.toNat k d → d.length < n.toNat → host k ≠ .error := by
  constructor
  · intro h k d hd hlt hk
    obtain ⟨text, hpanic⟩ := h.panics k d hd hlt (.inl hk)
    rw [readn_delivers hd] at hpanic
    exact readnFrom_error (ofNat_length_lt hlt) hk text hpanic
  · intro hno
    refine ⟨fun calls disk' hrun => ?_, fun k d hd hfull => ?_, fun k d hd hlt hk => ?_⟩
    · rw [← Nat.zero_add calls, readn_delivers .start] at hrun
      exact returned_delivers hno .start hrun
    · exact ⟨_, (readn_delivers hd 0 disk).trans (readnFrom_full hfull)⟩
    · have heof := hk.resolve_left (hno k d hd hlt)
      exact ⟨_, (readn_delivers hd 1 disk).trans (readnFrom_eof hlt heof)⟩

/-- An image of zeros. -/
def blankDisk : Bytes := fun _ => 0#8

/-- **The first `read` fails**, and `readn` returns without any byte. -/
theorem readn_silent : readn (fun _ => .error) 0 5#64 1 blankDisk = .returned blankDisk ∧
    ¬ ReadnHonest (fun _ => .error) 0 5#64 blankDisk := by
  have hrun : readn (fun _ => .error) 0 5#64 1 blankDisk = .returned blankDisk := by
    have hblit : blit blankDisk (0 + (0#64).toNat) 0 (fun i => [].getD i 0#8) = blankDisk :=
      funext fun x => blit_of_not (by omega)
    rw [readn, readnFrom, if_pos (by decide)]
    dsimp only [FmtRead.data, FmtRead.count]
    rw [if_neg (by decide), if_neg (by decide), readnFrom, if_neg (by decide), length_nil, hblit]
  refine ⟨hrun, fun h => ?_⟩
  obtain ⟨text, hpanic⟩ := h.panics 0 [] .start (by decide) (.inl rfl)
  rw [Nat.zero_add, hrun] at hpanic
  cases hpanic

end JosVmm
