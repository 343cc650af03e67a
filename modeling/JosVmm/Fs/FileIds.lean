import JosVmm.Fs.OpenFiles

/-!
# File server — file ids

An entry of `opentab` gets a new id each time it is handed out: its number, and `MAXOPEN` more each
time.  The id is a `uint32_t`, and `openfile_alloc` returns it as an `int`.

In a run from `serve_init`, the ids that an entry has had are those numbers, taken modulo `2 ^ 32`
(`FsRun.numbered`).  So an open that finds a free entry gets a fresh id up to the `2 ^ 21 - 1`st time
the entry is handed out (`openfileAlloc_fresh`).  From then on the ids are negative, which
`serve_open` takes for an error; the `2 ^ 22`nd id is the number of the entry, which was never
returned, and then the ids are repeated.
-/

namespace JosVmm

open Function List BitVec

/-- The entry can be handed out: its page has no mapping, or only the one of the server and is not
the one of the host's descriptor. -/
def FsServer.Free (hostFd : Option OpenIx) (s : FsServer) (i : OpenIx) : Prop :=
  s.pageref i = 0 ∨ s.pageref i = 1 ∧ hostFd ≠ some i

instance (hostFd : Option OpenIx) (s : FsServer) : DecidablePred (s.Free hostFd) :=
  fun _ => inferInstanceAs (Decidable (_ ∨ _))

/-- How often the entry has been handed out. -/
def handedOut (l : List OpenEvent) (i : OpenIx) : Nat := l.countP fun v => v.slot = i

/-- The id of an entry that was handed out `n` times. -/
def fileidAfter (i : OpenIx) (n : Nat) : BitVec 32 := BitVec.ofNat 32 (i + 1024 * n)

/-- `openfile_alloc` returns the number of an entry modulo `MAXOPEN`, not negative, that it has not
returned for the entry before. -/
def FreshId (l : List OpenEvent) (res : Int × Option OpenIx × FsServer) : Prop :=
  ∃ i, res.2.1 = some i ∧ 0 ≤ res.1 ∧ res.1 % 1024 = i ∧
    ∀ v ∈ l, v.slot = i → v.fileid.toInt ≠ res.1

variable {hostFd : Option OpenIx} {C : FsServer → FsOp → Prop} {s s' : FsServer}
  {l l' : List OpenEvent} {i j : OpenIx} {m n : Nat}

/-! ### The entry that is found -/

theorem openfileAlloc_find {pageAlloc : Int} (hpa : 0 ≤ pageAlloc) (s : FsServer)
    (is : List OpenIx) : openfileAlloc hostFd pageAlloc s is =
      match is.find? fun i => s.Free hostFd i with
      | none => (eMaxOpen, none, s)
      | some i => (((s.handOut i).opentab i).oFileid.toInt, some i, s.handOut i) := by
  induction is with
  | nil => rfl
  | cons i is ih =>
    rw [openfileAlloc]
    split
    · rename_i h0
      rw [if_neg (by omega), find?_cons_of_pos (by simpa using .inl h0)]
    · rename_i h1
      by_cases hh : hostFd = some i
      · rw [if_pos hh, find?_cons_of_neg, ih]
        simp [FsServer.Free, h1, hh]
      · rw [if_neg hh, find?_cons_of_pos]
        simp [FsServer.Free, h1, hh]
    · rename_i h0 h1
      rw [find?_cons_of_neg, ih]
      rw [decide_eq_true_eq]
      rintro (h | ⟨h, -⟩)
      · exact h0 h
      · exact h1 h

/-- The first entry that can be handed out. -/
def FsServer.FirstFree (hostFd : Option OpenIx) (s : FsServer) (i : OpenIx) : Prop :=
  s.Free hostFd i ∧ ∀ j < i, ¬ s.Free hostFd j

theorem find?_finRange_iff {k : Nat} (p : Fin k → Prop) [DecidablePred p] (i : Fin k) :
    (List.finRange k).find? (fun i => p i) = some i ↔ p i ∧ ∀ j < i, ¬ p j := by
  rw [find?_eq_some_iff_getElem]
  simp only [decide_eq_true_eq, length_finRange, getElem_finRange, Fin.cast_mk,
    Bool.not_eq_true', decide_eq_false_iff_not]
  constructor
  · rintro ⟨hp, a, ha, rfl, hlt⟩
    exact ⟨hp, fun j hj => hlt j hj⟩
  · rintro ⟨hp, hlt⟩
    exact ⟨hp, i, i.isLt, rfl, fun j hj => hlt ⟨j, by omega⟩ hj⟩

theorem openfileAlloc_first {pageAlloc : Int} (hpa : 0 ≤ pageAlloc) (h : s.FirstFree hostFd i) :
    openfileAlloc hostFd pageAlloc s (List.finRange 1024) =
      (((s.handOut i).opentab i).oFileid.toInt, some i, s.handOut i) := by
  rw [openfileAlloc_find hpa, (find?_finRange_iff _ i).mpr h]

theorem firstFree_of_openfileAlloc {pageAlloc : Int} (hpa : 0 ≤ pageAlloc)
    (h : (openfileAlloc hostFd pageAlloc s (List.finRange 1024)).2.1 = some i) :
    s.FirstFree hostFd i := by
  rw [openfileAlloc_find hpa] at h
  cases hfind : (List.finRange 1024).find? fun i => s.Free hostFd i with
  | none =>
    rw [hfind] at h
    cases h
  | some j =>
    rw [hfind] at h
    cases h
    exact (find?_finRange_iff _ i).mp hfind

/-! ### The ids of a run -/

/-- The ids that the entries have and have had. -/
structure Numbered (s : FsServer) (l : List OpenEvent) : Prop where
  current : ∀ i, (s.opentab i).oFileid = fileidAfter i (handedOut l i)
  past : ∀ i id, (∃ v ∈ l, v.slot = i ∧ v.fileid = id) ↔
    ∃ n < handedOut l i, id = fileidAfter i (n + 1)

theorem handedOut_cons_self (v : OpenEvent) : handedOut (v :: l) v.slot = handedOut l v.slot + 1 :=
  countP_cons_of_pos (by simp)

theorem handedOut_cons_ne {v : OpenEvent} (h : i ≠ v.slot) : handedOut (v :: l) i = handedOut l i :=
  countP_cons_of_neg (by simpa using h.symm)

theorem handOut_fileid (h : Numbered s l) (i : OpenIx) :
    ((s.handOut i).opentab i).oFileid = fileidAfter i (handedOut l i + 1) := by
  rw [FsServer.handOut]
  dsimp only
  rw [update_self]
  dsimp only
  rw [h.current, fileidAfter, fileidAfter, ← ofNat_add, Nat.mul_add_one, Nat.add_assoc]

/-- An entry is handed out once more. -/
theorem Numbered.handOut (h : Numbered s l) {returned : Bool}
    (hid : (s'.opentab i).oFileid = ((s.handOut i).opentab i).oFileid)
    (hrest : ∀ j, j ≠ i → s'.opentab j = s.opentab j) :
    Numbered s' (⟨i, (s'.opentab i).oFileid, returned⟩ :: l) := by
  rw [handOut_fileid h] at hid
  refine ⟨fun j => ?_, fun j id => ?_⟩
  · by_cases hj : j = i
    · subst hj
      rw [hid, handedOut_cons_self]
    · rw [hrest j hj, handedOut_cons_ne hj, h.current]
  · by_cases hj : j = i
    · subst hj
      rw [handedOut_cons_self, hid]
      simp only [mem_cons, Nat.lt_succ_iff_lt_or_eq]
      constructor
      · rintro ⟨v, rfl | hv, hslot, rfl⟩
        · exact ⟨_, .inr rfl, rfl⟩
        · obtain ⟨n, hn, hid⟩ := (h.past j v.fileid).mp ⟨v, hv, hslot, rfl⟩
          exact ⟨n, .inl hn, hid⟩
      · rintro ⟨n, hn | rfl, rfl⟩
        · obtain ⟨v, hv, hslot, hid⟩ := (h.past j _).mpr ⟨n, hn, rfl⟩
          exact ⟨v, .inr hv, hslot, hid⟩
        · exact ⟨_, .inl rfl, rfl, rfl⟩
    · rw [handedOut_cons_ne hj, ← h.past]
      simp only [mem_cons]
      constructor
      · rintro ⟨v, rfl | hv, hslot, hid⟩
        · exact absurd hslot.symm hj
        · exact ⟨v, hv, hslot, hid⟩
      · rintro ⟨v, hv, hslot, hid⟩
        exact ⟨v, .inr hv, hslot, hid⟩

theorem serveInit_numbered (hostFd : Option OpenIx) : Numbered (serveInit hostFd) [] where
  current _ := rfl
  past _ _ := ⟨fun ⟨_, h, _⟩ => absurd h not_mem_nil,
    fun ⟨_, h, _⟩ => absurd h (Nat.not_lt_zero _)⟩

theorem Numbered.openFile (h : Numbered s l) (omode : BitVec 32) (a : FsAnswers) (accepts : Bool) :
    Numbered ((FsOp.openFile omode a accepts).exec hostFd s)
      ((FsOp.openFile omode a accepts).events hostFd s ++ l) := by
  unfold FsOp.exec FsOp.events
  dsimp only
  obtain ⟨r, hs⟩ | ⟨i, -, ⟨r, hs⟩ | ⟨f, hs⟩⟩ := serveOpen_spec hostFd omode a s
  · rw [hs]
    exact h
  · rw [hs]
    exact h.handOut rfl fun j hj => update_of_ne hj ..
  · rw [hs]
    dsimp only
    have hid : (((s.handOut i).install i f omode).opentab i).oFileid =
        ((s.handOut i).opentab i).oFileid := by
      rw [FsServer.install]
      dsimp only
      rw [update_self]
    have hrest : ∀ j, j ≠ i → ((s.handOut i).install i f omode).opentab j = s.opentab j :=
      fun j hj => (update_of_ne hj ..).trans (update_of_ne hj ..)
    cases accepts with
    | false => exact h.handOut hid hrest
    | true => exact h.handOut hid hrest

/-- **The ids of a run**: each entry has had the ids that follow its number, one for each time it was
handed out. -/
theorem FsRun.numbered (hr : FsRun hostFd C s l) : Numbered s l := by
  induction hr with
  | start => exact serveInit_numbered hostFd
  | step op _ _ _ ih =>
    cases op with
    | openFile omode a accepts => exact ih.openFile omode a accepts
    | map i => exact ⟨ih.current, ih.past⟩
    | unmap i => exact ⟨ih.current, ih.past⟩

/-! ### Fresh ids -/

theorem fileidAfter_inj (hmn : m ≤ n) : fileidAfter i m = fileidAfter i n ↔ 2 ^ 22 ∣ n - m := by
  have hi := i.isLt
  rw [fileidAfter, fileidAfter, ← toNat_inj, toNat_ofNat, toNat_ofNat]
  omega

theorem fileidAfter_nonneg (i : OpenIx) (n : Nat) :
    0 ≤ (fileidAfter i n).toInt ↔ n % 2 ^ 22 < 2 ^ 21 := by
  have hi := i.isLt
  rw [toInt_eq_toNat_cond, fileidAfter, toNat_ofNat]
  split <;> omega

theorem fileidAfter_mod (i : OpenIx) (n : Nat) : (fileidAfter i n).toInt % 1024 = i := by
  have hi := i.isLt
  rw [toInt_eq_toNat_cond, fileidAfter, toNat_ofNat]
  split <;> omega

/-- **When an open gets a fresh id**: in every state of every run, if there is a page for it,
`openfile_alloc` returns a fresh id exactly if there is an entry that can be handed out, and the
first one was handed out less than `2 ^ 21 - 1` times, or `2 ^ 22 - 1` times. -/
theorem openfileAlloc_fresh (hr : FsRun hostFd C s l) {pageAlloc : Int} (hpa : 0 ≤ pageAlloc) :
    FreshId l (openfileAlloc hostFd pageAlloc s (List.finRange 1024)) ↔
      ∃ i, s.FirstFree hostFd i ∧ (handedOut l i < 2 ^ 21 - 1 ∨ handedOut l i = 2 ^ 22 - 1) := by
  have h := hr.numbered
  constructor
  · rintro ⟨i, hi, hnonneg, -, hnew⟩
    have hfree := firstFree_of_openfileAlloc hpa hi
    have heq := congrArg Prod.fst (openfileAlloc_first hpa hfree)
    rw [handOut_fileid h] at heq
    dsimp only at heq
    rw [heq] at hnonneg hnew
    refine ⟨i, hfree, ?_⟩
    by_contra hnot
    rw [fileidAfter_nonneg] at hnonneg
    -- the id is repeated: it is the one of `2 ^ 22` times before
    have hlt : handedOut l i - 2 ^ 22 < handedOut l i := by omega
    obtain ⟨v, hv, hslot, hid⟩ := (h.past i _).mpr ⟨_, hlt, rfl⟩
    refine hnew v hv hslot (congrArg _ (hid.trans ((fileidAfter_inj (by omega)).mpr ⟨1, by omega⟩)))
  · rintro ⟨i, hfree, hn⟩
    have heq := openfileAlloc_first hpa hfree
    rw [handOut_fileid h] at heq
    rw [heq]
    refine ⟨i, rfl, ?_⟩
    dsimp only
    refine ⟨(fileidAfter_nonneg i _).mpr (by omega), fileidAfter_mod i _, ?_⟩
    intro v hv hslot heq
    obtain ⟨n, hlt, hid⟩ := (h.past i _).mp ⟨v, hv, hslot, rfl⟩
    have heq := (fileidAfter_inj (by omega)).mp (hid.symm.trans (eq_of_toInt_eq heq))
    omega

theorem firstFree_zero (h : s.Free hostFd 0) : s.FirstFree hostFd 0 :=
  ⟨h, fun j hj => absurd hj (Fin.not_lt_zero j)⟩

/-- The first open after `serve_init`. -/
theorem openfileAlloc_fresh_first : FsRun none (fun _ _ => True) (serveInit none) [] ∧
    FreshId [] (openfileAlloc none 0 (serveInit none) (List.finRange 1024)) :=
  ⟨.start, (openfileAlloc_fresh (C := fun _ _ => True) .start (by decide)).mpr
    ⟨0, firstFree_zero (.inl rfl), .inl (by decide)⟩⟩

/-! ### An entry that is handed out again and again -/

theorem handOut_free (h : s.Free hostFd i) (hi : hostFd ≠ some i) : (s.handOut i).Free hostFd i := by
  have hmapped : (s.handOut i).fdMapped i = true := update_self ..
  refine .inr ⟨?_, hi⟩
  rw [FsServer.pageref, if_pos hmapped, FsServer.handOut]
  dsimp only
  split
  · simp
  · rename_i hne
    obtain h0 | ⟨h1, -⟩ := h
    · exact absurd h0 hne
    · rw [FsServer.pageref] at h1
      split at h1
      · exact h1
      · cases h1

/-- A request for a file that is not there. -/
def openMissing : FsOp := .openFile 0 ⟨0, .error (-12), .error (-12), 0⟩ false

theorem openMissing_step (h : s.Free none 0) : openMissing.exec none s = s.handOut 0 ∧
    ∃ v : OpenEvent, v.slot = 0 ∧ openMissing.events none s = [v] := by
  have halloc := openfileAlloc_first (Int.le_refl 0) (firstFree_zero h)
  have hopen : ∃ r, serveOpen none 0 ⟨0, .error (-12), .error (-12), 0⟩ s =
      (.error r, some 0, s.handOut 0) := by
    unfold serveOpen
    dsimp only
    rw [halloc]
    dsimp only
    split
    · exact ⟨_, rfl⟩
    · exact ⟨_, rfl⟩
  obtain ⟨r, hopen⟩ := hopen
  unfold openMissing FsOp.exec FsOp.events
  dsimp only
  rw [hopen]
  exact ⟨rfl, _, rfl, rfl⟩

/-- The entry 0 can be handed out any number of times. -/
theorem exists_handedOut (n : Nat) : ∃ s l, FsRun none (fun _ _ => True) s l ∧
    s.Free none 0 ∧ handedOut l 0 = n := by
  induction n with
  | zero => exact ⟨_, _, .start, .inl rfl, rfl⟩
  | succ n ih =>
    obtain ⟨s, l, hr, hfree, hn⟩ := ih
    obtain ⟨hexec, v, hslot, hevents⟩ := openMissing_step hfree
    have hr' := hr.step openMissing trivial trivial
    rw [hexec, hevents] at hr'
    refine ⟨s.handOut 0, [v] ++ l, hr', handOut_free hfree nofun, ?_⟩
    rw [singleton_append, ← hslot, handedOut_cons_self, hslot, hn]

/-- **After `2 ^ 21 - 1` requests for a missing file** the id that `openfile_alloc` returns is
negative, although the entry is free and there is a page for it. -/
theorem openfileAlloc_negative : ∃ s l, FsRun none (fun _ _ => True) s l ∧ s.Free none 0 ∧
    (openfileAlloc none 0 s (List.finRange 1024)).1 = -2 ^ 31 ∧
    ¬ FreshId l (openfileAlloc none 0 s (List.finRange 1024)) := by
  obtain ⟨s, l, hr, hfree, hn⟩ := exists_handedOut (2 ^ 21 - 1)
  have heq := openfileAlloc_first (Int.le_refl 0) (firstFree_zero hfree)
  rw [handOut_fileid hr.numbered, hn] at heq
  have hneg : (openfileAlloc none 0 s (List.finRange 1024)).1 = -2 ^ 31 := by
    rw [heq]
    exact (by decide : (fileidAfter 0 (2 ^ 21 - 1 + 1)).toInt = -2 ^ 31)
  refine ⟨s, l, hr, hfree, hneg, ?_⟩
  rintro ⟨i, -, hnonneg, -⟩
  rw [hneg] at hnonneg
  exact absurd hnonneg (by decide)

end JosVmm
