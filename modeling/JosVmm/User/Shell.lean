import Mathlib.Data.List.TakeWhile

/-!
# User programs — the tokens of a command line

`_gettoken` and `gettoken` of `user/sh.c`.  The scan overwrites the line: white space and symbols
become zeros, and it is one token ahead of what `gettoken` returns, so that the end of a word is
overwritten, or is the end of the line, by the time the word is returned.

A line is in a buffer that ends with its terminator.  What is read past the end of the buffer is
an error, so that a scan that succeeds has not looked behind the terminator.

* `_gettoken_spec` — one scan finds the next token, and leaves the rest of the line alone;
* `gettoken_tokens` — the calls return the tokens of the line, in order, and then 0.
-/

namespace JosVmm.Shell

open List

abbrev Chars := List (BitVec 8)

/-- The characters of a string. -/
def chars (s : String) : Chars := s.toList.map fun c => BitVec.ofNat 8 c.toNat

/-- `WHITESPACE` and `SYMBOLS`. -/
def whitespace : Chars := chars " \t\r\n"
def symbols : Chars := chars "<|>&;()"

/-- `strchr`, of a string whose characters before its end are `s`. -/
def strchr : Chars → BitVec 8 → Option Nat
  | [], _ => none
  | x :: s, c => if x = c then some 0 else (strchr s c).map (· + 1)

/-! ### The scan -/

/-- `while (strchr(WHITESPACE, *s)) *s++ = 0`. -/
def skipWhite (buf : Chars) (s : Nat) : Option (Chars × Nat) :=
  match h : buf[s]? with
  | none => none
  | some x => if (strchr whitespace x).isSome then skipWhite (buf.set s 0#8) (s + 1) else some (buf, s)
termination_by buf.length - s
decreasing_by
  obtain ⟨hlt, -⟩ := List.getElem?_eq_some_iff.mp h
  rw [length_set]
  omega

/-- `while (*s && !strchr(WHITESPACE SYMBOLS, *s)) s++`. -/
def skipWord (buf : Chars) (s : Nat) : Option Nat :=
  match h : buf[s]? with
  | none => none
  | some x =>
    if x ≠ 0#8 ∧ (strchr (whitespace ++ symbols) x).isNone then skipWord buf (s + 1) else some s
termination_by buf.length - s
decreasing_by
  obtain ⟨hlt, -⟩ := List.getElem?_eq_some_iff.mp h
  omega

/-- What `_gettoken` returns and stores: the kind of the token, `*p1` and `*p2`. -/
structure Scan where
  kind : BitVec 8
  p1 : Option Nat
  p2 : Option Nat

/-- `'w'`. -/
def wordKind : BitVec 8 := 0x77#8

/-- `_gettoken`; `old` is what `*p1` and `*p2` hold before. -/
def _gettoken (buf : Chars) (old : Scan) : Option Nat → Option (Scan × Chars)
  | none => some ({ old with kind := 0#8 }, buf)
  | some s => do
    let (buf, s) ← skipWhite buf s
    let x ← buf[s]?
    if x = 0#8 then
      return (⟨0#8, none, none⟩, buf)
    else if (strchr symbols x).isSome then
      return (⟨x, some s, some (s + 1)⟩, buf.set s 0#8)
    else
      let e ← skipWord buf s
      return (⟨wordKind, some s, some e⟩, buf)

/-- The static variables of `gettoken`, and the buffer. -/
structure State where
  c : BitVec 8
  next : Scan
  buf : Chars

/-- `gettoken`: what it returns and stores in `*p1`, which is not set if there is a new line. -/
def gettoken (st : State) : Option Nat → Option ((BitVec 8 × Option Nat) × State)
  | some s => do
    let (next, buf) ← _gettoken st.buf st.next (some s)
    return ((0#8, none), { st with next := next, buf := buf })
  | none => do
    let (next, buf) ← _gettoken st.buf st.next st.next.p2
    return ((st.next.kind, st.next.p1), ⟨st.next.kind, next, buf⟩)

/-- What a call of `gettoken(0, &t)` gives: the kind of the token, `t`, and the buffer then. -/
structure Answer where
  kind : BitVec 8
  t : Option Nat
  buf : Chars

/-- The answers of the next `n` calls. -/
def answers : Nat → State → Option (List Answer)
  | 0, _ => some []
  | n + 1, st => do
    let ((kind, t), st) ← gettoken st none
    return ⟨kind, t, st.buf⟩ :: (← answers n st)

/-- `gettoken(s, 0)` for a line, and `n` calls of `gettoken(0, &t)`. -/
def tokenize (n : Nat) (line : Chars) : Option (List Answer) := do
  let (_, st) ← gettoken ⟨0#8, ⟨0#8, none, none⟩, line ++ [0#8]⟩ (some 0)
  answers n st

/-! ### The tokens of a line -/

def IsSpace (x : BitVec 8) : Prop := x ∈ whitespace

def IsSymbol (x : BitVec 8) : Prop := x ∈ symbols

instance : DecidablePred IsSpace := fun x => inferInstanceAs (Decidable (x ∈ whitespace))
instance : DecidablePred IsSymbol := fun x => inferInstanceAs (Decidable (x ∈ symbols))

/-- A character of a word. -/
def IsWord (x : BitVec 8) : Prop := ¬ IsSpace x ∧ ¬ IsSymbol x

instance : DecidablePred IsWord := fun _ => inferInstanceAs (Decidable (_ ∧ _))

inductive Token where
  | symbol (x : BitVec 8)
  | word (w : Chars)
  deriving DecidableEq

/-- What `gettoken` returns for it. -/
def Token.kind : Token → BitVec 8
  | symbol x => x
  | word _ => wordKind

/-- **The tokens of a line**: its symbols, and the maximal runs of characters that are neither symbols
nor white space. -/
def tokens : Chars → List Token
  | [] => []
  | x :: l =>
    if IsSpace x then tokens l
    else if IsSymbol x then .symbol x :: tokens l
    else .word (x :: l.takeWhile fun y => decide (IsWord y)) ::
      tokens (l.dropWhile fun y => decide (IsWord y))
termination_by l => l.length
decreasing_by
  · exact Nat.lt_succ_self _
  · exact Nat.lt_succ_self _
  · exact Nat.lt_succ_of_le (dropWhile_suffix _).length_le

/-- The string `w` is at `p`, with its terminator. -/
def HoldsString (buf : Chars) (p : Nat) (w : Chars) : Prop := (w ++ [0#8]) <+: buf.drop p

/-- The call has returned the token, and `t` is at the word if there is one; after the last token it
returns 0. -/
def Answer.Gives (a : Answer) : Option Token → Prop
  | none => a.kind = 0#8
  | some (.symbol x) => a.kind = x
  | some (.word w) => a.kind = wordKind ∧ 0#8 ∉ w ∧ ∃ p, a.t = some p ∧ HoldsString a.buf p w

variable {buf pre ws w l : Chars} {x : BitVec 8} {n : Nat} {st st' : State} {ts : List Token}

/-! ### Characters -/

theorem strchr_isSome {s : Chars} : (strchr s x).isSome ↔ x ∈ s := by
  induction s with
  | nil => simp [strchr]
  | cons y s ih =>
    rw [strchr, mem_cons]
    split
    · simp [*]
    · rw [Option.isSome_map, ih, or_iff_right]
      intro h
      exact absurd h.symm ‹_›

theorem strchr_isNone : (strchr (whitespace ++ symbols) x).isNone ↔ IsWord x := by
  rw [← Option.not_isSome_iff_eq_none.trans Option.isNone_iff_eq_none.symm, strchr_isSome,
    mem_append, not_or]
  rfl

theorem not_isSpace_zero : ¬ IsSpace 0#8 := by decide

theorem getElem?_length (pre : Chars) (x : BitVec 8) (l : Chars) :
    (pre ++ x :: l)[pre.length]? = some x := by
  rw [getElem?_append_right (Nat.le_refl _), Nat.sub_self]
  rfl

theorem set_length (pre : Chars) (x y : BitVec 8) (l : Chars) :
    (pre ++ x :: l).set pre.length y = pre ++ y :: l := by
  rw [set_append_right _ _ (Nat.le_refl _), Nat.sub_self]
  rfl

/-! ### The loops -/

theorem skipWhite_of {s : Nat} (h : buf[s]? = some x) : skipWhite buf s =
    if IsSpace x then skipWhite (buf.set s 0#8) (s + 1) else some (buf, s) := by
  rw [skipWhite]
  split
  · rename_i hnone
    cases h.symm.trans hnone
  · rename_i y hy
    obtain rfl := Option.some.inj (h.symm.trans hy)
    exact if_congr strchr_isSome rfl rfl

theorem skipWord_of {s : Nat} (h : buf[s]? = some x) : skipWord buf s =
    if x ≠ 0#8 ∧ IsWord x then skipWord buf (s + 1) else some s := by
  rw [skipWord]
  split
  · rename_i hnone
    cases h.symm.trans hnone
  · rename_i y hy
    obtain rfl := Option.some.inj (h.symm.trans hy)
    exact if_congr (and_congr_right fun _ => strchr_isNone) rfl rfl

/-- White space up to another character is overwritten. -/
theorem skipWhite_run (pre : Chars) (hws : ∀ y ∈ ws, IsSpace y) (hx : ¬ IsSpace x) :
    skipWhite (pre ++ (ws ++ x :: l)) pre.length =
      some (pre ++ (List.replicate ws.length 0#8 ++ x :: l), pre.length + ws.length) := by
  induction ws generalizing pre with
  | nil =>
    rw [nil_append, skipWhite_of (getElem?_length pre x l), if_neg hx]
    rfl
  | cons y ws ih =>
    rw [cons_append, skipWhite_of (getElem?_length pre y _), if_pos (hws y (by simp)), set_length]
    have hrest := ih (pre ++ [0#8]) fun z hz => hws z (mem_cons_of_mem y hz)
    rw [length_append, append_assoc, append_assoc] at hrest
    rw [length_cons, replicate_succ, Nat.add_comm ws.length, ← Nat.add_assoc]
    exact hrest

/-- A word is skipped, up to its end. -/
theorem skipWord_run (pre : Chars) (hw : ∀ y ∈ w, y ≠ 0#8 ∧ IsWord y)
    (hx : ¬ (x ≠ 0#8 ∧ IsWord x)) :
    skipWord (pre ++ (w ++ x :: l)) pre.length = some (pre.length + w.length) := by
  induction w generalizing pre with
  | nil =>
    rw [nil_append, skipWord_of (getElem?_length pre x l), if_neg hx]
    rfl
  | cons y w ih =>
    rw [cons_append, skipWord_of (getElem?_length pre y _), if_pos (hw y (by simp))]
    have hrest := ih (pre ++ [y]) fun z hz => hw z (mem_cons_of_mem y hz)
    rw [length_append, append_assoc] at hrest
    rw [length_cons, Nat.add_comm w.length, ← Nat.add_assoc]
    exact hrest

/-! ### One scan -/

/-- The scan has found the first of the tokens `ts`, if there is one, and the rest of the line is
still there behind it.  The part of the buffer before `p` has not been touched. -/
inductive Ahead : Scan → Chars → List Token → Prop
  | done (buf : Chars) : Ahead ⟨0#8, none, none⟩ buf []
  | symbol (pre : Chars) (x : BitVec 8) (p : Option Nat) (rest : Chars) : 0#8 ∉ rest →
      Ahead ⟨x, p, some pre.length⟩ (pre ++ (rest ++ [0#8])) (.symbol x :: tokens rest)
  | word (pre w rest : Chars) : 0#8 ∉ w → 0#8 ∉ rest → (∀ x ∈ rest.head?, ¬ IsWord x) →
      Ahead ⟨wordKind, some pre.length, some (pre ++ w).length⟩ (pre ++ w ++ (rest ++ [0#8]))
        (.word w :: tokens rest)

theorem tokens_space (hws : ∀ y ∈ ws, IsSpace y) (l : Chars) : tokens (ws ++ l) = tokens l := by
  induction ws with
  | nil => rfl
  | cons y ws ih =>
    rw [cons_append, tokens, if_pos (hws y (by simp))]
    exact ih fun z hz => hws z (mem_cons_of_mem y hz)

/-- A list up to the first element without a property. -/
theorem exists_run (P : BitVec 8 → Prop) [DecidablePred P] (l : Chars) : ∃ l₁ l₂, l = l₁ ++ l₂ ∧
    l₁ = l.takeWhile (fun y => decide (P y)) ∧ l₂ = l.dropWhile (fun y => decide (P y)) ∧
    (∀ y ∈ l₁, P y) ∧ ∀ y ∈ l₂.head?, ¬ P y := by
  refine ⟨_, _, List.takeWhile_append_dropWhile.symm, rfl, rfl, fun y hy => ?_, fun y hy => ?_⟩
  · simpa using mem_takeWhile_imp hy
  · have := head?_dropWhile_not (fun y => decide (P y)) l
    rw [Option.mem_def.mp hy] at this
    simpa using this

theorem tokens_nil : tokens [] = [] := by rw [tokens]

/-- A scan, by the character after the white space. -/
theorem _gettoken_of {buf' : Chars} {s s' : Nat} (hskip : skipWhite buf s = some (buf', s'))
    (hget : buf'[s']? = some x) (old : Scan) : _gettoken buf old (some s) =
      if x = 0#8 then some (⟨0#8, none, none⟩, buf')
      else if IsSymbol x then some (⟨x, some s', some (s' + 1)⟩, buf'.set s' 0#8)
      else (skipWord buf' s').map fun e => (⟨wordKind, some s', some e⟩, buf') := by
  rw [_gettoken, hskip]
  simp only [Option.bind_eq_bind, Option.bind_some, hget, Option.pure_def]
  refine if_congr Iff.rfl rfl (if_congr strchr_isSome rfl ?_)
  cases skipWord buf' s' <;> rfl

/-- **One scan** finds the next token.  It leaves what comes before `s` alone, and the character at
`s` becomes 0 unless it is part of a word. -/
theorem _gettoken_spec (pre rest : Chars) (old : Scan) (h0 : 0#8 ∉ rest) : ∃ next tail,
    _gettoken (pre ++ (rest ++ [0#8])) old (some pre.length) = some (next, pre ++ tail) ∧
      Ahead next (pre ++ tail) (tokens rest) ∧
      ((∀ x ∈ rest.head?, ¬ IsWord x) → tail.head? = some 0#8) := by
  obtain ⟨ws, l, rfl, -, -, hws, hl⟩ := exists_run IsSpace rest
  obtain ⟨zs, hzs, hlen⟩ : ∃ zs, zs = List.replicate ws.length 0#8 ∧
      (pre ++ zs).length = pre.length + ws.length :=
    ⟨_, rfl, by rw [length_append, length_replicate]⟩
  have hhead : ∀ tail : Chars, (ws = [] → tail.head? = some 0#8) →
      (zs ++ tail).head? = some 0#8 := by
    intro tail htail
    cases ws with
    | nil => rw [hzs]; exact htail rfl
    | cons y ws => rw [hzs]; rfl
  have hskip := fun x l => skipWhite_run (x := x) (l := l) pre hws
  rw [← hzs] at hskip
  simp only [← append_assoc pre, ← hlen] at hskip
  rw [tokens_space hws, append_assoc]
  -- what the character after the white space is
  cases l with
  | nil =>
    refine ⟨⟨0#8, none, none⟩, zs ++ [0#8], ?_, ?_, fun _ => hhead _ fun _ => rfl⟩
    · rw [nil_append, ← append_assoc pre, _gettoken_of (hskip 0#8 [] not_isSpace_zero)
        (getElem?_length ..), if_pos rfl, append_assoc]
    · rw [tokens_nil]
      exact .done _
  | cons x l =>
    have hx : ¬ IsSpace x := hl x rfl
    have hne : x ≠ 0#8 := by
      rintro rfl
      simp at h0
    have hl0 : 0#8 ∉ l := fun h => h0 (by simp [h])
    rw [cons_append, ← append_assoc pre, _gettoken_of (hskip x _ hx)
      (getElem?_length ..), if_neg hne, tokens, if_neg hx]
    by_cases hsym : IsSymbol x
    · refine ⟨⟨x, some (pre ++ zs).length, some ((pre ++ zs).length + 1)⟩,
        zs ++ 0#8 :: (l ++ [0#8]), ?_, ?_, fun _ => hhead _ fun _ => rfl⟩
      · rw [if_pos hsym, set_length, append_assoc]
      · rw [if_pos hsym]
        have := Ahead.symbol (pre ++ zs ++ [0#8]) x (some (pre ++ zs).length) l hl0
        simpa [Nat.add_assoc] using this
    · obtain ⟨w, l₂, hsplit, hw, hl2, hword, hend⟩ := exists_run IsWord l
      rw [if_neg hsym, if_neg hsym, ← hw, ← hl2]
      rw [hsplit, mem_append, not_or] at hl0
      have hall : ∀ y ∈ x :: w, y ≠ 0#8 ∧ IsWord y := by
        intro y hy
        rcases List.mem_cons.mp hy with rfl | hy
        · exact ⟨hne, hx, hsym⟩
        · exact ⟨fun h => hl0.1 (h ▸ hy), hword y hy⟩
      -- the word ends at a character of another kind, or at the end of the line
      obtain ⟨y, tl, htl, hy⟩ : ∃ y tl, l₂ ++ [0#8] = y :: tl ∧ ¬ (y ≠ 0#8 ∧ IsWord y) := by
        cases l₂ with
        | nil => exact ⟨0#8, [], rfl, fun h => h.1 rfl⟩
        | cons y tl => exact ⟨y, tl ++ [0#8], rfl, fun h => hend y rfl h.2⟩
      have hbuf : x :: (l ++ [0#8]) = (x :: w) ++ (l₂ ++ [0#8]) := by
        rw [hsplit, append_assoc, cons_append]
      refine ⟨⟨wordKind, some (pre ++ zs).length, some (pre ++ zs ++ x :: w).length⟩,
        zs ++ x :: w ++ (l₂ ++ [0#8]), ?_, ?_, fun hnot => ?_⟩
      · rw [hbuf, htl, skipWord_run _ hall hy, ← length_append]
        simp
      · have := Ahead.word (pre ++ zs) (x :: w) l₂ (fun h => (hall _ h).1 rfl) hl0.2 hend
        simpa using this
      · rw [append_assoc]
        refine hhead _ fun hnil => ?_
        subst hnil
        exact absurd ⟨hx, hsym⟩ (hnot x rfl)

/-! ### The calls -/

theorem gettoken_of {next : Scan} (h : _gettoken st.buf st.next st.next.p2 = some (next, buf)) :
    gettoken st none = some ((st.next.kind, st.next.p1), ⟨st.next.kind, next, buf⟩) := by
  rw [gettoken, h]
  rfl

/-- A call returns the token that has been found, and finds the next one. -/
theorem gettoken_ahead (h : Ahead st.next st.buf ts) : ∃ a st', gettoken st none = some (a, st') ∧
    Answer.Gives ⟨a.1, a.2, st'.buf⟩ ts.head? ∧ Ahead st'.next st'.buf ts.tail := by
  obtain ⟨c, next, buf⟩ := st
  cases h with
  | done => exact ⟨_, _, rfl, rfl, .done _⟩
  | symbol pre x p rest h0 =>
    obtain ⟨next', tail, hrun, hahead, -⟩ := _gettoken_spec pre rest
      ⟨x, p, some pre.length⟩ h0
    exact ⟨(x, p), ⟨x, next', pre ++ tail⟩, gettoken_of hrun, rfl, hahead⟩
  | word pre w rest hw h0 hend =>
    obtain ⟨next', tail, hrun, hahead, htail⟩ := _gettoken_spec (pre ++ w) rest
      ⟨wordKind, some pre.length, some (pre ++ w).length⟩ h0
    refine ⟨(wordKind, some pre.length), ⟨wordKind, next', pre ++ w ++ tail⟩, gettoken_of hrun,
      ⟨rfl, hw, pre.length, rfl, ?_⟩, hahead⟩
    obtain ⟨tl, rfl⟩ := List.head?_eq_some_iff.mp (htail hend)
    rw [HoldsString, append_assoc, drop_left]
    exact ⟨tl, by simp⟩

/-- The next `n` calls return the tokens that are left, and then 0. -/
theorem answers_ahead (h : Ahead st.next st.buf ts) (n : Nat) : ∃ l, answers n st = some l ∧
    l.length = n ∧ ∀ (k : Nat) a, l[k]? = some a → a.Gives ts[k]? := by
  induction n generalizing st ts with
  | zero => exact ⟨[], rfl, rfl, nofun⟩
  | succ n ih =>
    obtain ⟨a, st', hrun, hfirst, hahead⟩ := gettoken_ahead h
    obtain ⟨l, hl, hlen, hrest⟩ := ih hahead
    refine ⟨⟨a.1, a.2, st'.buf⟩ :: l, ?_, by rw [length_cons, hlen], fun k b hk => ?_⟩
    · rw [answers, hrun]
      simp [hl]
    · cases k with
      | zero =>
        obtain rfl := Option.some.inj hk
        rw [← head?_eq_getElem?]
        exact hfirst
      | succ k =>
        rw [getElem?_cons_succ] at hk
        rw [← getElem?_tail]
        exact hrest k b hk

/-- **The tokenizer of the shell**: for every line, `gettoken` returns its tokens in order, and then
0 as often as it is called; when a word is returned, `t` points to it, with its terminator.  No
call looks behind the terminator of the line. -/
theorem gettoken_tokens (line : Chars) (h0 : 0#8 ∉ line) (n : Nat) : ∃ l,
    tokenize n line = some l ∧ l.length = n ∧
      ∀ (k : Nat) a, l[k]? = some a → a.Gives (tokens line)[k]? := by
  obtain ⟨next, tail, hrun, hahead, -⟩ := _gettoken_spec [] line ⟨0#8, none, none⟩ h0
  rw [nil_append, length_nil] at hrun
  let st : State := ⟨0#8, next, [] ++ tail⟩
  have hahead : Ahead st.next st.buf (tokens line) := hahead
  obtain ⟨l, hl, hlen, hall⟩ := answers_ahead hahead n
  refine ⟨l, ?_, hlen, hall⟩
  rw [tokenize, gettoken, hrun]
  exact hl

/-- The line `ls<a`. -/
theorem gettoken_tokens_ls : tokens (chars "ls<a") =
      [.word (chars "ls"), .symbol 0x3C#8, .word (chars "a")] ∧
    ∃ l, tokenize 5 (chars "ls<a") = some l ∧ l.length = 5 ∧
      ∀ (k : Nat) a, l[k]? = some a → a.Gives (tokens (chars "ls<a"))[k]? :=
  ⟨by decide +kernel, gettoken_tokens (chars "ls<a") (by decide) 5⟩

end JosVmm.Shell
