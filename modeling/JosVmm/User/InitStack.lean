import JosVmm.User.Segments

/-!
# User library — the stack of a new program

`init_stack` lays out the arguments in a page at `UTEMP`, from its end down: the strings, the array of
pointers to them with a null pointer, and below it the words `argv` and `argc`.  The page is then
mapped as the stack of the child, and the pointers are addresses of the child.

If all fits in the page, the child finds its arguments (`initStack_fits`).  Whether it fits is tested
with one comparison after the subtractions, which are done modulo `2 ^ 64`: arguments that take
more than `UTEMP + PGSIZE` bytes pass the test, and are then stored to wherever the addresses
happen to be (`initStack_fault`).  `initStack_passes_iff` says for which arguments `init_stack`
is right.
-/

namespace JosVmm
open Support.Prog Support.Paged Function List SpawnWorld

variable {σ : Type} {c : SpawnCalls σ} {view : σ → SpawnWorld} {v w v' : SpawnWorld} {s s' : σ}
  {argv args : List (List (BitVec 8))} {f F : Nat → BitVec 8} {P S l l' arg : List (BitVec 8)}
  {a o o' p k : Nat} {va : Word}

/-! ### Contents of a page -/

theorem patch_of_not {x : Nat} (h : ¬ (o ≤ x ∧ x < o + l.length)) : patch f o l x = f x := by
  rw [patch]
  split
  · rw [getElem?_eq_none (by omega)]
    rfl
  · rfl

theorem patch_of_mem {x : Nat} (h : o ≤ x ∧ x < o + l.length) :
    some (patch f o l x) = l[x - o]? := by
  rw [patch, if_pos h.1, getElem?_eq_getElem (by omega)]
  rfl

/-- Bytes in two parts. -/
theorem patch_append (f : Nat → BitVec 8) (o : Nat) (l l' : List (BitVec 8)) :
    patch (patch f o l) (o + l.length) l' = patch f o (l ++ l') := by
  induction l generalizing f o with
  | nil => rw [patch_nil, length_nil, Nat.add_zero, nil_append]
  | cons b l ih =>
    rw [← patch_cons, length_cons, Nat.add_comm l.length 1, ← Nat.add_assoc, ih,
      cons_append, patch_cons]

/-- Bytes in two places. -/
theorem patch_comm (f : Nat → BitVec 8) (h : o + l.length ≤ o' ∨ o' + l'.length ≤ o) :
    patch (patch f o l) o' l' = patch (patch f o' l') o l := by
  funext x
  by_cases hx : o ≤ x ∧ x < o + l.length
  · rw [patch_of_not (by omega)]
    exact Option.some.inj ((patch_of_mem hx).trans (patch_of_mem hx).symm)
  · rw [patch_of_not (f := patch f o' l') hx]
    by_cases hx' : o' ≤ x ∧ x < o' + l'.length
    · exact Option.some.inj ((patch_of_mem hx').trans (patch_of_mem hx').symm)
    · rw [patch_of_not hx', patch_of_not hx, patch_of_not hx']

/-! ### The layout -/

/-- The length of the strings with their terminators. -/
def stringsLength (argv : List (List (BitVec 8))) : Nat := (argv.map fun arg => arg.length + 1).sum

/-- What is laid out: the strings up to a multiple of 8, a pointer to each of them and a null pointer,
and two words. -/
def stackSize (argv : List (List (BitVec 8))) : Nat :=
  (stringsLength argv + 7) / 8 * 8 + 8 * (argv.length + 1) + 16

/-- It fits in one page. -/
def FitsStack (argv : List (List (BitVec 8))) : Prop := stackSize argv ≤ 4096

/-- The strings with their terminators. -/
def stringBytes (argv : List (List (BitVec 8))) : List (BitVec 8) :=
  argv.flatMap fun arg => arg ++ [0#8]

/-- The addresses that the child has for strings that are copied to `stringStore` and on. -/
def argPointers : Word → List (List (BitVec 8)) → List Word
  | _, [] => []
  | stringStore, arg :: args => utemp2ustack stringStore ::
      argPointers (stringStore + (BitVec.ofNat 64 arg.length + 1#64)) args

theorem stringsLength_cons (arg : List (BitVec 8)) (args : List (List (BitVec 8))) :
    stringsLength (arg :: args) = arg.length + 1 + stringsLength args := sum_cons

theorem stringBytes_length (argv : List (List (BitVec 8))) :
    (stringBytes argv).length = stringsLength argv := by
  rw [stringBytes, length_flatMap, stringsLength]
  simp

theorem argPointers_length (stringStore : Word) (argv : List (List (BitVec 8))) :
    (argPointers stringStore argv).length = argv.length := by
  induction argv generalizing stringStore with
  | nil => rfl
  | cons arg args ih => rw [argPointers, length_cons, ih, length_cons]

theorem wordBytes_length (x : Word) : (wordBytes x).length = 8 := by
  rw [wordBytes, length_map, length_range]

theorem flatMap_wordBytes_length (l : List Word) : (l.flatMap wordBytes).length = 8 * l.length := by
  induction l with
  | nil => rfl
  | cons x l ih =>
    rw [flatMap_cons, length_append, ih, wordBytes_length, length_cons]
    omega

theorem stringSize_toNat (argv : List (List (BitVec 8))) :
    (stringSize argv).toNat = stringsLength argv % 2 ^ 64 := by
  have hfold : ∀ (argv : List (List (BitVec 8))) (n : Nat),
      argv.foldl (fun size arg => size + (BitVec.ofNat 64 arg.length + 1#64)) (BitVec.ofNat 64 n) =
        BitVec.ofNat 64 (n + stringsLength argv) := by
    intro argv
    induction argv with
    | nil => exact fun n => rfl
    | cons arg args ih =>
      intro n
      rw [foldl_cons, ← BitVec.ofNat_add, ← BitVec.ofNat_add, ih, stringsLength_cons, Nat.add_assoc]
  rw [stringSize, hfold, Nat.zero_add, BitVec.toNat_ofNat]

/-! ### The addresses -/

theorem stringStore_toNat (h : stringsLength argv ≤ 0x401000) :
    (stringStore argv).toNat = 0x401000 - stringsLength argv := by
  have hsize : (stringSize argv).toNat = stringsLength argv := by
    rw [stringSize_toNat, Nat.mod_eq_of_lt (by omega)]
  have htop : (utempVa + 4096#64).toNat = 0x401000 := by decide
  rw [stringStore, BitVec.toNat_sub_of_le (by rw [BitVec.le_def, hsize, htop]; exact h), hsize, htop]

theorem argcOf_toNat (h : argv.length < 2 ^ 32) : (argcOf argv).toNat = argv.length := by
  rw [argcOf, BitVec.toNat_ofNat, Nat.mod_eq_of_lt h]

/-- `8 * (argc + 1)` as an `int`. -/
def arraySize (argv : List (List (BitVec 8))) : Int :=
  (8 * (argv.length + 1) + 2 ^ 31 : Nat) % 2 ^ 32 - 2 ^ 31

/-- What is subtracted from `UTEMP + PGSIZE`. -/
def laidOut (argv : List (List (BitVec 8))) : Int :=
  ((stringsLength argv + 7) / 8 * 8 : Nat) + arraySize argv + 16

theorem laidOut_eq (h : stackSize argv < 2 ^ 31) : laidOut argv = stackSize argv := by
  rw [stackSize] at h ⊢
  rw [laidOut, arraySize]
  omega

theorem arraySize_toNat (argv : List (List (BitVec 8))) :
    (((8#32 * (argcOf argv + 1#32)).signExtend 64).toNat : Int) = arraySize argv % 2 ^ 64 := by
  have hint : (8#32 * (argcOf argv + 1#32)).toNat = 8 * (argv.length + 1) % 2 ^ 32 := by
    rw [argcOf, BitVec.toNat_mul, BitVec.toNat_add, BitVec.toNat_ofNat]
    simp only [BitVec.toNat_ofNat, Nat.reducePow, Nat.reduceMod]
    omega
  have hext : ((8#32 * (argcOf argv + 1#32)).signExtend 64).toInt = arraySize argv := by
    rw [BitVec.toInt_signExtend_of_le (by decide), BitVec.toInt_eq_toNat_cond, hint, arraySize]
    split <;> omega
  rw [← hext, BitVec.toInt_eq_toNat_cond]
  have := ((8#32 * (argcOf argv + 1#32)).signExtend 64).isLt
  split <;> omega

/-- **The address that is compared with `UTEMP`**, for any arguments. -/
theorem argvStore_toInt (argv : List (List (BitVec 8))) :
    ((argvStore argv - 16#64).toNat : Int) = (0x401000 - laidOut argv) % 2 ^ 64 := by
  have hstr : (stringStore argv).toNat =
      (2 ^ 64 - stringsLength argv % 2 ^ 64 + 0x401000) % 2 ^ 64 := by
    rw [stringStore, BitVec.toNat_sub, stringSize_toNat]
    rfl
  have hround : (stringStore argv - stringStore argv % 8#64).toNat =
      (stringStore argv).toNat / 8 * 8 := by
    have hmod : (stringStore argv % 8#64).toNat = (stringStore argv).toNat % 8 := BitVec.toNat_umod
    rw [BitVec.toNat_sub_of_le (by rw [BitVec.le_def, hmod]; omega), hmod]
    omega
  have hdown : (((stringStore argv - stringStore argv % 8#64).toNat : Nat) : Int) =
      (0x401000 - ((stringsLength argv + 7) / 8 * 8 : Nat)) % 2 ^ 64 := by
    rw [hround, hstr]
    generalize stringsLength argv = n
    omega
  have harray := arraySize_toNat argv
  rw [laidOut, argvStore, BitVec.toNat_sub, BitVec.toNat_sub]
  generalize ((8#32 * (argcOf argv + 1#32)).signExtend 64).toNat = A at harray ⊢
  generalize (stringStore argv - stringStore argv % 8#64).toNat = R at hdown ⊢
  generalize (stringsLength argv + 7) / 8 * 8 = n at hdown ⊢
  generalize arraySize argv = m at harray ⊢
  simp only [BitVec.toNat_ofNat, Nat.reducePow, Nat.reduceMod]
  omega

theorem argvStore_toNat (h : stackSize argv ≤ 0x401000) :
    (argvStore argv).toNat = 0x401000 - (stackSize argv - 16) := by
  have hstore := argvStore_toInt argv
  have hge : 16 ≤ stackSize argv := Nat.le_add_left ..
  rw [laidOut_eq (by omega), BitVec.toNat_sub] at hstore
  simp only [BitVec.toNat_ofNat, Nat.reducePow, Nat.reduceMod] at hstore
  omega

theorem sub_toNat {x : Word} {n : Nat} (h : n ≤ x.toNat) (hn : n < 2 ^ 64) :
    (x - BitVec.ofNat 64 n).toNat = x.toNat - n := by
  have hof : (BitVec.ofNat 64 n).toNat = n := by rw [BitVec.toNat_ofNat, Nat.mod_eq_of_lt hn]
  rw [BitVec.toNat_sub_of_le (by rw [BitVec.le_def, hof]; exact h), hof]

/-- As long as nothing wraps, the test is right. -/
theorem argvStore_lt_iff (h : stackSize argv ≤ 0x401000) :
    argvStore argv - 16#64 < utempVa ↔ ¬ FitsStack argv := by
  have hstore := argvStore_toNat h
  have hge : 16 ≤ stackSize argv := Nat.le_add_left ..
  rw [BitVec.lt_def, sub_toNat (by omega) (by decide), hstore, FitsStack]
  show _ < 0x400000 ↔ _
  omega

theorem utemp2ustack_toNat {x : Word} (h : x.toNat = 0x400000 + o) (ho : o ≤ 4096) :
    (utemp2ustack x).toNat = ustackVa.toNat + o := by
  have hu : ustackVa.toNat = 0xef7fd000 := by decide
  have ht : utempVa.toNat = 0x400000 := by decide
  have hadd : (x + ustackVa).toNat = 0x400000 + o + 0xef7fd000 := by
    rw [BitVec.toNat_add, h, hu]
    omega
  rw [utemp2ustack, BitVec.toNat_sub_of_le (by rw [BitVec.le_def, hadd, ht]; omega), hadd, ht, hu]
  omega

/-! ### The stores -/

theorem Does.run {f : SpawnWorld → Int × SpawnWorld} {x : Sm σ Int} {r : Int}
    (h : Does False view f x) (hf : f (view s) = (r, v')) :
    ∃ s', x.run s = .ok (r, s') ∧ view s' = v' := by
  obtain ⟨s', ⟨h1, h2⟩ | ⟨h, -⟩⟩ := h s
  · rw [hf] at h1 h2
    exact ⟨s', h1, h2⟩
  · exact h.elim

/-- The page at `UTEMP` has the contents `F`. -/
structure AtUtemp (w v : SpawnWorld) (p : Nat) (F : Nat → BitVec 8) : Prop where
  space : w.space .self 0x400 = some (p, 7#32)
  world : v = w.setPage p F

section

variable (hc : c.Documented False view)
include hc

/-- A store to the page at `UTEMP`. -/
theorem store_utemp (h : AtUtemp w (view s) p F) (hva : va.toNat = 0x400000 + o)
    (hl : o + l.length ≤ 4096) :
    ∃ s', (c.store va l).run s = .ok ((), s') ∧ AtUtemp w (view s') p (patch F o l) := by
  have hspace : (view s).space .self 0x400 = some (p, 7#32) := by
    rw [h.world]
    exact h.space
  have hpages : (view s).pages p = F := by
    rw [h.world, setPage_pages]
  have hstore := store_page hspace (by decide) hva hl
  have hdoes := hc.store va l s
  rw [hstore] at hdoes
  obtain ⟨s', hrun, hview⟩ := hdoes
  refine ⟨s', hrun, h.space, ?_⟩
  rw [hview, hpages, h.world, setPage_setPage]

/-- **The loop over the arguments** copies the strings from `o` on, and their addresses from `a`
on. -/
theorem storeArgs_run (h : AtUtemp w (view s) p (patch (patch f a P) o S)) {store strs : Word}
    {argc i : BitVec 32} (hstore : store.toNat = 0x400000 + a)
    (hstrs : strs.toNat = 0x400000 + (o + S.length)) (hi : i.toNat = k) (hP : P.length = 8 * k)
    (hargc : argc.toNat = k + args.length) (hsmall : argc.toNat < 2 ^ 31)
    (ha : a + 8 * argc.toNat ≤ o) (ho : o + S.length + stringsLength args ≤ 4096) :
    ∃ s' strs', (storeArgs c store argc args i strs).run s = .ok (strs', s') ∧
      strs'.toNat = 0x400000 + (o + S.length + stringsLength args) ∧
      AtUtemp w (view s') p (patch (patch f a (P ++ (argPointers strs args).flatMap wordBytes)) o
        (S ++ stringBytes args)) := by
  induction args generalizing s P S strs i k with
  | nil =>
    refine ⟨s, strs, rfl, hstrs, ?_⟩
    rw [argPointers, flatMap_nil, append_nil, stringBytes, flatMap_nil, append_nil]
    exact h
  | cons arg args ih =>
    rw [length_cons] at hargc
    rw [stringsLength_cons] at ho
    have hslt : i.slt argc = true := by
      rw [BitVec.slt, decide_eq_true_eq, BitVec.toInt_eq_toNat_of_lt (by omega),
        BitVec.toInt_eq_toNat_of_lt (by omega)]
      omega
    have hslot : (store + 8#64 * i.signExtend 64).toNat = 0x400000 + (a + 8 * k) := by
      rw [BitVec.toNat_add, BitVec.toNat_mul, signExtend_toNat (by omega), hstore, hi]
      simp only [BitVec.toNat_ofNat, Nat.reducePow, Nat.reduceMod]
      omega
    obtain ⟨s1, hrun1, h1⟩ := store_utemp hc h hslot (l := wordBytes (utemp2ustack strs))
      (by rw [wordBytes_length]; omega)
    rw [patch_comm _ (.inr (by rw [wordBytes_length]; omega)), ← hP, patch_append] at h1
    obtain ⟨s2, hrun2, h2⟩ := store_utemp hc h1 hstrs (l := arg ++ [0#8])
      (by rw [length_append, length_singleton]; omega)
    rw [patch_append] at h2
    have hstrs' : (strs + (BitVec.ofNat 64 arg.length + 1#64)).toNat =
        0x400000 + (o + (S ++ (arg ++ [0#8])).length) := by
      rw [BitVec.toNat_add, BitVec.toNat_add, hstrs, length_append, length_append, length_singleton]
      simp only [BitVec.toNat_ofNat, Nat.reducePow, Nat.reduceMod]
      omega
    have hi' : (i + 1#32).toNat = k + 1 := by
      rw [BitVec.toNat_add, hi]
      simp only [BitVec.toNat_ofNat, Nat.reducePow, Nat.reduceMod]
      omega
    have hlen : (S ++ (arg ++ [0#8])).length = S.length + (arg.length + 1) := by
      rw [length_append, length_append, length_singleton]
    obtain ⟨s', strs', hrun, hend, h'⟩ := ih h2 hstrs' hi'
      (by rw [length_append, wordBytes_length]; omega) (by omega) (by omega)
    refine ⟨s', strs', ?_, ?_, ?_⟩
    · rw [storeArgs, if_pos hslt, bind_ok hrun1, bind_ok hrun2, hrun]
    · rw [hend, hlen, stringsLength_cons]
      omega
    · rw [argPointers, flatMap_cons, stringBytes, flatMap_cons, ← append_assoc, ← append_assoc]
      exact h'

/-- The page at `UTEMP`, for arguments whose array is at `a` and whose strings are at `o`. -/
def stackPage (argv : List (List (BitVec 8))) (a o : Nat) : Nat → BitVec 8 :=
  patch (patch (patch (patch (fun _ => 0#8) a
    ((argPointers (stringStore argv) argv ++ [0#64]).flatMap wordBytes)) o (stringBytes argv))
    (a - 8) (wordBytes (utemp2ustack (argvStore argv)))) (a - 16)
    (wordBytes (BitVec.ofNat 64 argv.length))

/-- **What `init_stack` stores**, if all fits in the page. -/
theorem storeStack_run (h : AtUtemp w (view s) p fun _ => 0#8)
    (ha : (argvStore argv).toNat = 0x400000 + a) (ho : (stringStore argv).toNat = 0x400000 + o)
    (hstr : o + stringsLength argv = 4096) (harr : a + 8 * (argv.length + 1) ≤ o) (hwords : 16 ≤ a) :
    ∃ s', (storeStack c argv).run s = .ok ((), s') ∧ AtUtemp w (view s') p (stackPage argv a o) := by
  have hargc : (argcOf argv).toNat = argv.length := argcOf_toNat (by omega)
  have hext : (argcOf argv).signExtend 64 = BitVec.ofNat 64 argv.length := by
    refine BitVec.eq_of_toNat_eq ?_
    rw [signExtend_toNat (by omega), hargc, BitVec.toNat_ofNat, Nat.mod_eq_of_lt (by omega)]
  have hstart : AtUtemp w (view s) p (patch (patch (fun _ => 0#8) a []) o []) := by
    rw [patch_nil, patch_nil]
    exact h
  obtain ⟨s1, strs, hrun1, hstrs, h1⟩ := storeArgs_run hc hstart (k := 0) (i := 0#32) ha ho rfl rfl
    (by rw [hargc, Nat.zero_add]) (by omega) (by omega) (by rw [length_nil]; omega)
  rw [nil_append, nil_append] at h1
  have hlen : ((argPointers (stringStore argv) argv).flatMap wordBytes).length = 8 * argv.length := by
    rw [flatMap_wordBytes_length, argPointers_length]
  have hnull : (argvStore argv + 8#64 * (argcOf argv).signExtend 64).toNat =
      0x400000 + (a + 8 * argv.length) := by
    rw [hext, BitVec.toNat_add, BitVec.toNat_mul, ha]
    simp only [BitVec.toNat_ofNat, Nat.reducePow, Nat.reduceMod]
    omega
  obtain ⟨s2, hrun2, h2⟩ := store_utemp hc h1 hnull (l := wordBytes 0#64)
    (by rw [wordBytes_length]; omega)
  rw [patch_comm _ (.inr (by rw [wordBytes_length]; omega)), ← hlen, patch_append] at h2
  have hargv : (argvStore argv - 8#64).toNat = 0x400000 + (a - 8) := by
    rw [sub_toNat (by omega) (by decide)]
    omega
  have hlow : (argvStore argv - 16#64).toNat = 0x400000 + (a - 16) := by
    rw [sub_toNat (by omega) (by decide)]
    omega
  obtain ⟨s3, hrun3, h3⟩ := store_utemp hc h2 hargv (l := wordBytes (utemp2ustack (argvStore argv)))
    (by rw [wordBytes_length]; omega)
  obtain ⟨s4, hrun4, h4⟩ := store_utemp hc h3 hlow (l := wordBytes ((argcOf argv).signExtend 64))
    (by rw [wordBytes_length]; omega)
  have hend : strs = utempVa + 4096#64 := by
    refine BitVec.eq_of_toNat_eq ?_
    rw [hstrs, length_nil, Nat.add_zero, hstr]
    rfl
  refine ⟨s4, ?_, ?_⟩
  · rw [storeStack, bind_ok hrun1, bind_ok hrun2, if_neg (not_not.mpr hend), bind_ok hrun3, hrun4]
  · rw [hext] at h4
    rw [stackPage, flatMap_append, flatMap_singleton]
    exact h4

end

/-! ### What the child finds -/

/-- **The child finds its arguments**, in a new page at the top of its stack, and nothing else has been
written or mapped for it. -/
structure StackPassed (v v' : SpawnWorld) (argv : List (List (BitVec 8))) (rsp : Word) : Prop where
  /-- At `rsp` there is `argc`. -/
  argc : Holds v'.childByte rsp.toNat (wordBytes (BitVec.ofNat 64 argv.length))
  /-- Then there is the address of the array of pointers, which ends with a null pointer. -/
  argv : ∃ (array : Word) (pointers : List Word),
    Holds v'.childByte (rsp.toNat + 8) (wordBytes array) ∧
    Holds v'.childByte array.toNat ((pointers ++ [0#64]).flatMap wordBytes) ∧
    pointers.length = argv.length ∧
    ∀ (k : Nat) arg ptr, argv[k]? = some arg → pointers[k]? = some ptr →
      Holds v'.childByte ptr.toNat (arg ++ [0#8])
  /-- The page that was at `UTEMP` is now the child's; no other page is written. -/
  page : ∃ p l, v.free = p :: l ∧ v'.space .child (ustackVa.toNat / 4096) = some (p, 7#32) ∧
    ∀ q ≠ p, v'.pages q = v.pages q
  other : ∀ q ≠ ustackVa.toNat / 4096, v'.space .child q = v.space .child q

/-- Each pointer leads to its string. -/
theorem argPointers_hold {m : Mem (BitVec 8)} {strs : Word} (hstrs : strs.toNat = 0x400000 + o)
    (ho : o + stringsLength argv ≤ 4096) (h : Holds m (ustackVa.toNat + o) (stringBytes argv)) :
    ∀ (k : Nat) arg ptr, argv[k]? = some arg → (argPointers strs argv)[k]? = some ptr →
      Holds m ptr.toNat (arg ++ [0#8]) := by
  induction argv generalizing strs o with
  | nil => exact fun k arg ptr hk => absurd hk (by simp)
  | cons arg args ih =>
    rw [stringsLength_cons] at ho
    rw [stringBytes, flatMap_cons] at h
    intro k arg' ptr hk hptr
    cases k with
    | zero =>
      obtain rfl := Option.some.inj hk
      obtain rfl := Option.some.inj hptr
      rw [utemp2ustack_toNat hstrs (by omega)]
      exact h.left
    | succ k =>
      rw [getElem?_cons_succ] at hk
      rw [argPointers, getElem?_cons_succ] at hptr
      have hnext : (strs + (BitVec.ofNat 64 arg.length + 1#64)).toNat =
          0x400000 + (o + (arg.length + 1)) := by
        rw [BitVec.toNat_add, BitVec.toNat_add, hstrs]
        simp only [BitVec.toNat_ofNat, Nat.reducePow, Nat.reduceMod]
        omega
      have hrest := h.right
      rw [length_append, length_singleton, Nat.add_assoc] at hrest
      exact ih hnext (by omega) hrest k arg' ptr hk hptr

/-- What the child finds in the page that it has got. -/
theorem holds_of_page {F : Nat → BitVec 8} {q : Nat} {perm : BitVec 32}
    (hspace : v.space .child q = some (p, perm)) (hpages : v.pages p = F)
    (hl : o + l.length ≤ 4096) (hF : ∀ i < l.length, some (F (o + i)) = l[i]?) :
    Holds v.childByte (4096 * q + o) l := fun i hi => by
  rw [childByte, show (4096 * q + o + i) / 4096 = q by omega, hspace, Option.map_some,
    show (4096 * q + o + i) % 4096 = o + i by omega, hpages, hF i hi]

/-- Bytes that are not written over stay. -/
theorem patch_keeps (hF : ∀ i < l.length, some (F (o + i)) = l[i]?)
    (h : o + l.length ≤ o' ∨ o' + l'.length ≤ o) :
    ∀ i < l.length, some (patch F o' l' (o + i)) = l[i]? := fun i hi => by
  rw [patch_of_not (by omega), hF i hi]

theorem patch_holds (f : Nat → BitVec 8) (o : Nat) (l : List (BitVec 8)) :
    ∀ i < l.length, some (patch f o l (o + i)) = l[i]? := fun i hi => by
  rw [patch_of_mem ⟨Nat.le_add_right .., by omega⟩, Nat.add_sub_cancel_left]

/-- **The page that `init_stack` has stored** has the arguments, at the addresses of the child. -/
theorem stackPage_passed {l : List Nat} (hfree : v.free = p :: l)
    (ha : (argvStore argv).toNat = 0x400000 + a) (ho : (stringStore argv).toNat = 0x400000 + o)
    (hstr : o + stringsLength argv = 4096) (harr : a + 8 * (argv.length + 1) ≤ o)
    (hwords : 16 ≤ a) :
    StackPassed v (((((v.newPage .self 0x400 p l 7#32).setPage p (stackPage argv a o)).setSpace
      .child (ustackVa.toNat / 4096) (some (p, 7#32))).setSpace .self 0x400 none)) argv
      (utemp2ustack (argvStore argv - 16#64)) := by
  generalize hv' : (((v.newPage .self 0x400 p l 7#32).setPage p (stackPage argv a o)).setSpace
      .child (ustackVa.toNat / 4096) (some (p, 7#32))).setSpace .self 0x400 none = v'
  have hchild : v'.space .child =
      update (v.space .child) (ustackVa.toNat / 4096) (some (p, 7#32)) := by
    rw [← hv']
    simp only [SpawnWorld.setSpace, SpawnWorld.newPage, SpawnWorld.setPage]
    rw [update_of_ne (by decide), update_self, update_of_ne (by decide)]
  have hpages : v'.pages = update v.pages p (stackPage argv a o) := by
    rw [← hv']
    show update (update v.pages p _) p (stackPage argv a o) = _
    rw [update_idem]
  have hspace : v'.space .child (ustackVa.toNat / 4096) = some (p, 7#32) := by
    rw [hchild, update_self]
  have hpage : v'.pages p = stackPage argv a o := by rw [hpages, update_self]
  have hu : 4096 * (ustackVa.toNat / 4096) = ustackVa.toNat := by decide
  -- the four parts of the page
  have hholds : ∀ {o' : Nat} {l' : List (BitVec 8)}, o' + l'.length ≤ 4096 →
      (∀ i < l'.length, some (stackPage argv a o (o' + i)) = l'[i]?) →
      Holds v'.childByte (ustackVa.toNat + o') l' := by
    intro o' l' hl' hF
    rw [← hu]
    exact holds_of_page hspace hpage hl' hF
  have hlen : ((argPointers (stringStore argv) argv ++ [0#64]).flatMap wordBytes).length =
      8 * (argv.length + 1) := by
    rw [flatMap_wordBytes_length, length_append, argPointers_length, length_singleton]
  have hargc : Holds v'.childByte (ustackVa.toNat + (a - 16))
      (wordBytes (BitVec.ofNat 64 argv.length)) :=
    hholds (by rw [wordBytes_length]; omega) (patch_holds _ _ _)
  have hargv : Holds v'.childByte (ustackVa.toNat + (a - 8))
      (wordBytes (utemp2ustack (argvStore argv))) :=
    hholds (by rw [wordBytes_length]; omega) (patch_keeps (patch_holds _ _ _)
      (.inr (by rw [wordBytes_length]; omega)))
  have hptrs : Holds v'.childByte (ustackVa.toNat + a)
      ((argPointers (stringStore argv) argv ++ [0#64]).flatMap wordBytes) := by
    refine hholds (by omega) (patch_keeps (patch_keeps (patch_keeps (patch_holds _ _ _) ?_) ?_) ?_)
    · exact .inl (by omega)
    · exact .inr (by rw [wordBytes_length]; omega)
    · exact .inr (by rw [wordBytes_length]; omega)
  have hstrs : Holds v'.childByte (ustackVa.toNat + o) (stringBytes argv) := by
    refine hholds (by rw [stringBytes_length]; omega)
      (patch_keeps (patch_keeps (patch_holds _ _ _) ?_) ?_)
    · exact .inr (by rw [wordBytes_length]; omega)
    · exact .inr (by rw [wordBytes_length]; omega)
  have hrsp : (utemp2ustack (argvStore argv - 16#64)).toNat = ustackVa.toNat + (a - 16) :=
    utemp2ustack_toNat (by rw [sub_toNat (by omega) (by decide)]; omega) (by omega)
  refine ⟨?_, ⟨utemp2ustack (argvStore argv), argPointers (stringStore argv) argv, ?_, ?_,
    argPointers_length .., argPointers_hold ho (by omega) hstrs⟩, ⟨p, l, hfree, hspace, ?_⟩, ?_⟩
  · rw [hrsp]
    exact hargc
  · rw [hrsp, Nat.add_assoc, show a - 16 + 8 = a - 8 by omega]
    exact hargv
  · rw [utemp2ustack_toNat ha (by omega)]
    exact hptrs
  · intro q hq
    rw [hpages, update_of_ne hq]
  · intro q hq
    rw [hchild, update_of_ne hq]

/-! ### The system calls -/

theorem sysPageAlloc_utemp {l : List Nat} (hfree : v.free = p :: l) :
    v.sysPageAlloc 0#32 utempVa 7#32 = (0, v.newPage .self 0x400 p l 7#32) := by
  rw [sysPageAlloc, kin_zero]
  dsimp only
  rw [if_pos (by decide), hfree]
  rfl

theorem sysPageMap_utemp (hspace : v.space .self 0x400 = some (p, 7#32)) :
    v.sysPageMap 0#32 utempVa v.childId ustackVa 7#32 =
      (0, v.setSpace .child (ustackVa.toNat / 4096) (some (p, 7#32))) := by
  have hspace : v.space .self (utempVa.toNat / 4096) = some (p, 7#32) := hspace
  rw [SpawnWorld.sysPageMap, kin_zero, kin_child]
  dsimp only
  rw [if_pos (by decide), hspace]
  exact if_neg (by decide)

theorem SpawnWorld.newPage_space_of_ne {e : Kin} {q q' : Nat} {l : List Nat} {perm : BitVec 32}
    (h : q' ≠ q) : (v.newPage e q p l perm).space e q' = v.space e q' := by
  simp only [newPage, setSpace, setPage]
  rw [update_self, update_of_ne h]

/-! ### What the stores leave -/

theorem SpawnWorld.store_space (h : v.store l va = some v') :
    v'.space = v.space ∧ v'.childId = v.childId := by
  induction l generalizing v va with
  | nil =>
    cases h
    exact ⟨rfl, rfl⟩
  | cons b l ih =>
    rw [SpawnWorld.store, Option.bind_eq_some_iff] at h
    obtain ⟨u, hbyte, h⟩ := h
    rw [SpawnWorld.storeByte] at hbyte
    split at hbyte
    · cases hbyte
    · split at hbyte
      · cases hbyte
      · cases hbyte
        have h' := ih h
        exact h'

/-- There is no page for the first byte. -/
theorem SpawnWorld.store_none (h : v.space .self (va.toNat / 4096) = none) (hl : l ≠ []) :
    v.store l va = none := by
  obtain ⟨b, l, rfl⟩ := exists_cons_of_ne_nil hl
  rw [SpawnWorld.store, SpawnWorld.storeByte, h]
  rfl

/-- The environment maps what `w` maps. -/
def Maps (view : σ → SpawnWorld) (w : SpawnWorld) (s : σ) : Prop :=
  (view s).space = w.space ∧ (view s).childId = w.childId

section

variable (hc : c.Documented False view)
include hc

theorem store_maps (va : Word) (l : List (BitVec 8)) :
    Ensures (Maps view w) (c.store va l) fun _ => Maps view w := by
  intro s r s' hs hrun
  have hstore := hc.store va l s
  cases h : (view s).store l va with
  | none =>
    rw [h] at hstore
    rw [hstore] at hrun
    cases hrun
  | some v' =>
    rw [h] at hstore
    obtain ⟨s'', hrun', rfl⟩ := hstore
    rw [hrun'] at hrun
    cases hrun
    obtain ⟨h1, h2⟩ := store_space h
    exact ⟨h1.trans hs.1, h2.trans hs.2⟩

theorem storeArgs_maps (store : Word) (argc : BitVec 32) (args : List (List (BitVec 8)))
    (i : BitVec 32) (strs : Word) :
    Ensures (Maps view w) (storeArgs c store argc args i strs) fun _ => Maps view w := by
  induction args generalizing i strs with
  | nil => exact .skip
  | cons arg args ih =>
    rw [storeArgs]
    split
    · exact (store_maps hc _ _).bind fun _ => (store_maps hc _ _).bind fun _ => ih _ _
    · exact .skip

/-- **Whatever is stored**, the page at `UTEMP` stays there. -/
theorem storeStack_maps : Ensures (Maps view w) (storeStack c argv) fun _ => Maps view w := by
  refine (storeArgs_maps hc _ _ _ _ _).bind fun _ => (store_maps hc _ _).bind fun _ => ?_
  split
  · exact .throw
  · exact (store_maps hc _ _).bind fun _ => store_maps hc _ _

/-- If there is no page for the array, the first store is a page fault. -/
theorem storeStack_fault (h : (view s).space .self ((argvStore (arg :: args)).toNat / 4096) = none)
    (hargs : args.length < 2 ^ 31 - 1) : (storeStack c (arg :: args)).run s = .error .fault := by
  have hargc : (argcOf (arg :: args)).toNat = args.length + 1 := argcOf_toNat (by
    rw [length_cons]
    omega)
  have hslt : (0#32).slt (argcOf (arg :: args)) = true := by
    have hzero : (0#32).toInt = 0 := rfl
    rw [BitVec.slt, decide_eq_true_eq, hzero, BitVec.toInt_eq_toNat_of_lt (by omega)]
    omega
  have hslot : argvStore (arg :: args) + 8#64 * (0#32).signExtend 64 = argvStore (arg :: args) :=
    BitVec.add_zero _
  have hstore := hc.store (argvStore (arg :: args)) (wordBytes (utemp2ustack (stringStore (arg :: args)))) s
  rw [store_none h (by simp [wordBytes])] at hstore
  rw [storeStack, storeArgs, if_pos hslt, hslot, bind_error (bind_error hstore)]

end

/-! ### `init_stack` -/

/-- **If the test is passed**, `init_stack` stores to a page at `UTEMP`, which the child then gets. -/
theorem initStack_run {l : List Nat} (hc : c.Documented False view)
    (htest : ¬ argvStore argv - 16#64 < utempVa) (hfree : (view s).free = p :: l) :
    ∃ s1, view s1 = (view s).newPage .self 0x400 p l 7#32 ∧
      (∀ e, (storeStack c argv).run s1 = .error e →
        (initStack c (view s).childId argv).run s = .error e) ∧
      ∀ s2, (storeStack c argv).run s1 = .ok ((), s2) → ∃ s',
        (initStack c (view s).childId argv).run s =
          .ok (.ok (utemp2ustack (argvStore argv - 16#64)), s') ∧
        view s' = ((view s2).setSpace .child (ustackVa.toNat / 4096) (some (p, 7#32))).setSpace
          .self 0x400 none := by
  obtain ⟨s1, hrun1, h1⟩ := (hc.sysPageAlloc 0#32 utempVa 7#32).run (sysPageAlloc_utemp hfree)
  refine ⟨s1, h1, fun e hrun2 => ?_, fun s2 hrun2 => ?_⟩
  · rw [initStack, if_neg htest, bind_ok hrun1, if_neg (by decide), bind_error hrun2]
  obtain ⟨hspace, hchild⟩ := storeStack_maps hc (w := view s1) ⟨rfl, rfl⟩ hrun2
  have hspace2 : (view s2).space .self 0x400 = some (p, 7#32) := by
    rw [hspace, h1, newPage_space]
  have hid : (view s2).childId = (view s).childId := by
    rw [hchild, h1]
    rfl
  have hmap := sysPageMap_utemp hspace2
  rw [hid] at hmap
  obtain ⟨s3, hrun3, h3⟩ := (hc.sysPageMap _ _ _ _ _).run hmap
  obtain ⟨s4, hrun4, h4⟩ := (hc.sysPageUnmap _ _).run (view s3).sysPageUnmap_utemp
  rw [h3] at h4
  refine ⟨s4, ?_, h4⟩
  rw [initStack, if_neg htest, bind_ok hrun1, if_neg (by decide), bind_ok hrun2,
    bind_ok hrun3, if_neg (by decide), bind_ok hrun4, if_neg (by decide), run_pure]

/-- **If the arguments fit, the child finds them.** -/
theorem initStack_fits (hc : c.Documented False view) (hfit : FitsStack argv)
    (hfree : (view s).free ≠ []) :
    ∃ s' rsp, (initStack c (view s).childId argv).run s = .ok (.ok rsp, s') ∧
      StackPassed (view s) (view s') argv rsp := by
  obtain ⟨p, l, hfree⟩ := exists_cons_of_ne_nil hfree
  have hsize : (stringsLength argv + 7) / 8 * 8 + 8 * (argv.length + 1) + 16 ≤ 4096 := hfit
  have hle : stackSize argv ≤ 0x401000 := hfit.trans (by decide)
  have hA := argvStore_toNat hle
  have hS : (stringStore argv).toNat = 0x401000 - stringsLength argv := stringStore_toNat (by omega)
  obtain ⟨a, ha⟩ : ∃ a, a = 4096 - (stackSize argv - 16) := ⟨_, rfl⟩
  obtain ⟨o, ho⟩ : ∃ o, o = 4096 - stringsLength argv := ⟨_, rfl⟩
  have hdef : stackSize argv = (stringsLength argv + 7) / 8 * 8 + 8 * (argv.length + 1) + 16 := rfl
  have hA' : (argvStore argv).toNat = 0x400000 + a := by omega
  have hS' : (stringStore argv).toNat = 0x400000 + o := by omega
  have harr : a + 8 * (argv.length + 1) ≤ o := by omega
  obtain ⟨s1, h1, -, hok⟩ := initStack_run hc (fun hlt => (argvStore_lt_iff hle).mp hlt hfit) hfree
  have hblank : AtUtemp ((view s).newPage .self 0x400 p l 7#32) (view s1) p fun _ => 0#8 := by
    refine ⟨(view s).newPage_space .self 0x400 p l 7#32, ?_⟩
    rw [h1, ← (view s).newPage_pages .self 0x400 p l 7#32, SpawnWorld.setPage, update_eq_self]
  obtain ⟨s2, hrun2, h2⟩ := storeStack_run hc hblank hA' hS' (by omega) harr (by omega)
  obtain ⟨s', hrun, h'⟩ := hok s2 hrun2
  refine ⟨s', _, hrun, ?_⟩
  rw [h', h2.world]
  exact stackPage_passed hfree hA' hS' (by omega) harr (by omega)

/-- **`init_stack` is right for these arguments**, whatever the environment maps, as long as there is
a page for the stack: it returns `-E_NO_MEM` if they do not fit in a page, and otherwise the child
finds them. -/
def PassesArgs (argv : List (List (BitVec 8))) : Prop :=
  ∀ (σ : Type) (c : SpawnCalls σ) (view : σ → SpawnWorld), c.Documented False view →
    ∀ s, (view s).free ≠ [] →
      (¬ FitsStack argv → (initStack c (view s).childId argv).run s = .ok (.error (-4), s)) ∧
      (FitsStack argv → ∃ s' rsp, (initStack c (view s).childId argv).run s = .ok (.ok rsp, s') ∧
        StackPassed (view s) (view s') argv rsp)

/-- **`init_stack` is right for the arguments that need at most `UTEMP + PGSIZE` bytes**, and for
those longer ones for which the address below them comes out under `UTEMP` modulo `2 ^ 64`; for no
others. -/
theorem initStack_passes_iff (argv : List (List (BitVec 8))) :
    PassesArgs argv ↔
      stackSize argv ≤ 0x401000 ∨ (0x401000 - laidOut argv) % 2 ^ 64 < 0x400000 := by
  have htest : argvStore argv - 16#64 < utempVa ↔
      (0x401000 - laidOut argv) % 2 ^ 64 < 0x400000 := by
    rw [← argvStore_toInt, BitVec.lt_def, ← Int.ofNat_lt]
    rfl
  constructor
  · intro h
    by_contra hcon
    obtain ⟨hlong, hpass⟩ := not_or.mp hcon
    rw [← htest] at hpass
    have hfit : ¬ FitsStack argv := fun hfit => hlong (hfit.trans (by decide))
    have hc := spawnCalls_documented False
    obtain ⟨s₁, -, herr, hok⟩ := initStack_run hc (s := smallSpawn 0 (by decide)) hpass rfl
    have hrun := (h _ spawnCalls id hc (smallSpawn 0 (by decide)) (by decide)).1 hfit
    cases hrun₂ : (storeStack spawnCalls argv).run s₁ with
    | error e =>
      have hrun' := herr e hrun₂
      rw [hrun] at hrun'
      cases hrun'
    | ok r =>
      obtain ⟨s', hrun', -⟩ := hok r.2 hrun₂
      rw [hrun] at hrun'
      cases hrun'
  · intro h σ c view hc s hfree
    refine ⟨fun hfit => ?_, fun hfit => initStack_fits hc hfit hfree⟩
    have hlt : argvStore argv - 16#64 < utempVa := by
      obtain h | h := h
      · exact (argvStore_lt_iff h).mpr hfit
      · exact htest.mpr h
    rw [initStack, if_pos hlt, run_pure]

/-- An argument of 4 MB and a page: the address below it wraps around. -/
theorem argvStore_wraps (harg : arg.length = 0x401000) :
    ¬ FitsStack [arg] ∧ (argvStore [arg]).toNat = 2 ^ 64 - 24 ∧
      (argvStore [arg] - 16#64).toNat = 2 ^ 64 - 40 := by
  have hlen : stringsLength [arg] = 0x401001 := by
    have hnil : stringsLength [] = 0 := rfl
    rw [stringsLength_cons, hnil, harg]
  have hfit : ¬ FitsStack [arg] := by
    rw [FitsStack, stackSize, hlen, length_singleton]
    decide
  have hstore := argvStore_toInt [arg]
  rw [laidOut, arraySize, hlen, length_singleton] at hstore
  have hsub : (argvStore [arg] - 16#64).toNat = 2 ^ 64 - 40 := by omega
  refine ⟨hfit, ?_, hsub⟩
  rw [BitVec.toNat_sub] at hsub
  simp only [BitVec.toNat_ofNat, Nat.reducePow, Nat.reduceMod] at hsub
  omega

/-- It passes the test, and the first store is a page fault. -/
theorem initStack_fault (harg : arg.length = 0x401000) :
    (initStack spawnCalls 4097#32 [arg]).run (smallSpawn 0 (by decide)) = .error .fault := by
  obtain ⟨-, hstore, hsub⟩ := argvStore_wraps harg
  have htest : ¬ argvStore [arg] - 16#64 < utempVa := by
    rw [BitVec.lt_def, hsub]
    decide
  have hc := spawnCalls_documented False
  obtain ⟨s1, h1, herr, -⟩ := initStack_run hc (s := smallSpawn 0 (by decide)) htest rfl
  refine herr _ (storeStack_fault hc ?_ (by decide))
  rw [h1, newPage_space_of_ne (by rw [hstore]; decide)]
  rfl

/-- **One argument of 4 MB and a page** is not refused: `init_stack` has a page fault. -/
theorem initStack_faults :
    (initStack spawnCalls 4097#32 [List.replicate 0x401000 0x61#8]).run (smallSpawn 0 (by decide)) =
      .error .fault ∧
    ¬ FitsStack [List.replicate 0x401000 0x61#8] ∧
    ¬ PassesArgs [List.replicate 0x401000 0x61#8] := by
  have hlen : (List.replicate 0x401000 0x61#8).length = 0x401000 := length_replicate
  have hfault := initStack_fault hlen
  have hfit := (argvStore_wraps hlen).1
  refine ⟨hfault, hfit, fun h => ?_⟩
  have hrun := (h _ spawnCalls id (spawnCalls_documented False) (smallSpawn 0 (by decide))
    (by decide)).1 hfit
  rw [show (id (smallSpawn 0 (by decide))).childId = 4097#32 from rfl, hfault] at hrun
  cases hrun

end JosVmm
