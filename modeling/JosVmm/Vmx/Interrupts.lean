import JosVmm.Guests.Runs

/-!
# Vmx — interrupts

External interrupts that arrive while a guest runs are acknowledged by the exit and handed to the
guest: at once if it accepts interrupts, and otherwise when its interrupt window opens.  The vector
is kept in one static variable of `vmexit` meanwhile, for all guests.

The runs here are interleavings of the two kinds of exit, of any number of guests, with whatever
else happens between them.  As long as an interrupt that arrives while some guest waits has the
vector that is waited for, and does not have to wait with a guest that waits already, every vector
that a guest's exits acknowledged has been injected into that guest, or waits for its window
(`vectors_injected`).  With two guests that wait for different vectors one of them gets the vector
of the other (`vector_misdelivered`).
-/

namespace JosVmm
open Support Support.Prog Function BitVec

/-! ### Exits -/

/-- The state in which the processor leaves the guest `e`. -/
def Kernel.atExit (k : Kernel) (e : EnvIx) (reason info : BitVec 32) (rflags : Word) : Kernel :=
  let p := (k.envs e).vmcsPage
  { k with
    curenv := some e
    cpu.vmptr := some p
    cpu.vmcs := update k.cpu.vmcs p
      ((((k.cpu.vmcs p).setField .vmexitReason (reason.setWidth 64)).setField
        .vmexitInterruptionInfo (info.setWidth 64)).setField .guestRflags rflags) }

/-- `RFLAGS.IF`. -/
def interruptible (rflags : Word) : Prop := rflags &&& 0x200#64 ≠ 0

instance : DecidablePred interruptible := fun _ => inferInstanceAs (Decidable (_ ≠ _))

/-- The exits that concern interrupts. -/
inductive IntrOp where
  /-- An interrupt with the vector `v` arrives while the guest `e` runs. -/
  | external (e : EnvIx) (v : BitVec 32) (rflags : Word)
  /-- The interrupt window of the guest `e` opens. -/
  | window (e : EnvIx) (rflags : Word)
  /-- Anything else that leads to the state `k`. -/
  | other (k : Kernel)

/-- What happens at an exit. -/
def IntrOp.exec (stack : Fin 13 → BitVec 32) (userSh : Image) : IntrOp → Km Unit
  | external e v rflags => do
    modify fun k => k.atExit e 0x1#32 v rflags
    vmexit stack userSh
  | window e rflags => do
    modify fun k => k.atExit e 0x7#32 0 rflags
    vmexit stack userSh
  | other k => set k

/-- The guest `e` has asked for an exit when its window opens. -/
def Waiting (k : Kernel) (e : EnvIx) : Prop :=
  ((k.cpu.vmcs (k.envs e).vmcsPage).field .procBasedCtls).setWidth 32 &&& intrwinexit ≠ 0

instance (k : Kernel) : DecidablePred (Waiting k) := fun _ => inferInstanceAs (Decidable (_ ≠ _))

/-- The vectors written to the VM-entry interruption information of the VMCS on page `p`. -/
def injected (k : Kernel) (p : Nat) : List (BitVec 32) :=
  k.cpu.vmwrites.filterMap fun (q, f, w) =>
    if q = p ∧ f = .vmentryInterruptionInfo then some (w.setWidth 32) else none

/-- What is between two such exits leaves these things alone. -/
structure SameIntr (k k' : Kernel) : Prop where
  vector : k'.hostVector = k.hostVector
  page : ∀ e, (k'.envs e).vmcsPage = (k.envs e).vmcsPage
  waiting : ∀ e, Waiting k' e ↔ Waiting k e
  injected : ∀ p, injected k' p = injected k p

variable {G : Finset EnvIx}

/-- The exits come from the guests `G`, and a window exit from one that asked for it. -/
def IntrOp.Enabled (G : Finset EnvIx) (k : Kernel) : IntrOp → Prop
  | external e _ _ => e ∈ G
  | window e _ => e ∈ G ∧ Waiting k e
  | other k' => SameIntr k k'

/-- An interrupt that arrives while a guest waits has the vector that is waited for, and if its
guest waits already it is injected at once. -/
def IntrOp.Alone (G : Finset EnvIx) (k : Kernel) : IntrOp → Prop
  | external e v rflags => ((∀ g ∈ G, ¬ Waiting k g) ∨ v = k.hostVector) ∧
      (Waiting k e → interruptible rflags)
  | _ => True

/-! ### What the exits should do -/

/-- The vectors that the exits of the guest `e` acknowledged. -/
def acknowledged (e : EnvIx) (l : List IntrOp) : List (BitVec 32) :=
  l.filterMap fun
    | .external g v _ => if g = e then some v else none
    | _ => none

/-- Those of them that wait for the window of the guest, after one more exit. -/
def pendingStep (e : EnvIx) (l : List (BitVec 32)) : IntrOp → List (BitVec 32)
  | .external g v rflags => if g = e ∧ ¬ interruptible rflags then v :: l else l
  | .window g _ => if g = e then [] else l
  | .other _ => l

/-- The vectors acknowledged while the guest `e` did not accept interrupts, since its window last
opened. -/
def pending (e : EnvIx) (l : List IntrOp) : List (BitVec 32) := l.foldl (pendingStep e) []

/-! ### What they do -/

variable {k k' : Kernel} {e : EnvIx} {v reason info : BitVec 32} {rflags : Word}
  {stack : Fin 13 → BitVec 32} {userSh : Image} {l : List IntrOp} {p q : Nat} {f : VmcsField}
  {w : Word}

theorem atExit_field (hr : f ≠ .vmexitReason) (hi : f ≠ .vmexitInterruptionInfo)
    (hf : f ≠ .guestRflags) (q : Nat) :
    ((k.atExit e reason info rflags).cpu.vmcs q).field f = (k.cpu.vmcs q).field f := by
  change (update k.cpu.vmcs (k.envs e).vmcsPage _ q).field f = _
  rw [update_apply]
  split
  · rename_i hq
    rw [hq]
    simp [hr, hi, hf]
  · rfl

theorem atExit_self (k : Kernel) (e : EnvIx) (reason info : BitVec 32) (rflags : Word) :
    (k.atExit e reason info rflags).cpu.vmcs (k.envs e).vmcsPage =
      (((k.cpu.vmcs (k.envs e).vmcsPage).setField .vmexitReason (reason.setWidth 64)).setField
        .vmexitInterruptionInfo (info.setWidth 64)).setField .guestRflags rflags :=
  update_self ..

/-- A handled exit ends as its handler does. -/
theorem vmexit_handled (hptr : k.cpu.vmptr = some p) (hcur : k.curenv = some e)
    (hrun : (handleExit stack userSh e
      (exitReason (((k.cpu.vmcs p).field .vmexitReason).setWidth 32))).run k = .ok (true, k')) :
    (vmexit stack userSh).run k = .ok ((), k') := by
  rw [vmexit, bind_ok (vmcsRead32_run hptr _), bind_get, hcur, bind_ok deref_run, bind_ok hrun]
  rfl

theorem setWidth_widen (v : BitVec 32) : (v.setWidth 64 : Word).setWidth 32 = v := by
  rw [setWidth_setWidth_of_le v (by decide), setWidth_eq]

/-- The controls of the VMCS on page `p`. -/
def procCtls (k : Kernel) (p : Nat) : BitVec 32 :=
  ((k.cpu.vmcs p).field .procBasedCtls).setWidth 32

theorem handleInterrupts_run (hptr : k.cpu.vmptr = some p) :
    (handleInterrupts v).run k = .ok (true,
      if interruptible ((k.cpu.vmcs p).field .guestRflags) then
        k.vmwrite p .vmentryInterruptionInfo (v.setWidth 64)
      else k.vmwrite p .procBasedCtls ((procCtls k p ||| intrwinexit).setWidth 64)) := by
  rw [handleInterrupts, bind_ok (vmcsRead64_run hptr _)]
  by_cases hif : (k.cpu.vmcs p).field .guestRflags &&& 0x200#64 = 0
  · rw [if_pos hif, if_neg fun h : interruptible _ => h hif]
    dsimp only
    rw [bind_ok (vmcsRead32_run hptr _), bind_ok (vmcsWrite32_run hptr _ _)]
    rfl
  · rw [if_neg hif, if_pos (show interruptible _ from hif)]
    dsimp only
    rw [bind_ok (vmcsWrite32_run hptr _ _)]
    rfl

theorem handleInterruptWindow_run (hptr : k.cpu.vmptr = some p) :
    (handleInterruptWindow v).run k = .ok (true,
      (k.vmwrite p .procBasedCtls ((procCtls k p &&& ~~~intrwinexit).setWidth 64)).vmwrite p
        .vmentryInterruptionInfo (v.setWidth 64)) := by
  rw [handleInterruptWindow, bind_ok (vmcsRead32_run hptr _), bind_ok (vmcsWrite32_run hptr _ _),
    bind_ok (vmcsWrite32_run (k := k.vmwrite p _ _) hptr _ _)]
  rfl

/-- The state after an external interrupt. -/
def afterExternal (k : Kernel) (e : EnvIx) (v : BitVec 32) (rflags : Word) : Kernel :=
  let p := (k.envs e).vmcsPage
  let k' := { k.atExit e 0x1#32 v rflags with hostVector := v }
  if interruptible rflags then k'.vmwrite p .vmentryInterruptionInfo (v.setWidth 64)
  else k'.vmwrite p .procBasedCtls ((procCtls k p ||| intrwinexit).setWidth 64)

/-- The state after the window opened. -/
def afterWindow (k : Kernel) (e : EnvIx) (rflags : Word) : Kernel :=
  let p := (k.envs e).vmcsPage
  ((k.atExit e 0x7#32 0 rflags).vmwrite p .procBasedCtls
    ((procCtls k p &&& ~~~intrwinexit).setWidth 64)).vmwrite p .vmentryInterruptionInfo
      (k.hostVector.setWidth 64)

theorem procCtls_atExit : procCtls (k.atExit e reason info rflags) p = procCtls k p :=
  congrArg (BitVec.setWidth 32) (atExit_field (f := .procBasedCtls) nofun nofun nofun p)

theorem external_run : (IntrOp.exec stack userSh (.external e v rflags)).run k =
    .ok ((), afterExternal k e v rflags) := by
  rw [IntrOp.exec, bind_ok (a := ()) (u := k.atExit e 0x1#32 v rflags) rfl]
  refine vmexit_handled (p := (k.envs e).vmcsPage) (e := e) rfl rfl ?_
  rw [atExit_self]
  simp only [Vmcs.setField_field, if_true, reduceCtorEq, if_false]
  rw [show exitReason ((((0x1#32).setWidth 64 : Word)).setWidth 32) = .externalInt by decide,
    handleExit, bind_ok (vmcsRead32_run (p := (k.envs e).vmcsPage) rfl _), atExit_self]
  simp only [Vmcs.setField_field, if_true, reduceCtorEq, if_false, setWidth_widen]
  rw [bind_ok (a := ()) (u := { k.atExit e 0x1#32 v rflags with hostVector := v }) rfl,
    handleInterrupts_run (p := (k.envs e).vmcsPage) rfl]
  have hif : ((k.atExit e 0x1#32 v rflags).cpu.vmcs (k.envs e).vmcsPage).field .guestRflags =
      rflags := by
    rw [atExit_self]
    rfl
  have hctls : procCtls { k.atExit e 0x1#32 v rflags with hostVector := v } (k.envs e).vmcsPage =
      procCtls k (k.envs e).vmcsPage := procCtls_atExit
  rw [hif, hctls]
  rfl

theorem window_run : (IntrOp.exec stack userSh (.window e rflags)).run k =
    .ok ((), afterWindow k e rflags) := by
  rw [IntrOp.exec, bind_ok (a := ()) (u := k.atExit e 0x7#32 0 rflags) rfl]
  refine vmexit_handled (p := (k.envs e).vmcsPage) (e := e) rfl rfl ?_
  rw [atExit_self]
  simp only [Vmcs.setField_field, if_true, reduceCtorEq, if_false]
  rw [show exitReason ((((0x7#32).setWidth 64 : Word)).setWidth 32) = .interruptWindow by decide,
    handleExit, bind_get, handleInterruptWindow_run (p := (k.envs e).vmcsPage) rfl, procCtls_atExit]
  rfl

/-! ### The invariant -/

theorem injected_vmwrite : injected (k.vmwrite p f w) q =
    if p = q ∧ f = .vmentryInterruptionInfo then w.setWidth 32 :: injected k q
    else injected k q := by
  rw [injected, injected]
  change List.filterMap _ ((p, f, w) :: k.cpu.vmwrites) = _
  rw [List.filterMap_cons]
  dsimp only
  by_cases h : p = q ∧ f = .vmentryInterruptionInfo
  · rw [if_pos h, if_pos h]
  · rw [if_neg h, if_neg h]

theorem waiting_iff : Waiting k e ↔ procCtls k (k.envs e).vmcsPage &&& intrwinexit ≠ 0 := Iff.rfl

theorem or_intrwinexit (x : BitVec 32) : (x ||| intrwinexit) &&& intrwinexit ≠ 0 := by
  have h : (x ||| intrwinexit) &&& intrwinexit = intrwinexit := by
    refine eq_of_getLsbD_eq fun i hi => ?_
    rw [getLsbD_and, getLsbD_or]
    cases x.getLsbD i <;> cases intrwinexit.getLsbD i <;> rfl
  rw [h]
  decide

theorem and_not_intrwinexit (x : BitVec 32) : (x &&& ~~~intrwinexit) &&& intrwinexit = 0 := by
  refine eq_of_getLsbD_eq fun i hi => ?_
  simp only [getLsbD_and, getLsbD_not, decide_eq_true hi]
  cases intrwinexit.getLsbD i <;> simp

theorem procCtls_vmwrite : procCtls (k.vmwrite p f w) q =
    if q = p ∧ f = .procBasedCtls then w.setWidth 32 else procCtls k q := by
  rw [procCtls, Kernel.vmwrite_field, procCtls]
  by_cases h : q = p ∧ f = .procBasedCtls
  · rw [if_pos h, if_pos ⟨h.1, h.2.symm⟩]
  · rw [if_neg h, if_neg fun h' => h ⟨h'.1, h'.2.symm⟩]

/-! ### After an external interrupt -/

theorem afterExternal_envs : (afterExternal k e v rflags).envs = k.envs := by
  rw [afterExternal]
  split <;> rfl

theorem afterExternal_vector : (afterExternal k e v rflags).hostVector = v := by
  rw [afterExternal]
  split <;> rfl

theorem afterExternal_injected : injected (afterExternal k e v rflags) q =
    if (k.envs e).vmcsPage = q ∧ interruptible rflags then v :: injected k q
    else injected k q := by
  rw [afterExternal]
  by_cases hif : interruptible rflags
  · simp only [hif, if_true, injected_vmwrite, and_true, setWidth_widen]
    rfl
  · simp only [hif, if_false, injected_vmwrite, reduceCtorEq, and_false]
    rfl

theorem afterExternal_ctls : procCtls (afterExternal k e v rflags) q =
    if q = (k.envs e).vmcsPage ∧ ¬ interruptible rflags
    then procCtls k (k.envs e).vmcsPage ||| intrwinexit else procCtls k q := by
  have hctls : procCtls { k.atExit e 0x1#32 v rflags with hostVector := v } q = procCtls k q :=
    procCtls_atExit
  rw [afterExternal]
  by_cases hif : interruptible rflags
  · simp only [hif, if_true, procCtls_vmwrite, reduceCtorEq, and_false, if_false, not_true]
    exact hctls
  · simp only [hif, if_false, procCtls_vmwrite, and_true, not_false_eq_true, setWidth_widen]
    rw [hctls]

theorem waiting_afterExternal {g : EnvIx} : Waiting (afterExternal k e v rflags) g ↔
    Waiting k g ∨ ((k.envs g).vmcsPage = (k.envs e).vmcsPage ∧ ¬ interruptible rflags) := by
  rw [waiting_iff, afterExternal_envs, afterExternal_ctls, waiting_iff]
  split
  · rename_i hn
    exact iff_of_true (or_intrwinexit _) (.inr hn)
  · rename_i hn
    exact (or_iff_left hn).symm

/-! ### After the window opened -/

theorem afterWindow_injected : injected (afterWindow k e rflags) q =
    if (k.envs e).vmcsPage = q then k.hostVector :: injected k q else injected k q := by
  simp only [afterWindow, injected_vmwrite, and_true, reduceCtorEq, and_false, if_false,
    setWidth_widen]
  rfl

theorem afterWindow_ctls : procCtls (afterWindow k e rflags) q =
    if q = (k.envs e).vmcsPage then procCtls k (k.envs e).vmcsPage &&& ~~~intrwinexit
    else procCtls k q := by
  simp only [afterWindow, procCtls_vmwrite, and_true, reduceCtorEq, and_false, if_false,
    setWidth_widen, procCtls_atExit]

/-! ### Runs -/

/-- Every vector is injected or waits, and one that waits is the one in `host_vector`. -/
structure IntrInv (G : Finset EnvIx) (l : List IntrOp) (k : Kernel) : Prop where
  apart : ∀ e ∈ G, ∀ g ∈ G, (k.envs e).vmcsPage = (k.envs g).vmcsPage → e = g
  counted : ∀ e ∈ G, (injected k (k.envs e).vmcsPage : Multiset (BitVec 32)) + pending e l =
    acknowledged e l
  waits : ∀ e ∈ G, pending e l = if Waiting k e then [k.hostVector] else []

theorem pending_snoc (op : IntrOp) : pending e (l ++ [op]) = pendingStep e (pending e l) op := by
  rw [pending, List.foldl_append]
  rfl

theorem acknowledged_snoc (op : IntrOp) :
    acknowledged e (l ++ [op]) = acknowledged e l ++ acknowledged e [op] :=
  List.filterMap_append ..

theorem acknowledged_external (g : EnvIx) :
    acknowledged g [.external e v rflags] = if e = g then [v] else [] := by
  by_cases h : e = g <;> simp [acknowledged, h]

section

variable (h : IntrInv G l k)
include h

/-- **An external interrupt** keeps the invariant. -/
theorem IntrInv.external (he : e ∈ G) (ha : IntrOp.Alone G k (.external e v rflags)) :
    IntrInv G (l ++ [.external e v rflags]) (afterExternal k e v rflags) := by
  have hne : ∀ g ∈ G, e ≠ g → (k.envs e).vmcsPage ≠ (k.envs g).vmcsPage := fun g hg hge hp =>
    hge (h.apart e he g hg hp)
  refine ⟨fun g hg g' hg' => ?_, fun g hg => ?_, fun g hg => ?_⟩
  · rw [afterExternal_envs]
    exact h.apart g hg g' hg'
  · rw [afterExternal_envs, afterExternal_injected, pending_snoc, acknowledged_snoc,
      acknowledged_external, ← Multiset.coe_add, ← h.counted g hg, pendingStep]
    by_cases hge : e = g
    · subst hge
      by_cases hif : interruptible rflags
      · rw [if_pos ⟨rfl, hif⟩, if_neg fun h' => h'.2 hif, if_pos rfl, ← Multiset.cons_coe,
          Multiset.cons_add, Multiset.coe_singleton, ← Multiset.singleton_add, add_comm]
      · rw [if_neg fun h' => hif h'.2, if_pos ⟨rfl, hif⟩, if_pos rfl, ← Multiset.cons_coe,
          Multiset.add_cons, Multiset.coe_singleton, ← Multiset.singleton_add, add_comm]
    · rw [if_neg fun h' => hne g hg hge h'.1, if_neg fun h' => hge h'.1, if_neg hge,
        Multiset.coe_nil, add_zero]
  · rw [pending_snoc, pendingStep, h.waits g hg, afterExternal_vector]
    -- a guest that waits waits for `v`
    have hsame : Waiting k g → k.hostVector = v := fun hw =>
      ha.1.elim (fun hn => absurd hw (hn g hg)) Eq.symm
    have hwait : Waiting (afterExternal k e v rflags) g ↔
        Waiting k g ∨ (e = g ∧ ¬ interruptible rflags) := by
      rw [waiting_afterExternal]
      refine or_congr_right (and_congr_left' ⟨fun hp => ?_, fun hp => by rw [hp]⟩)
      exact h.apart e he g hg hp.symm
    by_cases hw : Waiting k g
    · rw [if_pos hw, if_pos (hwait.mpr (.inl hw)), hsame hw, if_neg]
      rintro ⟨rfl, hif⟩
      exact hif (ha.2 hw)
    · by_cases hn : e = g ∧ ¬ interruptible rflags
      · rw [if_pos hn, if_neg hw, if_pos (hwait.mpr (.inr hn))]
      · rw [if_neg hn, if_neg hw, if_neg fun h' => (hwait.mp h').elim hw hn]

/-- **The window of a guest that waits** opens. -/
theorem IntrInv.window (he : e ∈ G) (hw : Waiting k e) :
    IntrInv G (l ++ [.window e rflags]) (afterWindow k e rflags) := by
  refine ⟨h.apart, fun g hg => ?_, fun g hg => ?_⟩
  · rw [show (afterWindow k e rflags).envs = k.envs from rfl, afterWindow_injected, pending_snoc,
      acknowledged_snoc, show acknowledged g [.window e rflags] = [] from rfl, List.append_nil,
      ← h.counted g hg, h.waits g hg, pendingStep]
    by_cases hge : e = g
    · subst hge
      rw [if_pos rfl, if_pos rfl, if_pos hw, Multiset.coe_nil, add_zero, Multiset.coe_singleton,
        ← Multiset.cons_coe, ← Multiset.singleton_add, add_comm]
    · rw [if_neg fun hp => hge (h.apart e he g hg hp), if_neg hge]
  · rw [pending_snoc, pendingStep, h.waits g hg]
    have hwait : Waiting (afterWindow k e rflags) g ↔ Waiting k g ∧ e ≠ g := by
      rw [waiting_iff, show (afterWindow k e rflags).envs = k.envs from rfl, afterWindow_ctls,
        waiting_iff]
      by_cases hge : e = g
      · subst hge
        rw [if_pos rfl]
        exact iff_of_false (fun h' => h' (and_not_intrwinexit _)) fun h' => h'.2 rfl
      · rw [if_neg fun hp => hge (h.apart e he g hg hp.symm)]
        exact (and_iff_left hge).symm
    by_cases hge : e = g
    · rw [if_pos hge, if_neg fun h' => (hwait.mp h').2 hge]
    · rw [if_neg hge, if_congr (hwait.trans (and_iff_left hge)) rfl rfl]
      rfl

theorem IntrInv.other (hs : SameIntr k k') : IntrInv G (l ++ [.other k']) k' := by
  refine ⟨fun e he g hg => ?_, fun e he => ?_, fun e he => ?_⟩
  · rw [hs.page, hs.page]
    exact h.apart e he g hg
  · rw [hs.page, hs.injected, pending_snoc, acknowledged_snoc,
      show acknowledged e [.other k'] = [] from rfl, List.append_nil]
    exact h.counted e he
  · rw [pending_snoc, pendingStep, h.waits e he, hs.vector, if_congr (hs.waiting e) rfl rfl]

theorem IntrInv.step {op : IntrOp} (hen : op.Enabled G k) (ha : op.Alone G k)
    (hrun : (op.exec stack userSh).run k = .ok ((), k')) : IntrInv G (l ++ [op]) k' := by
  cases op with
  | external e v rflags =>
    rw [external_run] at hrun
    cases hrun
    exact h.external hen ha
  | window e rflags =>
    rw [window_run] at hrun
    cases hrun
    exact h.window hen.1 hen.2
  | other k₁ =>
    cases hrun
    exact h.other hen

end

/-- **No vector is lost or given to another guest.**  In every run from a state in which no guest
waits, whose interrupts meet the condition, the vectors injected into a guest are those that its
exits acknowledged, without those that wait for its window. -/
theorem vectors_injected {k₀ : Kernel}
    (hG : ∀ e ∈ G, ∀ g ∈ G, (k₀.envs e).vmcsPage = (k₀.envs g).vmcsPage → e = g)
    (h₀ : ∀ e ∈ G, ¬ Waiting k₀ e ∧ injected k₀ (k₀.envs e).vmcsPage = [])
    (ht : Trace (IntrOp.exec stack userSh) (fun _ k op => op.Enabled G k ∧ op.Alone G k) k₀ l k)
    (he : e ∈ G) :
    (injected k (k.envs e).vmcsPage : Multiset (BitVec 32)) + pending e l = acknowledged e l := by
  have hstart : IntrInv G [] k₀ :=
    ⟨hG, fun e he => by rw [(h₀ e he).2]; rfl, fun e he => by rw [if_neg (h₀ e he).1]; rfl⟩
  have h := ht.invariant (P := IntrInv G) (fun l k op k' h hC hrun => h.step hC.1 hC.2 hrun) hstart
  exact h.counted e he

/-- Two guests that no interrupt has reached yet. -/
structure TwoGuests (k : Kernel) : Prop where
  reach : GuestReach (fun _ _ => True) (smallMachine (faultAt 2 0)) k
  live : 0 ∈ liveGuests k ∧ 1 ∈ liveGuests k
  apart : (k.envs 0).vmcsPage ≠ (k.envs 1).vmcsPage
  quiet : ∀ e ∈ ({0, 1} : Finset EnvIx), ¬ Waiting k e ∧ injected k (k.envs e).vmcsPage = []

theorem exists_twoGuests : ∃ k, TwoGuests k := by
  have hrun : Follows GuestOp.exec (fun k op => op.Enabled k ∧ True)
      (fun k => ((k.envs 0).IsLiveGuest ∧ (k.envs 1).IsLiveGuest) ∧
        (k.envs 0).vmcsPage ≠ (k.envs 1).vmcsPage ∧
        ∀ e ∈ ({0, 1} : Finset EnvIx), ¬ Waiting k e ∧ injected k (k.envs e).vmcsPage = [])
      [.alloc 0, .alloc 0] (smallMachine (faultAt 2 0)) := by
    decide +kernel
  obtain ⟨k, hr, hlive, hne, hq⟩ := hrun.reach
  exact ⟨k, hr, ⟨mem_liveGuests.mpr hlive.1, mem_liveGuests.mpr hlive.2⟩, hne, hq⟩

theorem TwoGuests.inj (h : TwoGuests k) : ∀ e ∈ ({0, 1} : Finset EnvIx),
    ∀ g ∈ ({0, 1} : Finset EnvIx), (k.envs e).vmcsPage = (k.envs g).vmcsPage → e = g := by
  intro e he g hg hp
  rw [Finset.mem_insert, Finset.mem_singleton] at he hg
  obtain rfl | rfl := he <;> obtain rfl | rfl := hg
  · rfl
  · exact absurd hp h.apart
  · exact absurd hp.symm h.apart
  · rfl

/-- The first guest waits while the other is interrupted. -/
theorem waiting_two (k : Kernel) (v w : BitVec 32) (rflags : Word) :
    Waiting (afterExternal (afterExternal k 0 v 0) 1 w rflags) 0 :=
  waiting_afterExternal.mpr (.inl (waiting_afterExternal.mpr (.inr ⟨rfl, by decide⟩)))

/-- One guest waits for a vector, the other is interrupted with the same one, and the window of
the first opens: each vector has been injected. -/
theorem vectors_injected_two : ∃ k₀ k, TwoGuests k₀ ∧
    Trace (IntrOp.exec (fun _ => 0) fun _ => 0)
      (fun _ k op => op.Enabled {0, 1} k ∧ op.Alone {0, 1} k) k₀
      [.external 0 0x80000020#32 0, .external 1 0x80000020#32 0x200#64, .window 0 0x200#64] k ∧
    (injected k (k.envs 0).vmcsPage : Multiset (BitVec 32)) + ([] : List (BitVec 32)) =
      [0x80000020#32] := by
  obtain ⟨k₀, h⟩ := exists_twoGuests
  have hnw : ∀ e ∈ ({0, 1} : Finset EnvIx), ¬ Waiting k₀ e := fun e he => (h.quiet e he).1
  have h0 : 0 ∈ ({0, 1} : Finset EnvIx) := by decide
  have h1 : 1 ∈ ({0, 1} : Finset EnvIx) := by decide
  have ht : Trace (IntrOp.exec (fun _ => 0) fun _ => 0)
      (fun _ k op => op.Enabled {0, 1} k ∧ op.Alone {0, 1} k) k₀
      [.external 0 0x80000020#32 0, .external 1 0x80000020#32 0x200#64, .window 0 0x200#64] _ :=
    .snoc (.snoc (.snoc .nil
      ⟨h0, .inl hnw, fun hw => absurd hw (hnw 0 h0)⟩ external_run)
      ⟨h1, .inr afterExternal_vector.symm, fun _ => by decide⟩ external_run)
      ⟨⟨by decide, waiting_two _ _ _ _⟩, trivial⟩ window_run
  exact ⟨k₀, _, h, ht, vectors_injected h.inj h.quiet ht (by decide)⟩

/-- **A vector is given to the wrong guest, and another is lost**: both guests wait, and the first
is given the vector of the second. -/
theorem vector_misdelivered : ∃ k₀ k, TwoGuests k₀ ∧
    Trace (IntrOp.exec (fun _ => 0) fun _ => 0) (fun _ k op => op.Enabled {0, 1} k) k₀
      [.external 0 0x80000020#32 0, .external 1 0x80000021#32 0, .window 0 0x200#64] k ∧
    injected k (k.envs 0).vmcsPage = [0x80000021#32] ∧
    pending 0 [.external 0 0x80000020#32 0, .external 1 0x80000021#32 0, .window 0 0x200#64] = [] ∧
    acknowledged 0 [.external 0 0x80000020#32 0, .external 1 0x80000021#32 0,
      .window 0 0x200#64] = [0x80000020#32] := by
  obtain ⟨k₀, h⟩ := exists_twoGuests
  have h0 : 0 ∈ ({0, 1} : Finset EnvIx) := by decide
  have h1 : 1 ∈ ({0, 1} : Finset EnvIx) := by decide
  have ht : Trace (IntrOp.exec (fun _ => 0) fun _ => 0) (fun _ k op => op.Enabled {0, 1} k) k₀
      [.external 0 0x80000020#32 0, .external 1 0x80000021#32 0, .window 0 0x200#64] _ :=
    .snoc (.snoc (.snoc .nil h0 external_run) h1 external_run)
      ⟨by decide, waiting_two _ _ _ _⟩ window_run
  refine ⟨k₀, _, h, ht, ?_, by decide, by decide⟩
  have hnot : ∀ P, ¬ (P ∧ interruptible 0) := fun P h' => absurd h'.2 (by decide)
  have hq := (h.quiet 0 h0).2
  have henvs : ∀ k e rflags, (afterWindow k e rflags).envs = k.envs := fun _ _ _ => rfl
  rw [henvs, afterWindow_injected, if_pos rfl, afterExternal_vector, afterExternal_injected,
    if_neg (hnot _), afterExternal_injected, if_neg (hnot _), afterExternal_envs,
    afterExternal_envs, hq]

end JosVmm
