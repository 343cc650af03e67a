import JosVmm.Machine.Sched
import JosVmm.Support.Cyclic

/-!
# Environments — fairness of the scheduler

`turnOrder k` lists the environments that `sched_yield` may choose in the state `k`, from the slot
after the current environment's on.  A call runs the first of them, and moves it to the end
(`schedYield_user`, `schedYield_guest`); so as many calls as there are environments in the list run
each of them once, in that order (`schedYield_fair`).  The exception is a current environment that
is marked runnable instead of running, if it is the only one: `env_run` then finds it current and
not running, and panics.
-/

namespace JosVmm
open Support Support.Prog Support.Cyclic Function List Kernel

/-- The environment is runnable, or it is the current one and running. -/
def Schedulable (k : Kernel) (e : EnvIx) : Prop :=
  (k.envs e).envStatus = .runnable ∨ k.curenv = some e ∧ (k.envs e).envStatus = .running

instance (k : Kernel) : DecidablePred (Schedulable k) := fun _ => inferInstanceAs (Decidable (_ ∨ _))

/-- The slot of the current environment, or slot 0. -/
def lastSlot (k : Kernel) : EnvIx := k.curenv.getD 0

/-- The environments that may be chosen, from the slot after `lastSlot` on. -/
def turnOrder (k : Kernel) : List EnvIx := (turn (lastSlot k)).filter (Schedulable k)

/-- How an environment is run. -/
def ranBy (k : Kernel) (e : EnvIx) : Choice :=
  if (k.envs e).envType = .guest then .vmrun e else .envRun e

/-- The ids of the environments that may be chosen, and of the current one, name their slots. -/
def NamedSlots (k : Kernel) : Prop :=
  ∀ e, Schedulable k e ∨ k.curenv = some e → envx (k.envs e).envId = e

/-- The current environment is marked runnable, and no other one is. -/
def SoleRunnable (k : Kernel) : Prop :=
  ∃ c, k.curenv = some c ∧ (k.envs c).envStatus = .runnable ∧
    ∀ e, (k.envs e).envStatus = .runnable → e = c

variable {k k' : Kernel} {e c : EnvIx} {l : List EnvIx}

theorem mem_turnOrder : e ∈ turnOrder k ↔ Schedulable k e := by
  rw [turnOrder, mem_filter, decide_eq_true_eq]
  exact and_iff_right (mem_turn _ e)

theorem nodup_turnOrder : (turnOrder k).Nodup := (nodup_turn _).filter _

/-! ### The search -/

theorem firstRunnable_eq (envs : EnvIx → Env) : ∀ (m : Nat) (i : EnvIx),
    firstRunnable envs m i = (next m i).find? fun e => decide ((envs e).envStatus = .runnable)
  | 0, _ => rfl
  | m + 1, i => by
    rw [firstRunnable, Cyclic.next, find?_cons, firstRunnable_eq envs m (i + 1)]
    split <;> simp_all

/-- The current environment comes last in its own turn. -/
theorem turnOrder_cur (hc : k.curenv = some c) (h : turnOrder k = c :: l) : l = [] := by
  have hrot := selected_rotate (i := lastSlot k) h
  rw [show c = lastSlot k by rw [lastSlot, hc]; rfl] at hrot
  rw [turnOrder] at h
  rw [h] at hrot
  cases l with
  | nil => rfl
  | cons a l =>
    -- `c` would be twice in the turn
    have hnd := nodup_turnOrder (k := k)
    rw [turnOrder, h] at hnd
    have hmem : c ∈ a :: l := by
      have := congrArg List.getLast? hrot
      rw [getLast?_append] at this
      simp only [getLast?_singleton, Option.some_or, getLast?_cons_cons] at this
      rw [lastSlot, hc] at this
      exact mem_of_getLast? this
    exact absurd hmem (List.nodup_cons.mp hnd).1

/-- The search finds the first of the turn, unless that is the current environment. -/
theorem find_of_turnOrder (h : turnOrder k = e :: l) (hs : (k.envs e).envStatus = .runnable) :
    firstRunnable k.envs nenv (lastSlot k) = some e := by
  rw [firstRunnable_eq]
  obtain ⟨pre, post, hsplit, hpre, -, -⟩ := List.filter_eq_cons_iff.mp h
  change (turn (lastSlot k)).find? _ = _
  rw [hsplit, find?_append, List.find?_eq_none.mpr, Option.none_or, find?_cons_of_pos]
  · simpa using hs
  · intro x hx hrun
    exact hpre x hx (decide_eq_true (.inl (by simpa using hrun)))

theorem find_eq_none (h : ∀ e, (k.envs e).envStatus ≠ .runnable) (i : EnvIx) :
    firstRunnable k.envs nenv i = none := by
  rw [firstRunnable_eq, find?_eq_none]
  intro x _ hx
  exact h x (by simpa using hx)

theorem startSlot_eq (h : NamedSlots k) : k.startSlot = lastSlot k := by
  rw [lastSlot, startSlot]
  cases hc : k.curenv with
  | none => rfl
  | some c => exact h c (.inr hc)

/-! ### Switching -/

/-- What a switch leaves of an environment. -/
def Env.leave (v : Env) : Env :=
  { v with envStatus := if v.envStatus = .running then .runnable else v.envStatus }

/-- The state after a switch to `e`. -/
def Kernel.switched (k : Kernel) (e : EnvIx) : Kernel :=
  let envs := match k.curenv with
    | none => k.envs
    | some c => update k.envs c (k.envs c).leave
  { k with
    curenv := some e
    envs := update envs e { envs e with
      envStatus := .running
      envRuns := (envs e).envRuns + 1#32 } }

theorem switchTo_run : (switchTo e).run k = .ok ((), k.switched e) := by
  rw [switchTo, bind_get, switched]
  cases hc : k.curenv with
  | none => rfl
  | some c => rfl

theorem switched_curenv : (k.switched e).curenv = some e := rfl

theorem switched_self : ((k.switched e).envs e).envStatus = .running := by
  rw [switched]
  dsimp only
  rw [update_self]

theorem switched_status {x : EnvIx} (hx : x ≠ e) : ((k.switched e).envs x).envStatus =
    if k.curenv = some x ∧ (k.envs x).envStatus = .running then .runnable
    else (k.envs x).envStatus := by
  rw [switched]
  dsimp only
  rw [update_of_ne hx]
  cases hc : k.curenv with
  | none => simp
  | some c =>
    dsimp only
    by_cases hxc : x = c
    · subst hxc
      simp [Env.leave]
    · rw [update_of_ne hxc, if_neg fun h => hxc (Option.some.inj h.1).symm]

/-- A switch changes nothing else of an environment. -/
theorem switched_congr {β : Type} (f : Env → β)
    (hf : ∀ v st runs, f { v with envStatus := st, envRuns := runs } = f v) (x : EnvIx) :
    f ((k.switched e).envs x) = f (k.envs x) := by
  have hleave : ∀ v : Env, f v.leave = f v := fun v => hf v _ v.envRuns
  have h1 : ∀ y, f ((match k.curenv with
      | none => k.envs
      | some c => update k.envs c (k.envs c).leave) y) = f (k.envs y) := by
    intro y
    cases k.curenv with
    | none => rfl
    | some c =>
      by_cases hy : y = c
      · subst hy
        dsimp only
        rw [update_self, hleave]
      · dsimp only
        rw [update_of_ne hy]
  rw [switched]
  dsimp only
  by_cases hx : x = e
  · subst hx
    rw [update_self, hf, h1]
  · rw [update_of_ne hx, h1]

theorem switched_envId (x : EnvIx) : ((k.switched e).envs x).envId = (k.envs x).envId :=
  switched_congr Env.envId (fun _ _ _ => rfl) x

theorem switched_envType (x : EnvIx) : ((k.switched e).envs x).envType = (k.envs x).envType :=
  switched_congr Env.envType (fun _ _ _ => rfl) x

/-- A switch to an environment that may be chosen changes who may be chosen in nothing. -/
theorem schedulable_switched (he : Schedulable k e) (x : EnvIx) :
    Schedulable (k.switched e) x ↔ Schedulable k x := by
  by_cases hx : x = e
  · subst hx
    exact iff_of_true (.inr ⟨switched_curenv, switched_self⟩) he
  · rw [Schedulable, Schedulable, switched_status hx, switched_curenv, Option.some.injEq]
    by_cases hc : k.curenv = some x ∧ (k.envs x).envStatus = .running
    · simp [hc]
    · rw [if_neg hc]
      exact ⟨fun h => h.elim .inl fun h => absurd h.1.symm hx, fun h => h.elim .inl fun h => absurd h hc⟩

theorem turnOrder_switched (h : turnOrder k = e :: l) : turnOrder (k.switched e) = l ++ [e] := by
  have he : Schedulable k e := mem_turnOrder.mp (h ▸ mem_cons_self ..)
  have hp : (fun x => decide (Schedulable (k.switched e) x)) = fun x => decide (Schedulable k x) := by
    funext x
    exact decide_eq_decide.mpr (schedulable_switched he x)
  show (turn (lastSlot (k.switched e))).filter (fun x => decide (Schedulable (k.switched e) x)) = _
  rw [hp]
  exact selected_rotate h

theorem NamedSlots.switched (h : NamedSlots k) (he : Schedulable k e) :
    NamedSlots (k.switched e) := fun x hx => by
  rw [switched_envId]
  refine h x ?_
  rcases hx with hx | hx
  · exact .inl ((schedulable_switched he x).mp hx)
  · cases hx
    exact .inl he

/-! ### One call -/

theorem envRun_switch (h : k.curenv ≠ some e) : (envRun e).run k = .ok ((), k.switched e) := by
  rw [envRun, bind_get, if_pos h, bind_ok switchTo_run,
    bind_ok getEnv_run, if_neg (not_not.mpr switched_self)]
  rfl

theorem envRun_same (h : k.curenv = some e) (hs : (k.envs e).envStatus = .running) :
    (envRun e).run k = .ok ((), k) := by
  rw [envRun, bind_get, if_neg (not_not.mpr h)]
  simp only []
  rw [bind_ok getEnv_run, if_neg (not_not.mpr hs)]
  rfl

theorem envRun_panics (h : k.curenv = some e) (hs : (k.envs e).envStatus ≠ .running) :
    (envRun e).run k = .error .assertFailed := by
  rw [envRun, bind_get, if_neg (not_not.mpr h)]
  simp only []
  rw [bind_ok getEnv_run, if_pos hs]
  rfl

theorem vmxon_root (h : k.cpu.isVmxRoot = true) (ok : Bool) : (vmxon ok).run k = .ok (true, k) := by
  rw [vmxon, bind_get, if_pos h]
  rfl

/-- After a call that ran `e`, which came before `l`. -/
structure Turned (k k' : Kernel) (e : EnvIx) (l : List EnvIx) : Prop where
  order : turnOrder k' = l ++ [e]
  named : NamedSlots k'
  cur : k'.curenv = some e
  running : (k'.envs e).envStatus = .running
  types : ∀ x, (k'.envs x).envType = (k.envs x).envType
  root : k'.cpu.isVmxRoot = k.cpu.isVmxRoot

/-- The first of the turn is runnable, or it is the current environment alone. -/
theorem head_cases (h : turnOrder k = e :: l) : (k.envs e).envStatus = .runnable ∨
    k.curenv = some e ∧ (k.envs e).envStatus = .running ∧ l = [] ∧
      ∀ x, (k.envs x).envStatus ≠ .runnable := by
  rcases mem_turnOrder.mp (h ▸ mem_cons_self .. : e ∈ turnOrder k) with hs | ⟨hc, hs⟩
  · exact .inl hs
  · obtain rfl := turnOrder_cur hc h
    refine .inr ⟨hc, hs, rfl, fun x hx => ?_⟩
    have hmem : x ∈ turnOrder k := mem_turnOrder.mpr (.inl hx)
    rw [h, mem_singleton] at hmem
    subst hmem
    rw [hs] at hx
    cases hx

theorem schedYield_found (ok : Bool) (h : NamedSlots k) (ht : turnOrder k = e :: l)
    (hs : (k.envs e).envStatus = .runnable) : (schedYield ok).run k =
      (if (k.envs e).envType = .guest then do
        if ← vmxon ok then
          switchTo e
          return .vmrun e
        else
          return .back
      else do
        envRun e
        return .envRun e : Km Choice).run k := by
  rw [schedYield, bind_get]
  rw [startSlot_eq h, find_of_turnOrder ht hs]

theorem schedYield_last (ok : Bool) (hs : ∀ x, (k.envs x).envStatus ≠ .runnable) :
    (schedYield ok).run k = (schedLast ok k.curenv).run k := by
  rw [schedYield, bind_get]
  rw [find_eq_none hs]

/-- **A call runs the first of the turn**, if that is not a guest. -/
theorem schedYield_user (ok : Bool) (h : NamedSlots k) (ht : turnOrder k = e :: l)
    (hu : (k.envs e).envType ≠ .guest) (hsole : ¬ SoleRunnable k) :
    ∃ k', (schedYield ok).run k = .ok (.envRun e, k') ∧ Turned k k' e l := by
  rcases head_cases ht with hs | ⟨hc, hs, rfl, hnone⟩
  · have hcur : k.curenv ≠ some e := fun hc => by
      obtain rfl := turnOrder_cur hc ht
      refine hsole ⟨e, hc, hs, fun x hx => ?_⟩
      have hmem : x ∈ turnOrder k := mem_turnOrder.mpr (.inl hx)
      rwa [ht, mem_singleton] at hmem
    refine ⟨k.switched e, ?_, turnOrder_switched ht,
      h.switched (mem_turnOrder.mp (ht ▸ mem_cons_self ..)), switched_curenv, switched_self,
      switched_envType, rfl⟩
    rw [schedYield_found ok h ht hs, if_neg hu, bind_ok (envRun_switch hcur)]
    rfl
  · refine ⟨k, ?_, ht, h, hc, hs, fun _ => rfl, rfl⟩
    rw [schedYield_last ok hnone, hc, schedLast, bind_ok getEnv_run, if_pos hs, if_neg hu,
      bind_ok (envRun_same hc hs)]
    rfl

/-- A call runs a guest that is the first of the turn. -/
theorem schedYield_guest (ok : Bool) (h : NamedSlots k) (ht : turnOrder k = e :: l)
    (hg : (k.envs e).envType = .guest) (hroot : k.cpu.isVmxRoot = true) :
    ∃ k', (schedYield ok).run k = .ok (.vmrun e, k') := by
  rcases head_cases ht with hs | ⟨hc, hs, rfl, hnone⟩
  · refine ⟨k.switched e, ?_⟩
    rw [schedYield_found ok h ht hs, if_pos hg, bind_ok (vmxon_root hroot ok), if_pos rfl,
      bind_ok switchTo_run]
    rfl
  · refine ⟨k.setEnv e { k.envs e with envRuns := (k.envs e).envRuns + 1#32 }, ?_⟩
    rw [schedYield_last ok hnone, hc, schedLast, bind_ok getEnv_run, if_pos hs, if_pos hg,
      bind_ok (vmxon_root hroot ok), if_pos rfl, bind_ok (modifyEnv_run _)]
    rfl

theorem schedHalt_run : ∃ k', schedHalt.run k = .ok ((), k') := by
  rw [schedHalt, bind_get]
  split
  · exact ⟨_, rfl⟩
  · exact ⟨k, rfl⟩

theorem schedYield_halt (ok : Bool) (h : ∀ e, ¬ Schedulable k e) :
    ∃ k', (schedYield ok).run k = .ok (.halt, k') := by
  obtain ⟨k', hk'⟩ := schedHalt_run (k := k)
  refine ⟨k', ?_⟩
  rw [schedYield_last ok fun x hx => h x (.inl hx)]
  cases hc : k.curenv with
  | none =>
    rw [schedLast, bind_ok hk']
    rfl
  | some c =>
    rw [schedLast, bind_ok getEnv_run, if_neg fun hs => h c (.inr ⟨hc, hs⟩), bind_ok hk']
    rfl

/-! ### Successive calls -/

theorem Turned.not_sole (h : Turned k k' e l) : ¬ SoleRunnable k' := by
  rintro ⟨c, hc, hs, -⟩
  obtain rfl : c = e := Option.some.inj (hc.symm.trans h.cur)
  rw [h.running] at hs
  cases hs

/-- The first environments of the turn are run in their order, and come last then. -/
theorem yields_users (ok : Bool) : ∀ {l₁ l₂ : List EnvIx} {k : Kernel}, NamedSlots k →
    turnOrder k = l₁ ++ l₂ → (∀ e ∈ l₁, (k.envs e).envType ≠ .guest) →
    (l₁ ≠ [] → ¬ SoleRunnable k) →
    ∃ k', (yields ok l₁.length).run k = .ok (l₁.map .envRun, k') ∧ NamedSlots k' ∧
      turnOrder k' = l₂ ++ l₁ ∧ (∀ x, (k'.envs x).envType = (k.envs x).envType) ∧
      k'.cpu.isVmxRoot = k.cpu.isVmxRoot
  | [], l₂, k, h, ht, _, _ => ⟨k, rfl, h, by rwa [append_nil], fun _ => rfl, rfl⟩
  | e :: l₁, l₂, k, h, ht, hu, hsole => by
    rw [cons_append] at ht
    obtain ⟨k₁, hrun, h1⟩ := schedYield_user ok h ht (hu e (mem_cons_self ..))
      (hsole (cons_ne_nil e l₁))
    obtain ⟨k', hrun', h', ht', htypes, hroot⟩ := yields_users ok h1.named
      (show turnOrder k₁ = l₁ ++ (l₂ ++ [e]) by rw [h1.order, append_assoc])
      (fun x hx => by rw [h1.types]; exact hu x (mem_cons_of_mem e hx))
      (fun _ => h1.not_sole)
    refine ⟨k', ?_, h', by rw [ht', append_assoc]; rfl, fun x => (htypes x).trans (h1.types x),
      hroot.trans h1.root⟩
    rw [length_cons, yields, bind_ok hrun, bind_ok hrun']
    rfl

theorem yields_succ (ok : Bool) {n : Nat} {cs : List Choice} {d : Choice} {k' k'' : Kernel}
    (h : (yields ok n).run k = .ok (cs, k')) (hd : (schedYield ok).run k' = .ok (d, k'')) :
    (yields ok (n + 1)).run k = .ok (cs ++ [d], k'') := by
  induction n generalizing k cs with
  | zero =>
    cases h
    rw [yields, bind_ok hd]
    rfl
  | succ n ih =>
    rw [yields] at h
    obtain ⟨c, k₁, h1, h2⟩ := bind_inv h
    obtain ⟨cs', k₂, h3, h4⟩ := bind_inv h2
    cases h4
    rw [yields, bind_ok h1, bind_ok (ih h3)]
    rfl

/-- A running guest that is current comes last in the turn. -/
theorem turnOrder_split (hc : k.curenv = some c) (hs : (k.envs c).envStatus = .running) :
    ∃ l, turnOrder k = l ++ [c] := by
  have hmem : c ∈ turnOrder k := mem_turnOrder.mpr (.inr ⟨hc, hs⟩)
  cases ht : turnOrder k with
  | nil => rw [ht] at hmem; cases hmem
  | cons e l =>
    have hlast : lastSlot k = c := by rw [lastSlot, hc]; rfl
    obtain ⟨m, hm⟩ : ∃ m, (turn (lastSlot k)) = m ++ [lastSlot k] := by
      obtain ⟨pre, post, hsplit⟩ := append_of_mem (mem_turn (lastSlot k) (lastSlot k))
      exact ⟨post ++ pre, by rw [append_assoc]; exact turn_eq_of_split hsplit⟩
    refine ⟨m.filter (Schedulable k), ?_⟩
    rw [← ht, turnOrder, hm, filter_append, hlast, filter_singleton,
      decide_eq_true (mem_turnOrder.mp hmem)]
    rfl

/-- What fairness asks of the calls from `k` on: as many as there are environments to choose from
run each of them once, in the order of the slots after the current one; and with none the
processor halts. -/
def Fair (ok : Bool) (k : Kernel) : Prop :=
  (∃ k', (yields ok (turnOrder k).length).run k = .ok ((turnOrder k).map (ranBy k), k')) ∧
    ((∀ e, ¬ Schedulable k e) → ∃ k', (schedYield ok).run k = .ok (.halt, k'))

theorem map_ranBy (h : ∀ e ∈ l, (k.envs e).envType ≠ .guest) : l.map (ranBy k) = l.map .envRun :=
  map_congr_left fun e he => if_neg (h e he)

section

variable (ok : Bool) (hnamed : NamedSlots k)
  (huser : ∀ e, (k.envs e).envStatus = .runnable → (k.envs e).envType ≠ .guest)
include ok hnamed huser

theorem fair_of_not_sole 
    
    (hroot : ∀ c, k.curenv = some c → (k.envs c).envStatus = .running →
      (k.envs c).envType = .guest → k.cpu.isVmxRoot = true) (h : ¬ SoleRunnable k) : Fair ok k := by
  refine ⟨?_, schedYield_halt ok⟩
  by_cases hg : ∃ c, k.curenv = some c ∧ (k.envs c).envStatus = .running ∧
      (k.envs c).envType = .guest
  · -- the guest is run by the last call
    obtain ⟨c, hc, hs, hg⟩ := hg
    obtain ⟨l, ht⟩ := turnOrder_split hc hs
    have hl : ∀ e ∈ l, (k.envs e).envType ≠ .guest := fun e he => by
      have hnd := nodup_turnOrder (k := k)
      rw [ht] at hnd
      have hne : e ≠ c := (List.nodup_append.mp hnd).2.2 e he c (mem_singleton_self c)
      rcases mem_turnOrder.mp (ht ▸ mem_append_left [c] he : e ∈ turnOrder k) with h | ⟨h, -⟩
      · exact huser e h
      · exact absurd (Option.some.inj (h.symm.trans hc)) hne
    obtain ⟨k₁, hrun, h1, ht1, htypes, hr1⟩ := yields_users ok hnamed ht hl fun _ => h
    obtain ⟨k₂, hlast⟩ := schedYield_guest ok h1 (e := c) (l := l) (by rw [ht1]; rfl)
      (by rw [htypes]; exact hg) (by rw [hr1]; exact hroot c hc hs hg)
    refine ⟨k₂, ?_⟩
    rw [ht, length_append, length_singleton, map_append, map_ranBy hl]
    rw [yields_succ ok hrun hlast, map_singleton, ranBy, if_pos hg]
  · have hl : ∀ e ∈ turnOrder k, (k.envs e).envType ≠ .guest := fun e he => by
      rcases mem_turnOrder.mp he with h | ⟨hc, hs⟩
      · exact huser e h
      · exact fun hge => hg ⟨e, hc, hs, hge⟩
    obtain ⟨k', hrun, -⟩ := yields_users ok hnamed (append_nil _).symm hl fun _ => h
    exact ⟨k', by rw [hrun, map_ranBy hl]⟩

theorem not_fair_of_sole (h : SoleRunnable k) : ¬ Fair ok k := by
  rintro ⟨⟨k', hrun⟩, -⟩
  obtain ⟨c, hc, hs, hsole⟩ := h
  have ht : turnOrder k = [c] := by
    have hmem : c ∈ turnOrder k := mem_turnOrder.mpr (.inl hs)
    cases ht : turnOrder k with
    | nil => rw [ht] at hmem; cases hmem
    | cons e l =>
      obtain rfl : e = c := by
        rcases head_cases ht with he | ⟨-, -, -, hnone⟩
        · exact hsole e he
        · exact absurd hs (hnone c)
      rw [turnOrder_cur hc ht]
  have hpanic : (schedYield ok).run k = .error .assertFailed := by
    rw [schedYield_found ok hnamed ht hs, if_neg (huser c hs),
      bind_error (envRun_panics hc (by rw [hs]; decide))]
  rw [ht, length_singleton, yields, bind_error hpanic] at hrun
  cases hrun

end

/-- A kernel without memory; slot 0 is current and has the status `st`, slot 5 has `st'`. -/
def twoSlots (st st' : EnvStatus) : Kernel where
  pm :=
    { npages := 0
      npages_le := by decide
      mem := fun _ => 0
      ppRef := fun _ => 0
      ppLink := fun _ => none
      pageFreeList := none }
  envs i := { zeroEnv with
    envId := BitVec.ofNat 32 (4096 + i)
    envStatus := if i = 0 then st else if i = 5 then st' else .free }
  envFreeList := none
  curenv := some 0
  bootPml4e := 0
  vcpuCount := 0
  vmdiskNumber := 0
  hostVector := 0
  portIortc := 0
  cpu := ⟨fun _ => ⟨0, 0, 0, 0⟩, fun _ => 0, none, fun _ => ⟨fun _ => 0, .uninit⟩, [], [], false, {}⟩

theorem twoSlots_named (st st' : EnvStatus) : NamedSlots (twoSlots st st') := fun e _ => by
  apply Fin.ext
  have := e.isLt
  simp only [twoSlots, envx, BitVec.toNat_ofNat, Fin.val_ofNat]
  omega

end JosVmm
