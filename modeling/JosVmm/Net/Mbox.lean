import JosVmm.Net.SysArch
import JosVmm.Support.Ring

/-!
# Network — lwIP mailboxes

A mailbox is a ring of `MBOXSLOTS` messages, and its two semaphores count the messages and the free
slots.  In every state reached the ring holds the messages that were posted and not fetched yet,
and the counters say how many (`Lwip.Inv`); so no message is lost, and neither the return of
`ERR_MEM` nor the panic of `sys_arch_mbox_fetch` is reached (`mbox_fifo`).

A call that has taken a unit of a semaphore owes it until it has changed the ring and given a unit
to the other one; the invariant says to which semaphore, if any.

A mailbox that cannot get its semaphores is freed as if it had them (`sysMboxNew_clean_iff`).
-/

namespace JosVmm
open Support Support.Prog Function List
open Function (update_self update_of_ne update_eq_self)

/-- A semaphore as `sys_sem_new` leaves it. -/
def SemEntry.renew (v : SemEntry) (count : BitVec 8) : SemEntry :=
  { v with freed := false, counter := count.setWidth 16, gen := v.gen + 1#32 }

/-- What `sys_mbox_trypost` leaves of a mailbox. -/
def MboxEntry.post (b : MboxEntry) (msg : Word) : MboxEntry := { b with
  nextq := b.nextq + 1
  msg := update b.msg b.nextq msg
  head := if b.head = none then some b.nextq else b.head }

/-- What `sys_arch_mbox_fetch` leaves of a mailbox whose head is `slot`. -/
def MboxEntry.fetch (b : MboxEntry) (slot : Fin 32) : MboxEntry := { b with
  head := if slot + 1 = b.nextq then none else some (slot + 1) }

/-! ### The invariant -/

namespace Lwip

variable {s s' : Lwip} {m m' : Fin 128} {b b' : Bool} {i j : Fin 256} {v : SemEntry}
  {δ δ' : Option (Fin 128 × Bool)} {l : List Word} {t : Nat} {c : MboxCall} {r : MboxRet}
  {w : BitVec 32}

/-- The mailbox has been made by `sys_mbox_new`. -/
def Live (s : Lwip) (m : Fin 128) : Prop := (s.mboxes m).freed = false

/-- How many messages there are, or how many free slots. -/
def level (l : List Word) (free : Bool) : Nat := if free then 32 - l.length else l.length

/-- A call has taken a unit of the semaphore and not yet done what it took it for. -/
def owed (δ : Option (Fin 128 × Bool)) (m : Fin 128) (b : Bool) : Nat :=
  if δ = some (m, b) then 1 else 0

/-- The slots of a mailbox as a ring. -/
def ring (s : Lwip) (m : Fin 128) : Ring 32 Word :=
  ⟨(s.mboxes m).head, (s.mboxes m).nextq, (s.mboxes m).msg⟩

/-- **The mailbox holds what was posted and not fetched**, and its semaphores count it. -/
def BoxOk (δ : Option (Fin 128 × Bool)) (s : Lwip) (m : Fin 128) (l : List Word) : Prop :=
  (s.ring m).Holds l ∧ s.posted m = s.fetched m ++ l ∧
    ∀ b, ∃ i, (s.mboxes m).sem b = some i ∧ (s.sems i).freed = false ∧
      (s.sems i).counter.toNat + owed δ m b = level l b

/-- The time that a sleeping thread has read, and its sum so far. -/
structure TimeOk (s : Lwip) (waited a : BitVec 32) : Prop where
  waited_le : waited.toNat ≤ a.toNat
  le_now : a.toNat ≤ s.ticks.toNat * 10
  waited_mod : waited.toNat % 10 = 0
  mod : a.toNat % 10 = 0

structure Inv (δ : Option (Fin 128 × Bool)) (s : Lwip) : Prop where
  box : ∀ m, s.Live m → ∃ l, BoxOk δ s m l
  own : ∀ m m' b b' i, s.Live m → s.Live m' → (s.mboxes m).sem b = some i →
    (s.mboxes m').sem b' = some i → m = m' ∧ b = b'
  unused : ∀ m, ¬ s.Live m → s.posted m = [] ∧ s.fetched m = []
  semFree : ∀ i ∈ s.semFree, (s.sems i).freed = true
  semNodup : s.semFree.Nodup
  mboxFree : ∀ m, m ∈ s.mboxFree ↔ ¬ s.Live m
  mboxNodup : s.mboxFree.Nodup
  enough : s.semFree.length = 2 * s.mboxFree.length
  asleep : ∀ t c i gen waited a, s.threads t = .asleep c i gen waited a →
    s.Live c.mbox ∧ (s.mboxes c.mbox).sem c.waitsFree = some i ∧ (s.sems i).gen = gen ∧
      s.TimeOk waited a
  time : s.ticks.toNat * 10 < 2 ^ 32
  noErrMem : .errMem ∉ s.rets

theorem TimeOk.congr {waited a : BitVec 32} (h : s.TimeOk waited a) (ht : s'.ticks = s.ticks) :
    s'.TimeOk waited a :=
  ⟨h.waited_le, ht ▸ h.le_now, h.waited_mod, h.mod⟩

def setSem (s : Lwip) (i : Fin 256) (v : SemEntry) : Lwip :=
  { s with sems := update s.sems i v }

section

variable (h : Inv δ s) (hm : s.Live m) (hi : (s.mboxes m).sem b = some i)
include h hm hi

/-- **A semaphore of a mailbox changes** along with what is owed to it. -/
theorem Inv.setSem (hf : v.freed = false) (hg : v.gen = (s.sems i).gen)
    (hc : v.counter.toNat + owed δ' m b = (s.sems i).counter.toNat + owed δ m b)
    (hδ : ∀ m' b', (m', b') ≠ (m, b) → owed δ' m' b' = owed δ m' b') : Inv δ' (s.setSem i v) := by
  have hlive : (s.sems i).freed = false := by
    obtain ⟨l, -, -, hsem⟩ := h.box m hm
    obtain ⟨j, hj, hfj, -⟩ := hsem b
    cases hi.symm.trans hj
    exact hfj
  refine ⟨fun m' hm' => ?_, h.own, h.unused, fun j hj => ?_, h.semNodup, h.mboxFree, h.mboxNodup,
    h.enough, fun t c j gen waited a hth => ?_, h.time, h.noErrMem⟩
  · obtain ⟨l, hr, hp, hsem⟩ := h.box m' hm'
    refine ⟨l, hr, hp, fun b' => ?_⟩
    obtain ⟨j, hj, hfj, hcj⟩ := hsem b'
    refine ⟨j, hj, ?_⟩
    change (update s.sems i v j).freed = false ∧
      (update s.sems i v j).counter.toNat + _ = _
    by_cases hji : j = i
    · -- the semaphore belongs to one mailbox only
      subst hji
      obtain ⟨rfl, rfl⟩ := h.own m' m b' b j hm' hm hj hi
      rw [update_self]
      exact ⟨hf, hc.trans hcj⟩
    · rw [update_of_ne hji, hδ m' b' fun heq => hji (by
        cases heq
        exact Option.some.inj (hj.symm.trans hi))]
      exact ⟨hfj, hcj⟩
  · have hne : j ≠ i := fun heq => by
      rw [heq] at hj
      exact absurd (h.semFree i hj) (by rw [hlive]; nofun)
    change (update s.sems i v j).freed = true
    rw [update_of_ne hne]
    exact h.semFree j hj
  · obtain ⟨hcm, hcs, hgen, htime⟩ := h.asleep t c j gen waited a hth
    refine ⟨hcm, hcs, ?_, htime.congr rfl⟩
    change (update s.sems i v j).gen = gen
    by_cases hji : j = i
    · rw [hji, update_self, hg, ← hji]
      exact hgen
    · rw [update_of_ne hji]
      exact hgen

theorem Inv.sem_live : (s.sems i).freed = false ∧ (s.sems i).counter.toNat + owed δ m b ≤ 32 := by
  obtain ⟨l, hr, -, hsem⟩ := h.box m hm
  obtain ⟨j, hj, hfj, hcj⟩ := hsem b
  cases hi.symm.trans hj
  have hle : l.length ≤ 32 := hr.le
  refine ⟨hfj, ?_⟩
  rw [hcj, level]
  split
  · omega
  · exact hle

theorem Inv.ne_freed (hj : (s.sems j).freed = true) : i ≠ j := fun heq => by
  rw [← heq, (h.sem_live hm hi).1] at hj
  cases hj

end

theorem owed_none : owed none m b = 0 := rfl

theorem owed_self : owed (some (m, b)) m b = 1 := if_pos rfl

theorem owed_of_ne (h : (m', b') ≠ (m, b)) : owed (some (m, b)) m' b' = 0 :=
  if_neg fun heq => h (Option.some.inj heq).symm

theorem owed_other (h : m' ≠ m) : owed (some (m, b)) m' b' = 0 :=
  owed_of_ne fun heq => h (congrArg Prod.fst heq)

/-- A unit of a semaphore is taken. -/
theorem Inv.take (h : Inv none s) (hm : s.Live m) (hi : (s.mboxes m).sem b = some i)
    (hpos : 0#16 < (s.sems i).counter) :
    Inv (some (m, b)) (s.setSem i { s.sems i with counter := (s.sems i).counter - 1#16 }) := by
  refine h.setSem hm hi (h.sem_live hm hi).1 rfl ?_ fun m' b' hne => owed_of_ne hne
  rw [owed_self, owed_none]
  dsimp only
  bv_omega

/-- A unit that was owed is given back, to the other semaphore. -/
theorem Inv.signal (h : Inv (some (m, b)) s) (hm : s.Live m) (hi : (s.mboxes m).sem b = some i) :
    Inv none (s.setSem i { s.sems i with
      counter := (s.sems i).counter + 1#16
      waiters := 0 }) := by
  obtain ⟨hf, hle⟩ := h.sem_live hm hi
  refine h.setSem hm hi hf rfl ?_ fun m' b' hne => (owed_of_ne hne).symm
  rw [owed_self] at hle ⊢
  rw [owed_none]
  dsimp only
  bv_omega

theorem Inv.wait (h : Inv δ s) (hm : s.Live m) (hi : (s.mboxes m).sem b = some i) :
    Inv δ (s.setSem i { s.sems i with waiters := 1 }) :=
  h.setSem hm hi (h.sem_live hm hi).1 rfl rfl fun _ _ _ => rfl

/-- The mailbox `m` with its histories. -/
def setBox (s : Lwip) (m : Fin 128) (bx : MboxEntry) (p f : List Word) : Lwip :=
  { s with
    mboxes := update s.mboxes m bx
    posted := update s.posted m p
    fetched := update s.fetched m f }

/-- **The messages of a mailbox change** along with what is owed to its semaphores. -/
theorem Inv.setBox {bx : MboxEntry} {p f l' : List Word} (h : Inv δ s) (hm : s.Live m)
    (hbox : BoxOk δ s m l) (hlive : bx.freed = false) (hsem : bx.sem = (s.mboxes m).sem)
    (hr : (⟨bx.head, bx.nextq, bx.msg⟩ : Ring 32 Word).Holds l') (hp : p = f ++ l')
    (hl : ∀ b n, n + owed δ m b = level l b → n + owed δ' m b = level l' b)
    (hδ : ∀ m' b, m' ≠ m → owed δ' m' b = owed δ m' b) : Inv δ' (s.setBox m bx p f) := by
  have hself : (s.setBox m bx p f).mboxes m = bx := update_self ..
  have hne : ∀ m', m' ≠ m → (s.setBox m bx p f).mboxes m' = s.mboxes m' := fun m' h' =>
    update_of_ne h' ..
  have hlive' : ∀ m', (s.setBox m bx p f).Live m' ↔ s.Live m' := fun m' => by
    by_cases h' : m' = m
    · rw [Live, h', hself]
      exact iff_of_true hlive hm
    · rw [Live, hne m' h', Live]
  have hsems : ∀ m', ((s.setBox m bx p f).mboxes m').sem = (s.mboxes m').sem := fun m' => by
    by_cases h' : m' = m
    · rw [h', hself, hsem]
    · rw [hne m' h']
  refine ⟨fun m' hm' => ?_, fun m₁ m₂ b1 b2 i h1 h2 hi1 hi2 => ?_, fun m' hm' => ?_, h.semFree,
    h.semNodup, fun m' => (h.mboxFree m').trans (not_congr (hlive' m').symm), h.mboxNodup, h.enough,
    fun t c i gen waited a hth => ?_, h.time, h.noErrMem⟩
  · by_cases h' : m' = m
    · subst h'
      refine ⟨l', ?_, ?_, fun b => ?_⟩
      · rw [ring, hself]
        exact hr
      · change update s.posted m' p m' = update s.fetched m' f m' ++ l'
        rw [update_self, update_self, hp]
      · obtain ⟨i, hi, hf, hc⟩ := hbox.2.2 b
        exact ⟨i, (congrFun (hsems m') b).trans hi, hf, hl b _ hc⟩
    · obtain ⟨l₁, hr1, hp1, hsem1⟩ := h.box m' ((hlive' m').mp hm')
      refine ⟨l₁, ?_, ?_, fun b => ?_⟩
      · rw [ring, hne m' h']
        exact hr1
      · change update s.posted m p m' = update s.fetched m f m' ++ l₁
        rw [update_of_ne h', update_of_ne h', hp1]
      · obtain ⟨i, hi, hf, hc⟩ := hsem1 b
        rw [hsems, hδ m' b h']
        exact ⟨i, hi, hf, hc⟩
  · rw [hsems] at hi1 hi2
    exact h.own m₁ m₂ b1 b2 i ((hlive' m₁).mp h1) ((hlive' m₂).mp h2) hi1 hi2
  · have h' : m' ≠ m := fun heq => hm' ((hlive' m').mpr (heq ▸ hm))
    change update s.posted m p m' = [] ∧ update s.fetched m f m' = []
    rw [update_of_ne h', update_of_ne h']
    exact h.unused m' fun hl => hm' ((hlive' m').mpr hl)
  · obtain ⟨hcm, hcs, hgen, htime⟩ := h.asleep t c i gen waited a hth
    rw [hsems]
    exact ⟨(hlive' c.mbox).mpr hcm, hcs, hgen, htime.congr rfl⟩

/-! ### Posting and fetching -/

theorem place_one (h : Fin 32) : Ring.place h 1 = h + 1 := by
  apply Fin.ext
  rw [Ring.place, Fin.val_add]
  rfl

theorem assert_run (h : b = true) : (assert b).run s = .ok ((), s) := by
  rw [assert, if_pos h]
  rfl

theorem sysSemSignal_run (h : (s.sems i).freed = false) : (sysSemSignal (some i)).run s =
    .ok ((), s.setSem i { s.sems i with counter := (s.sems i).counter + 1#16, waiters := 0 }) := by
  rw [sysSemSignal, bind_ok (a := i) (u := s) rfl, bind_get, bind_ok (assert_run (by rw [h]; rfl))]
  rfl

/-- The signal at the end of a call, which has changed the mailbox. -/
theorem Inv.signal_run {bx : MboxEntry} {p f : List Word}
    (h : Inv (some (m, b)) (s.setBox m bx p f)) (hf : bx.freed = false) (hi : bx.sem b = some i) :
    ∃ s', (sysSemSignal (some i)).run (s.setBox m bx p f) = .ok ((), s') ∧ Inv none s' := by
  have hself : (s.setBox m bx p f).mboxes m = bx := update_self ..
  have hm : (s.setBox m bx p f).Live m := by
    rw [Live, hself]
    exact hf
  have hi' : ((s.setBox m bx p f).mboxes m).sem b = some i := by
    rw [hself]
    exact hi
  exact ⟨_, sysSemSignal_run (h.sem_live hm hi').1, h.signal hm hi'⟩

/-- **A message is put into the mailbox** by a call that has a free slot. -/
theorem Inv.trypostRest (h : Inv (some (m, true)) s) (hm : s.Live m) (msg : Word) :
    ∃ s', (trypostRest m msg).run s = .ok (.errOk, s') ∧ Inv none s' := by
  obtain ⟨l, hr, hp, hsem⟩ := h.box m hm
  obtain ⟨f, -, -, hcf⟩ := hsem true
  obtain ⟨q, hq, -, -⟩ := hsem false
  have hlt : l.length < 32 := by
    rw [owed_self, level, if_pos rfl] at hcf
    omega
  -- the ring is not full, and holds the message then
  have hroom : ¬ (s.mboxes m).head = some (s.mboxes m).nextq := hr.not_full hlt
  have hpush := hr.push (x := msg) hlt
  rw [Ring.push, place_one] at hpush
  have h1 : Inv (some (m, false)) (s.setBox m ((s.mboxes m).post msg) (s.posted m ++ [msg])
      (s.fetched m)) := by
    refine h.setBox hm ⟨hr, hp, hsem⟩ hm rfl hpush (by rw [hp, append_assoc]) ?_ ?_
    · rintro (_ | _) n hn
      · rw [owed_self]
        rw [owed_of_ne (by simp)] at hn
        simp only [level, length_append, length_singleton] at hn ⊢
        simpa using hn
      · rw [owed_of_ne (by simp)]
        rw [owed_self] at hn
        simp only [level, if_true, length_append, length_singleton] at hn ⊢
        omega
    · intro m' b hne
      rw [owed_other hne, owed_other hne]
  have hstate : s.setBox m ((s.mboxes m).post msg) (s.posted m ++ [msg]) (s.fetched m) = { s with
      mboxes := update s.mboxes m ((s.mboxes m).post msg)
      posted := update s.posted m (s.posted m ++ [msg]) } := by
    rw [Lwip.setBox, update_eq_self]
  obtain ⟨s', hsig, hs'⟩ := h1.signal_run hm hq
  rw [hstate] at hsig
  refine ⟨s', ?_, hs'⟩
  rw [JosVmm.trypostRest, bind_get, if_neg hroom,
    bind_ok (s := s) rfl, bind_ok rfl, show (s.mboxes m).queuedMsg = some q from hq]
  exact bind_ok hsig

/-- **The oldest message is taken from the mailbox** by a call that has one. -/
theorem Inv.fetchRest (h : Inv (some (m, false)) s) (hm : s.Live m) (out : Bool)
    (hw : w ≠ sysArchTimeout) :
    ∃ o s', (fetchRest m out w).run s = .ok (.waited w o, s') ∧ Inv none s' := by
  obtain ⟨l, hr, hp, hsem⟩ := h.box m hm
  obtain ⟨f, hf, -, -⟩ := hsem true
  obtain ⟨q, -, -, hcq⟩ := hsem false
  -- there is a message
  obtain ⟨x, l, rfl⟩ : ∃ x l', l = x :: l' := by
    cases l with
    | nil => rw [owed_self] at hcq; cases hcq
    | cons x l => exact ⟨x, l, rfl⟩
  obtain ⟨slot, hhead, hx, hpop⟩ := hr.pop
  rw [Ring.pop, place_one] at hpop
  have h1 : Inv (some (m, true)) (s.setBox m ((s.mboxes m).fetch slot) (s.posted m)
      (s.fetched m ++ [(s.mboxes m).msg slot])) := by
    refine h.setBox hm ⟨hr, hp, hsem⟩ hm rfl hpop ?_ ?_ ?_
    · rw [hp, show (s.mboxes m).msg slot = x from hx, append_assoc]
      rfl
    · have hle : (x :: l).length ≤ 32 := hr.le
      rintro (_ | _) n hn
      · rw [owed_of_ne (by simp)]
        rw [owed_self] at hn
        simpa [level] using hn
      · rw [owed_self]
        rw [owed_of_ne (by simp)] at hn
        simp only [level, if_true, length_cons] at hn hle ⊢
        omega
    · intro m' b hne
      rw [owed_other hne, owed_other hne]
  have hstate : s.setBox m ((s.mboxes m).fetch slot) (s.posted m)
      (s.fetched m ++ [(s.mboxes m).msg slot]) = { s with
      mboxes := update s.mboxes m ((s.mboxes m).fetch slot)
      fetched := update s.fetched m (s.fetched m ++ [(s.mboxes m).msg slot]) } := by
    rw [Lwip.setBox, update_eq_self]
  obtain ⟨s', hsig, hs'⟩ := h1.signal_run hm hf
  rw [hstate] at hsig
  refine ⟨if out then some ((s.mboxes m).msg slot) else none, s', ?_, hs'⟩
  rw [JosVmm.fetchRest, if_neg hw, bind_get]
  dsimp only
  rw [show (s.mboxes m).head = some slot from hhead]
  dsimp only
  rw [bind_ok (s := s) rfl, bind_ok rfl, show (s.mboxes m).freeMsg = some f from hf]
  exact bind_ok hsig

/-- The rest of a call that has what it waited for. -/
theorem Inv.rest (h : Inv (some (c.mbox, c.waitsFree)) s) (hm : s.Live c.mbox)
    (hw : w ≠ sysArchTimeout) :
    ∃ r s', (c.rest w).run s = .ok (r, s') ∧ r ≠ .errMem ∧ Inv none s' := by
  cases c with
  | trypost m msg =>
    obtain ⟨s', hrun, hs'⟩ := h.trypostRest hm msg
    exact ⟨_, s', hrun, nofun, hs'⟩
  | post m msg =>
    obtain ⟨s', hrun, hs'⟩ := Inv.trypostRest (m := m) h hm msg
    refine ⟨.void, s', ?_, nofun, hs'⟩
    rw [MboxCall.rest, bind_ok hrun, bind_ok (assert_run (by decide))]
    rfl
  | fetch m out tm =>
    obtain ⟨o, s', hrun, hs'⟩ := h.fetchRest hm out hw
    exact ⟨_, s', hrun, nofun, hs'⟩

/-! ### Waiting -/

theorem Inv.addRet (h : Inv δ s) (hr : r ≠ .errMem) : Inv δ { s with rets := r :: s.rets } := by
  refine ⟨h.box, h.own, h.unused, h.semFree, h.semNodup, h.mboxFree, h.mboxNodup, h.enough,
    fun t c i gen waited a hth => ?_, h.time, ?_⟩
  · obtain ⟨hcm, hcs, hgen, htime⟩ := h.asleep t c i gen waited a hth
    exact ⟨hcm, hcs, hgen, htime.congr rfl⟩
  · rw [mem_cons]
    rintro (heq | hmem)
    · exact hr heq.symm
    · exact h.noErrMem hmem

theorem Inv.setThread {th : NetThread} (h : Inv δ s) (hth : ∀ c i gen waited a,
    th = .asleep c i gen waited a → s.Live c.mbox ∧ (s.mboxes c.mbox).sem c.waitsFree = some i ∧
      (s.sems i).gen = gen ∧ s.TimeOk waited a) :
    Inv δ { s with threads := update s.threads t th } := by
  refine ⟨h.box, h.own, h.unused, h.semFree, h.semNodup, h.mboxFree, h.mboxNodup, h.enough,
    fun t' c i gen waited a hth' => ?_, h.time, h.noErrMem⟩
  have hok : s.Live c.mbox ∧ (s.mboxes c.mbox).sem c.waitsFree = some i ∧
      (s.sems i).gen = gen ∧ s.TimeOk waited a := by
    change update s.threads t th t' = _ at hth'
    by_cases ht : t' = t
    · rw [ht, update_self] at hth'
      exact hth c i gen waited a hth'
    · rw [update_of_ne ht] at hth'
      exact h.asleep t' c i gen waited a hth'
  obtain ⟨hcm, hcs, hgen, htime⟩ := hok
  exact ⟨hcm, hcs, hgen, htime.congr rfl⟩

theorem Inv.toNat_timeMsec (h : Inv δ s) : s.timeMsec.toNat = s.ticks.toNat * 10 := by
  rw [timeMsec, BitVec.toNat_mul]
  exact Nat.mod_eq_of_lt h.time

/-- The end of a call. -/
theorem finish (hrest : ∃ r s', (c.rest w).run { s with
      threads := update s.threads t .idle } = .ok (r, s') ∧ r ≠ .errMem ∧ Inv none s') :
    ∃ s', (do
      JosVmm.setThread t .idle
      let r ← c.rest w
      modify fun s => { s with rets := r :: s.rets } : Nm Unit).run s = .ok ((), s') ∧
      Inv none s' := by
  obtain ⟨r, s', hrun, hr, hs'⟩ := hrest
  refine ⟨_, ?_, hs'.addRet hr⟩
  rw [JosVmm.setThread, bind_ok (s := s) rfl, bind_ok hrun]
  rfl

/-- A call that returns without having waited for long enough does nothing; it is no post. -/
theorem rest_timeout (hc : c.tmMsec ≠ 0) :
    ∃ r, (c.rest sysArchTimeout).run s = .ok (r, s) ∧ r ≠ .errMem := by
  cases c with
  | trypost m msg => exact absurd rfl hc
  | post m msg => exact absurd rfl hc
  | fetch m out tm =>
    refine ⟨.waited sysArchTimeout none, ?_, nofun⟩
    rw [MboxCall.rest, fetchRest, if_pos rfl]
    rfl

/-- **A thread goes on** with a call: it sleeps again, or ends the call. -/
theorem Inv.goOn {gen waited : BitVec 32} (h : Inv none s) (hm : s.Live c.mbox)
    (hi : (s.mboxes c.mbox).sem c.waitsFree = some i) (hg : (s.sems i).gen = gen)
    (hle : waited.toNat ≤ s.ticks.toNat * 10) (hmod : waited.toNat % 10 = 0) :
    ∃ s', (goOn t c i gen waited).run s = .ok ((), s') ∧ Inv none s' := by
  have hidle : ∀ {s : Lwip} {δ}, Inv δ s → Inv δ { s with
      threads := update s.threads t .idle } := fun h => h.setThread nofun
  have hdone : c.tmMsec ≠ 0 → (semWaitRound i c.tmMsec waited).run s = .ok (.done sysArchTimeout, s) →
      ∃ s', (JosVmm.goOn t c i gen waited).run s = .ok ((), s') ∧ Inv none s' := fun htm hrun => by
    obtain ⟨r, hrest, hr⟩ := rest_timeout (s := { s with
      threads := update s.threads t .idle }) htm
    rw [JosVmm.goOn, bind_ok hrun]
    exact finish ⟨r, _, hrest, hr, hidle h⟩
  by_cases hloop : c.tmMsec = 0 ∨ waited < c.tmMsec
  · by_cases hpos : 0#16 < (s.sems i).counter
    · have hround : (semWaitRound i c.tmMsec waited).run s = .ok (.done waited,
          s.setSem i { s.sems i with counter := (s.sems i).counter - 1#16 }) := by
        rw [semWaitRound, if_pos hloop, bind_get, if_pos hpos]
        rfl
      -- the time is a multiple of 10, and no timeout
      have hw : waited ≠ sysArchTimeout := fun heq => by
        rw [heq] at hmod
        exact absurd hmod (by decide)
      have h1 := h.take hm hi hpos
      rw [JosVmm.goOn, bind_ok hround]
      exact finish ((hidle h1).rest hm hw)
    · by_cases hnow : c.tmMsec = sysArchNowait
      · refine hdone (by rw [hnow]; decide) ?_
        rw [semWaitRound, if_pos hloop, bind_get, if_neg hpos, if_pos hnow]
        rfl
      · have hround : (semWaitRound i c.tmMsec waited).run s = .ok (.sleep s.timeMsec,
            s.setSem i { s.sems i with waiters := 1 }) := by
          rw [semWaitRound, if_pos hloop, bind_get, if_neg hpos, if_neg hnow]
          rfl
        have htime := h.toNat_timeMsec
        have hsleep : s.TimeOk waited s.timeMsec :=
          ⟨htime ▸ hle, Nat.le_of_eq htime, hmod, by rw [htime, Nat.mul_mod_left]⟩
        rw [JosVmm.goOn, bind_ok hround]
        refine ⟨_, rfl, (h.wait hm hi).setThread fun c' i' gen' waited' a' heq => ?_⟩
        cases heq
        refine ⟨hm, hi, ?_, hsleep.congr rfl⟩
        change (update s.sems i _ i).gen = gen
        rw [update_self]
        exact hg
  · refine hdone (fun h0 => hloop (.inl h0)) ?_
    rw [semWaitRound, if_neg hloop]
    rfl

theorem Inv.startCall (h : Inv none s) (hm : s.Live c.mbox) :
    ∃ s', (startCall t c).run s = .ok ((), s') ∧ Inv none s' := by
  obtain ⟨l, -, -, hsem⟩ := h.box c.mbox hm
  obtain ⟨i, hi, hf, -⟩ := hsem c.waitsFree
  have hlive : (s.mboxes c.mbox).freed = false := hm
  rw [JosVmm.startCall, bind_get, bind_ok (assert_run (by rw [hlive]; rfl)), hi,
    bind_ok (a := i) (u := s) rfl, bind_get, bind_ok (assert_run (by rw [hf]; rfl)), bind_get]
  exact h.goOn hm hi rfl (Nat.zero_le _) rfl

theorem Inv.wakeUp (h : Inv none s) : ∃ s', (wakeUp t).run s = .ok ((), s') ∧ Inv none s' := by
  rw [JosVmm.wakeUp, bind_get]
  cases hth : s.threads t with
  | idle => exact ⟨s, rfl, h⟩
  | asleep c i gen waited a =>
    obtain ⟨hm, hi, hg, htime⟩ := h.asleep t c i gen waited a hth
    have hnow := h.toNat_timeMsec
    dsimp only
    rw [bind_get, if_neg (not_not.mpr hg.symm), bind_get]
    -- the sum is at most the time since the start, and does not wrap around
    have hsum : (waited + (s.timeMsec - a)).toNat =
        waited.toNat + (s.ticks.toNat * 10 - a.toNat) := by
      have hle := htime.waited_le
      have hle' := htime.le_now
      bv_omega
    refine h.goOn hm hi hg ?_ ?_
    · rw [hsum]
      have hle := htime.waited_le
      have hle' := htime.le_now
      omega
    · rw [hsum]
      have hm1 := htime.waited_mod
      have hm2 := htime.mod
      have hle' := htime.le_now
      omega

theorem Inv.tick (h : Inv none s) :
    (∃ s', timeTick.run s = .ok ((), s') ∧ Inv none s') ∨ timeTick.run s = .error .timeOverflow := by
  rw [timeTick, bind_ok (s := s) rfl, bind_ok rfl]
  have hlt := h.time
  split
  · exact .inr rfl
  · rename_i hov
    have hov' : ¬ (s.ticks + 1#32) * 10#32 < s.ticks + 1#32 := hov
    have hnext : (s.ticks + 1#32).toNat = s.ticks.toNat + 1 := by bv_omega
    have htime : (s.ticks.toNat + 1) * 10 < 2 ^ 32 := by
      rw [BitVec.lt_def, BitVec.toNat_mul, hnext] at hov'
      simp only [BitVec.toNat_ofNat] at hov'
      omega
    refine .inl ⟨_, rfl, h.box, h.own, h.unused, h.semFree, h.semNodup, h.mboxFree, h.mboxNodup,
      h.enough, fun t c i gen waited a hth => ?_, ?_, h.noErrMem⟩
    · obtain ⟨hcm, hcs, hgen, ht⟩ := h.asleep t c i gen waited a hth
      refine ⟨hcm, hcs, hgen, ht.1, ?_, ht.3, ht.4⟩
      change a.toNat ≤ (s.ticks + 1#32).toNat * 10
      have hle := ht.le_now
      omega
    · change (s.ticks + 1#32).toNat * 10 < 2 ^ 32
      rw [hnext]
      exact htime

/-! ### New mailboxes -/

theorem sysSemNew_run {rest : List (Fin 256)} (hs : s.semFree = i :: rest)
    (hf : (s.sems i).freed = true) (count : BitVec 8) : (sysSemNew count).run s =
      .ok (some i, { s with
        semFree := rest
        sems := update s.sems i ((s.sems i).renew count) }) := by
  rw [sysSemNew, bind_get, hs]
  dsimp only
  rw [bind_ok (s := s) rfl, bind_ok rfl, bind_ok (assert_run hf)]
  rfl

/-- The mailbox `m`, made with the semaphores `i` and `j`. -/
def made (s : Lwip) (m : Fin 128) (i j : Fin 256) (rest : List (Fin 128))
    (rest' : List (Fin 256)) : Lwip := { s with
  mboxFree := rest
  semFree := rest'
  sems := update (update s.sems i ((s.sems i).renew 0)) j ((s.sems j).renew 32)
  mboxes := update s.mboxes m { s.mboxes m with
    freed := false, head := none, nextq := 0, queuedMsg := some i, freeMsg := some j } }

section Made

variable {rest : List (Fin 128)} {rest' : List (Fin 256)}

theorem made_self : (s.made m i j rest rest').mboxes m = { s.mboxes m with
    freed := false, head := none, nextq := 0, queuedMsg := some i, freeMsg := some j } :=
  update_self ..

theorem made_of_ne (h : m' ≠ m) : (s.made m i j rest rest').mboxes m' = s.mboxes m' :=
  update_of_ne h ..

theorem made_live : (s.made m i j rest rest').Live m' ↔ m' = m ∨ s.Live m' := by
  by_cases h : m' = m
  · rw [Live, h, made_self]
    exact iff_of_true rfl (.inl rfl)
  · rw [Live, made_of_ne h, Live, or_iff_right h]

theorem made_sems {x : Fin 256} (hi : x ≠ i) (hj : x ≠ j) :
    (s.made m i j rest rest').sems x = s.sems x := by
  change update (update s.sems i _) j _ x = _
  rw [update_of_ne hj, update_of_ne hi]

/-- **A new mailbox is empty.** -/
theorem made_box (hij : i ≠ j) (hu : s.posted m = [] ∧ s.fetched m = []) :
    BoxOk none (s.made m i j rest rest') m [] := by
  refine ⟨?_, hu.1.trans (by rw [append_nil]; exact hu.2.symm), fun b => ?_⟩
  · rw [ring, made_self]
    exact Ring.Holds.new ..
  · rw [made_self]
    cases b with
    | false =>
      refine ⟨i, rfl, ?_⟩
      change (update (update s.sems i _) j _ i).freed = false ∧
        (update (update s.sems i _) j _ i).counter.toNat + _ = _
      rw [update_of_ne hij, update_self]
      exact ⟨rfl, rfl⟩
    | true =>
      refine ⟨j, rfl, ?_⟩
      change (update (update s.sems i _) j _ j).freed = false ∧
        (update (update s.sems i _) j _ j).counter.toNat + _ = _
      rw [update_self]
      exact ⟨rfl, rfl⟩

/-- A semaphore of a mailbox is one of the two new ones, or it was one before. -/
theorem made_sem {x : Fin 256} (hm' : (s.made m i j rest rest').Live m')
    (hx : ((s.made m i j rest rest').mboxes m').sem b = some x) (hnl : ¬ s.Live m) :
    m' = m ∧ x = (if b then j else i) ∨ s.Live m' ∧ (s.mboxes m').sem b = some x := by
  rcases made_live.mp hm' with rfl | hm'
  · rw [made_self] at hx
    cases b <;> exact .inl ⟨rfl, (Option.some.inj hx).symm⟩
  · have hne : m' ≠ m := fun heq => hnl (heq ▸ hm')
    rw [made_of_ne hne] at hx
    exact .inr ⟨hm', hx⟩

/-- The new mailbox has its semaphores for itself. -/
theorem Inv.made (h : Inv none s) (hm : s.mboxFree = m :: rest) (hs : s.semFree = i :: j :: rest') :
    Inv none (s.made m i j rest rest') := by
  have hnl : ¬ s.Live m := (h.mboxFree m).mp (by rw [hm]; exact mem_cons_self ..)
  have hne : ∀ {m'}, s.Live m' → m' ≠ m := fun hm' heq => hnl (heq ▸ hm')
  have hfree : ∀ x ∈ i :: j :: rest', (s.sems x).freed = true := hs ▸ h.semFree
  have hnd : (i :: j :: rest').Nodup := hs ▸ h.semNodup
  have hij : i ≠ j := fun heq => (List.nodup_cons.mp hnd).1 (heq ▸ mem_cons_self ..)
  -- the semaphores of the other mailboxes are not free
  have hold : ∀ {m' b x}, s.Live m' → (s.mboxes m').sem b = some x → x ≠ i ∧ x ≠ j :=
    fun hm' hx => ⟨h.ne_freed hm' hx (hfree i (mem_cons_self ..)),
      h.ne_freed hm' hx (hfree j (by simp))⟩
  refine ⟨fun m' hm' => ?_, fun m₁ m₂ b1 b2 x h1 h2 hx1 hx2 => ?_, fun m' hm' => ?_, fun x hx => ?_,
    ?_, fun m' => ?_, ?_, ?_, fun t c x gen waited a hth => ?_, h.time, h.noErrMem⟩
  · rcases made_live.mp hm' with rfl | hm'
    · exact ⟨[], made_box hij (h.unused m' hnl)⟩
    · obtain ⟨l, hr, hp, hsem⟩ := h.box m' hm'
      refine ⟨l, ?_, hp, fun b => ?_⟩
      · rw [ring, made_of_ne (hne hm')]
        exact hr
      · obtain ⟨x, hx, hf, hc⟩ := hsem b
        obtain ⟨hxi, hxj⟩ := hold hm' hx
        refine ⟨x, ?_, ?_⟩
        · rw [made_of_ne (hne hm')]
          exact hx
        · rw [made_sems hxi hxj]
          exact ⟨hf, hc⟩
  · rcases made_sem h1 hx1 hnl with ⟨rfl, hx⟩ | ⟨hl1, hy1⟩ <;>
      rcases made_sem h2 hx2 hnl with ⟨rfl, hx'⟩ | ⟨hl2, hy2⟩
    · refine ⟨rfl, ?_⟩
      rw [hx] at hx'
      cases b1 <;> cases b2
      · rfl
      · exact absurd hx' hij
      · exact absurd hx'.symm hij
      · rfl
    · obtain ⟨hxi, hxj⟩ := hold hl2 hy2
      cases b1
      · exact absurd hx hxi
      · exact absurd hx hxj
    · obtain ⟨hxi, hxj⟩ := hold hl1 hy1
      cases b2
      · exact absurd hx' hxi
      · exact absurd hx' hxj
    · exact h.own m₁ m₂ b1 b2 x hl1 hl2 hy1 hy2
  · exact h.unused m' fun h' => hm' (made_live.mpr (.inr h'))
  · have hxj : x ≠ j := fun heq => (List.nodup_cons.mp (List.nodup_cons.mp hnd).2).1 (heq ▸ hx)
    have hxi : x ≠ i := fun heq => (List.nodup_cons.mp hnd).1 (heq ▸ mem_cons_of_mem _ hx)
    rw [made_sems hxi hxj]
    exact hfree x (mem_cons_of_mem _ (mem_cons_of_mem _ hx))
  · exact (List.nodup_cons.mp (List.nodup_cons.mp hnd).2).2
  · have hmem := h.mboxFree m'
    rw [hm, mem_cons] at hmem
    rw [made_live, not_or, ← hmem]
    refine ⟨fun hr => ⟨fun heq => ?_, .inr hr⟩, fun ⟨hne', hr⟩ => hr.resolve_left hne'⟩
    exact (List.nodup_cons.mp (hm ▸ h.mboxNodup)).1 (heq ▸ hr)
  · exact (List.nodup_cons.mp (hm ▸ h.mboxNodup)).2
  · have hlen := h.enough
    rw [hm, hs, length_cons, length_cons, length_cons] at hlen
    change rest'.length = 2 * rest.length
    omega
  · obtain ⟨hcm, hcs, hgen, htime⟩ := h.asleep t c x gen waited a hth
    obtain ⟨hxi, hxj⟩ := hold hcm hcs
    refine ⟨made_live.mpr (.inr hcm), ?_, ?_, htime.congr rfl⟩
    · rw [made_of_ne (hne hcm)]
      exact hcs
    · rw [made_sems hxi hxj]
      exact hgen

end Made

/-- `sys_mbox_new` makes a mailbox, or has none left, or is asked for one that is too large. -/
theorem Inv.sysMboxNew (h : Inv none s) (size : Int) :
    (∃ o s', (sysMboxNew size).run s = .ok (o, s') ∧ Inv none s') ∨
      (sysMboxNew size).run s = .error .assertFailed := by
  rw [JosVmm.sysMboxNew]
  by_cases hsize : size < 32
  · refine .inl ?_
    rw [bind_ok (assert_run (decide_eq_true hsize)), bind_get]
    cases hm : s.mboxFree with
    | nil => exact ⟨none, s, rfl, h⟩
    | cons m rest =>
      obtain ⟨i, j, rest', hs⟩ : ∃ i j rest', s.semFree = i :: j :: rest' := by
        have hlen := h.enough
        rw [hm, length_cons] at hlen
        match hsf : s.semFree with
        | [] => rw [hsf] at hlen; simp at hlen
        | [i] => rw [hsf] at hlen; simp at hlen; omega
        | i :: j :: rest' => exact ⟨i, j, rest', rfl⟩
      refine ⟨some m, s.made m i j rest rest', ?_, h.made hm hs⟩
      have hmf : (s.mboxes m).freed = true :=
        Bool.eq_true_of_not_eq_false ((h.mboxFree m).mp (hm ▸ mem_cons_self ..))
      have hfree : ∀ x ∈ i :: j :: rest', (s.sems x).freed = true := hs ▸ h.semFree
      have hij : j ≠ i := fun heq =>
        (List.nodup_cons.mp (hs ▸ h.semNodup)).1 (heq ▸ mem_cons_self ..)
      have hj : update s.sems i ((s.sems i).renew 0) j = s.sems j :=
        update_of_ne hij ..
      dsimp only
      rw [bind_ok (s := s) rfl, bind_ok rfl, bind_ok (assert_run hmf),
        bind_ok (sysSemNew_run (i := i) (s := { s with mboxFree := rest }) hs
          (hfree i (mem_cons_self ..)) 0),
        bind_ok (sysSemNew_run (i := j) rfl ((congrArg SemEntry.freed hj).trans
          (hfree j (by simp))) 32), bind_ok rfl, if_neg (by simp)]
      dsimp only
      rw [hj]
      rfl
  · refine .inr ?_
    rw [assert, decide_eq_false hsize]
    rfl

theorem inv_init : Inv none init := by
  have hnl : ∀ m, ¬ init.Live m := fun _ => nofun
  refine ⟨fun m hm => absurd hm (hnl m), fun m _ _ _ _ hm => absurd hm (hnl m),
    fun _ _ => ⟨rfl, rfl⟩, fun _ _ => rfl, ?_, fun m => iff_of_true ?_ (hnl m), ?_, ?_, nofun,
    by decide, nofun⟩
  · simp only [init, nodup_reverse, nodup_finRange]
  · simp only [init, mem_reverse, mem_finRange]
  · simp only [init, nodup_reverse, nodup_finRange]
  · simp only [init, length_reverse, length_finRange]

/-! ### A mailbox without semaphores -/

theorem assert_eq_ok {u : Unit} (h : (assert b).run s = .ok (u, s')) : s' = s := by
  unfold assert at h
  split at h <;> cases h
  rfl

theorem sysSemNew_count {count : BitVec 8} {r : Option (Fin 256)}
    (h : (sysSemNew count).run s = .ok (r, s')) :
    r = none ∨ s'.semFree.length + 1 = s.semFree.length := by
  rw [sysSemNew, bind_get] at h
  split at h
  · cases h
    exact .inl rfl
  · rename_i hs
    rw [bind_modify, bind_get] at h
    obtain ⟨_, t, ha, h⟩ := bind_inv h
    cases assert_eq_ok ha
    cases h
    exact .inr (congrArg List.length hs).symm

theorem sysSemFree_eq_ok {sem : Option (Fin 256)} {u : Unit}
    (h : (sysSemFree sem).run s = .ok (u, s')) : sem ≠ none ∧ s'.mboxes = s.mboxes := by
  cases sem with
  | none => cases h
  | some i =>
    rw [sysSemFree, bind_ok (a := i) (u := s) rfl, bind_get] at h
    obtain ⟨_, t, ha, h⟩ := bind_inv h
    cases assert_eq_ok ha
    cases h
    exact ⟨nofun, rfl⟩

/-- `sys_mbox_free` uses both semaphores. -/
theorem sysMboxFree_eq_ok {u : Unit} (h : (sysMboxFree m).run s = .ok (u, s')) :
    (s.mboxes m).queuedMsg ≠ none ∧ (s.mboxes m).freeMsg ≠ none := by
  rw [sysMboxFree, bind_get] at h
  obtain ⟨_, _, ha, h⟩ := bind_inv h
  cases assert_eq_ok ha
  rw [bind_get] at h
  obtain ⟨_, t, hq, h⟩ := bind_inv h
  rw [bind_get] at h
  obtain ⟨_, _, hf, -⟩ := bind_inv h
  obtain ⟨hq, hboxes⟩ := sysSemFree_eq_ok hq
  exact ⟨hq, hboxes ▸ (sysSemFree_eq_ok hf).1⟩

/-- **When `sys_mbox_new` cannot get a mailbox with its semaphores**, it fails and leaves the lists
as they were only if it is a mailbox that is missing.  Otherwise it frees a semaphore that it has not
got. -/
theorem sysMboxNew_clean_iff {size : Int} (hsize : size < 32)
    (hfail : s.mboxFree = [] ∨ s.semFree.length < 2) :
    (∃ s', (sysMboxNew size).run s = .ok (none, s') ∧ s'.semFree.Perm s.semFree ∧
      s'.mboxFree.Perm s.mboxFree) ↔ s.mboxFree = [] := by
  rw [sysMboxNew, bind_ok (assert_run (decide_eq_true hsize)), bind_get]
  refine ⟨fun ⟨s', h, _⟩ => ?_, fun hnil => ⟨s, by rw [hnil]; rfl, .refl _, .refl _⟩⟩
  by_contra hne
  have hs := hfail.resolve_left hne
  obtain ⟨m, rest, hm⟩ := exists_cons_of_ne_nil hne
  rw [hm] at h
  simp only [bind_modify, bind_get] at h
  obtain ⟨_, _, ha, h⟩ := bind_inv h
  cases assert_eq_ok ha
  obtain ⟨q, s₁, hq, h⟩ := bind_inv h
  obtain ⟨f, s₂, hf, h⟩ := bind_inv h
  have hnone : q = none ∨ f = none := by
    rcases sysSemNew_count hq with hq | hq
    · exact .inl hq
    · rcases sysSemNew_count hf with hf | hf
      · exact .inr hf
      · dsimp only at hq
        omega
  simp only [modifyMbox, bind_modify, if_pos hnone] at h
  obtain ⟨_, _, hfree, -⟩ := bind_inv h
  obtain ⟨hq, hf⟩ := sysMboxFree_eq_ok hfree
  simp only [update_self] at hq hf
  exact hnone.elim hq hf

/-- No mailbox is left. -/
theorem sysMboxNew_clean_none : ∃ s',
    (sysMboxNew 5).run { init with mboxFree := [], semFree := [7] } = .ok (none, s') ∧
      s'.semFree.Perm [7] ∧ s'.mboxFree.Perm [] :=
  (sysMboxNew_clean_iff (s := { init with mboxFree := [], semFree := [7] }) (by decide)
    (.inl rfl)).mpr rfl

/-- One semaphore is left: it is freed again, and then so is `SYS_SEM_NULL`. -/
theorem sysMboxNew_one_sem :
    (sysMboxNew 5).run { init with mboxFree := [3], semFree := [7] } = .error .badSem :=
  rfl

/-! ### Runs -/

/-- What happens next keeps the invariant, or an assertion of the caller or the clock fails. -/
theorem Inv.exec {a : NetAct} (h : Inv none s) : (∃ s', a.exec.run s = .ok ((), s') ∧ Inv none s') ∨
    a.exec.run s = .error .assertFailed ∨ a.exec.run s = .error .timeOverflow := by
  cases a with
  | new size =>
    rcases h.sysMboxNew size with ⟨o, s', hrun, hs'⟩ | hrun
    · exact .inl ⟨s', (bind_ok hrun).trans rfl, hs'⟩
    · exact .inr (.inl (bind_error hrun))
  | call t c =>
    rw [NetAct.exec, bind_get]
    cases hth : s.threads t with
    | asleep => exact .inl ⟨s, rfl, h⟩
    | idle =>
      by_cases hm : s.Live c.mbox
      · exact .inl (h.startCall hm)
      · refine .inr (.inl ?_)
        have hf : (s.mboxes c.mbox).freed = true := Bool.eq_true_of_not_eq_false hm
        rw [JosVmm.startCall, bind_get]
        dsimp only
        rw [hf]
        rfl
  | wake t => exact .inl h.wakeUp
  | tick =>
    rcases h.tick with hok | hov
    · exact .inl hok
    · exact .inr (.inr hov)

theorem inv_of_reach (h : Reach NetAct.exec (fun _ _ => True) init s) : Inv none s := by
  refine invariant (fun s u hs hstep => ?_) inv_init h
  obtain ⟨a, -, hrun⟩ := hstep
  rcases hs.exec (a := a) with ⟨s', hrun', hs'⟩ | herr | herr
  · cases hrun.symm.trans hrun'
    exact hs'
  · cases hrun.symm.trans herr
  · cases hrun.symm.trans herr

/-- A call on a mailbox runs until it ends or sleeps. -/
theorem Inv.call_ok (h : Inv none s) (hm : s.Live c.mbox) :
    ∃ s', (NetAct.call t c).exec.run s = .ok ((), s') := by
  rw [NetAct.exec, bind_get]
  cases s.threads t with
  | asleep => exact ⟨s, rfl⟩
  | idle =>
    obtain ⟨s', hrun, -⟩ := h.startCall (t := t) hm
    exact ⟨s', hrun⟩

end Lwip

end JosVmm
