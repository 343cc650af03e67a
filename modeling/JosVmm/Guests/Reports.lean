import JosVmm.Ept.Update
import JosVmm.Guests.Targets

/-!
# Guests — what a mapping request reports

`ept_page_insert` drops the error of a failed lookup: without the pages for its tables it returns
0 and maps nothing, and `sys_ept_map` then counts a page that is not mapped.  With `PTX(gpa) ≠ 0`
it returns 0 after writing another entry.  For addresses whose doubled indexes stay in their own
tables, `eptPageInsert_outcome` says what a call returns, maps and counts; from it follow the exact
conditions under which the two functions report what they did (`mapping_reported_iff`).
-/

namespace JosVmm
open Support Support.Radix Support.Prog

variable {F : Layout 512} {s s' : Pmap} {L : List Nat} {r pp : Nat} {gpa : Word}
  {perm : BitVec 32} {overwrite : Bool} {k : Kernel}

/-! ### Translations -/

/-- The page that `gpa` is mapped to. -/
def eptPageAt (s : Pmap) (r : Nat) (gpa : Word) : Option Nat :=
  (eptTranslate s r gpa).map fun e => ppn (epteAddr e)

/-- The last-level entry of `gpa` is there and in use. -/
def Occupied (s : Pmap) (r : Nat) (gpa : Word) : Prop :=
  ∃ a, entryAt s r (vpn gpa) = some a ∧ s.mem a ≠ 0

/-- No address of any table tree is translated differently, and no count has changed. -/
def NoTrace (F : Layout 512) (s s' : Pmap) : Prop :=
  (∀ r gpa, F.Node r (vpn gpa).path → eptTranslate s' r gpa = eptTranslate s r gpa) ∧
    s'.ppRef = s.ppRef

theorem eptPageAt_eq (h : Wf F s L) (hn : F.Node r (vpn gpa).path) :
    eptPageAt s r gpa = (tab s r (vpn gpa).path).bind fun u => eptDec (s.mem (slot u (ptx gpa))) := by
  rw [eptPageAt, eptTranslate_eq h hn]
  cases tab s r (vpn gpa).path with
  | none => rfl
  | some u => rfl

/-- An entry that is not in use maps nothing. -/
theorem eptPageAt_of_not_occupied (h : Wf F s L) (hn : F.Node r (vpn gpa).path)
    (hf : ¬ Occupied s r gpa) : eptPageAt s r gpa = none := by
  rw [eptPageAt_eq h hn]
  cases ht : tab s r (vpn gpa).path with
  | none => rfl
  | some u =>
    have hz : s.mem (slot u (ptx gpa)) = 0 := by
      by_contra hne
      exact hf ⟨slot u (ptx gpa), by rw [entryAt, ht]; rfl, hne⟩
    rw [Option.bind_some, hz, eptDec_zero]

/-- Writes to free pages change no translation. -/
theorem Wf.eptTranslate_withMem (h : Wf F s L) {m : Nat → Word}
    (hm : ∀ a, a / 512 ∉ L → m a = s.mem a) (hn : F.Node r (vpn gpa).path) :
    eptTranslate (s.withMem m) r gpa = eptTranslate s r gpa := by
  have hag : ∀ t, F.IsTable dec s.mem t → ∀ i : Fin 512, m (slot t i) = s.mem (slot t i) :=
    fun t ht i => hm _ (by rw [slot_div]; exact h.table_not_free t ht)
  rw [eptTranslate_eq (h.setMem hag) hn, eptTranslate_eq h hn,
    show tab (s.withMem m) r (vpn gpa).path = tab s r (vpn gpa).path from
      Layout.tableAt_agree hag hn]
  cases ht : tab s r (vpn gpa).path with
  | none => rfl
  | some u =>
    rw [Option.bind_some, Option.bind_some, Pmap.withMem_mem, hag u ⟨r, _, hn, ht⟩]

/-! ### One insertion -/

theorem missing_of_occupied (ho : Occupied s r gpa) : missing dec s.mem r (vpn gpa).path = 0 := by
  obtain ⟨a, ha, -⟩ := ho
  obtain ⟨u, hu, -⟩ := Option.map_eq_some_iff.mp ha
  exact missing_eq_zero hu

/-- The entry is in use after the growth exactly when it was before. -/
theorem Grown.occupied_iff {new L' : List Nat} {u : Nat} (g : Grown F s s' new L')
    (hn : F.Node r (vpn gpa).path) (hu : tab s' r (vpn gpa).path = some u) :
    s'.mem (slot u (ptx gpa)) ≠ 0 ↔ Occupied s r gpa := by
  cases ht : tab s r (vpn gpa).path with
  | none =>
    refine iff_of_false (not_not.mpr (g.leaf_new r _ u _ hn rfl ht hu)) ?_
    rintro ⟨a, ha, -⟩
    rw [entryAt, ht] at ha
    cases ha
  | some t =>
    obtain rfl := Option.some.inj (hu.symm.trans (g.old r _ t hn ht))
    rw [g.leaf_old r _ u _ hn rfl ht]
    constructor
    · exact fun hne => ⟨slot u (ptx gpa), by rw [entryAt, ht]; rfl, hne⟩
    · rintro ⟨a, ha, hne⟩
      rw [entryAt, ht] at ha
      rwa [show slot u (ptx gpa) = a from Option.some.inj ha]

theorem doubled_ne (h0 : ptx gpa ≠ 0) : vpn gpa ≠ doubled gpa := by
  intro e
  have hval := congrArg (fun v : Vpn => (v.2.2.2 : Nat)) e
  have hpos : (ptx gpa : Nat) ≠ 0 := fun h => h0 (Fin.ext h)
  simp only [doubled, vpn, Fin.val_add] at hval
  omega

/-- **What an insertion returns, maps and counts**, at an address whose doubled indexes stay in
its tables. -/
theorem eptPageInsert_outcome (pp : Nat) (perm : BitVec 32) (overwrite : Bool) (h : Wf F s L)
    (hn : F.Node r (vpn gpa).path) (hx : InTables gpa) :
    (L.length < missing dec s.mem r (vpn gpa).path ∧ ∃ s',
      (eptPageInsert (some (r * 512)) pp gpa perm overwrite).run s = .ok (.ok (), s') ∧
      NoTrace F s s') ∨
    (missing dec s.mem r (vpn gpa).path ≤ L.length ∧ (Occupied s r gpa ∧ overwrite = false) ∧
      ∃ s', (eptPageInsert (some (r * 512)) pp gpa perm overwrite).run s = .ok (.error .inval, s') ∧
      NoTrace F s s') ∨
    (missing dec s.mem r (vpn gpa).path ≤ L.length ∧ ¬ (Occupied s r gpa ∧ overwrite = false) ∧
      ∃ s', (eptPageInsert (some (r * 512)) pp gpa perm overwrite).run s = .ok (.ok (), s') ∧
      (∀ p, p ∉ L → s'.ppRef p = s.ppRef p) ∧
      eptPageAt s' r gpa =
        if ptx gpa = 0 then eptDec (eptLeaf pp perm) else eptPageAt s r gpa) := by
  obtain ⟨hok, hfail⟩ := eptPageInsert_spec pp perm overwrite h hn hx.1 hx.2
  rcases Nat.lt_or_ge L.length (missing dec s.mem r (vpn gpa).path) with hlt | hle
  · obtain ⟨m, hrun, hm⟩ := hfail hlt
    exact .inl ⟨hlt, _, hrun, fun r' gpa' hn' => h.eptTranslate_withMem hm hn', rfl⟩
  obtain ⟨s1, new, L', t₁, t₂, u, rfl, hlen, hg, hp, -, hrun⟩ := hok hle
  have hiff := hg.occupied_iff hn hp.tab₃
  by_cases hocc : Occupied s r gpa ∧ overwrite = false
  · rw [if_pos ⟨hiff.mpr hocc.1, hocc.2⟩] at hrun
    refine .inr (.inl ⟨hle, hocc, s1, hrun, fun r' gpa' hn' => hg.eptTranslate h hn', ?_⟩)
    -- all tables are there, so none was added
    rw [missing_of_occupied hocc.1, List.length_eq_zero_iff] at hlen
    subst hlen
    funext p
    rw [hg.ref, if_neg (List.not_mem_nil)]
  · rw [if_neg fun c => hocc ⟨hiff.mp c.1, c.2⟩] at hrun
    refine .inr (.inr ⟨hle, hocc, _, hrun, fun p hp' => ?_, ?_⟩)
    · rw [Pmap.setWord_ppRef, hg.ref, if_neg fun hnew => hp' (List.mem_append_left _ hnew)]
    · by_cases h0 : ptx gpa = 0
      · have hd : ptx gpa + ptx gpa = ptx gpa := by rw [h0]; rfl
        rw [if_pos h0, hd, eptPageAt_eq (hg.wf.setLeaf hn rfl hp.tab₃ _ _) hn,
          hg.wf.tab_setLeaf hn rfl hp.tab₃ _ _ hn, hp.tab₃, Option.bind_some, Pmap.setWord_self]
      · have hsame := hg.wf.eptTranslate_setLeaf (v := doubled gpa) (w := eptLeaf pp perm) hn
          hp.tab₃ hn fun e => doubled_ne h0 e.2
        rw [if_neg h0, eptPageAt, eptPageAt, ← hg.eptTranslate h hn, ← hsame]
        rfl

/-- `ept_page_insert` returns 0 exactly when the page is mapped at `gpa` afterwards, and a
negative value, with nothing changed, when the entry is in use and may not be overwritten or
there are not enough pages for tables. -/
def InsertReported (F : Layout 512) (s : Pmap) (L : List Nat) (r pp : Nat) (gpa : Word)
    (perm : BitVec 32) (overwrite : Bool) : Prop :=
  ∃ res s', (eptPageInsert (some (r * 512)) pp gpa perm overwrite).run s = .ok (res, s') ∧
    (res = .ok () ↔ eptPageAt s' r gpa = some pp) ∧
    ((Occupied s r gpa ∧ overwrite = false ∨ L.length < missing dec s.mem r (vpn gpa).path) →
      res ≠ .ok () ∧ NoTrace F s s')

/-- There are pages for the tables, and an entry that is in use and kept does not map the page
already, or the entry written is that of `gpa` and maps the page, or another is written and `gpa`
maps the page already. -/
def InsertCond (s : Pmap) (L : List Nat) (r pp : Nat) (gpa : Word) (perm : BitVec 32)
    (overwrite : Bool) : Prop :=
  missing dec s.mem r (vpn gpa).path ≤ L.length ∧
    (Occupied s r gpa ∧ overwrite = false ∧ eptPageAt s r gpa ≠ some pp ∨
      ¬ (Occupied s r gpa ∧ overwrite = false) ∧
        ((if ptx gpa = 0 then eptDec (eptLeaf pp perm) else eptPageAt s r gpa) = some pp))

theorem insertReported_iff (h : Wf F s L) (hn : F.Node r (vpn gpa).path) (hx : InTables gpa) :
    InsertReported F s L r pp gpa perm overwrite ↔ InsertCond s L r pp gpa perm overwrite := by
  unfold InsertReported InsertCond
  obtain ⟨hlt, s', hrun, -⟩ | ⟨hle, hocc, s', hrun, htr⟩ | ⟨hle, hocc, s', hrun, -, hpage⟩ :=
    eptPageInsert_outcome pp perm overwrite h hn hx
  · refine iff_of_false ?_ fun hc => absurd hc.1 (Nat.not_le.mpr hlt)
    rintro ⟨res, s'', hrun', -, hb⟩
    cases hrun.symm.trans hrun'
    exact (hb (.inr hlt)).1 rfl
  · have hsame : eptPageAt s' r gpa = eptPageAt s r gpa := by
      rw [eptPageAt, eptPageAt, htr.1 r gpa hn]
    constructor
    · rintro ⟨res, s'', hrun', ha, -⟩
      cases hrun.symm.trans hrun'
      refine ⟨hle, .inl ⟨hocc.1, hocc.2, fun hp => ?_⟩⟩
      cases ha.mpr (hsame.trans hp)
    · rintro ⟨-, ⟨-, -, hne⟩ | ⟨hno, -⟩⟩
      · refine ⟨_, s', hrun, iff_of_false nofun ?_, fun _ => ⟨nofun, htr⟩⟩
        rwa [hsame]
      · exact absurd hocc hno
  · constructor
    · rintro ⟨res, s'', hrun', ha, -⟩
      cases hrun.symm.trans hrun'
      exact ⟨hle, .inr ⟨hocc, hpage ▸ ha.mp rfl⟩⟩
    · rintro ⟨-, ⟨h1, h2, -⟩ | ⟨-, hp⟩⟩
      · exact absurd ⟨h1, h2⟩ hocc
      · refine ⟨_, s', hrun, iff_of_true rfl (hpage.trans hp), ?_⟩
        rintro (hc | hc)
        · exact absurd hc hocc
        · exact absurd hc (Nat.not_lt.mpr hle)

/-! ### The system call -/

/-- `envid` names the environment `e` for the caller. -/
def Names (k : Kernel) (envid : EnvId) (e : EnvIx) : Prop :=
  (envid2env envid true).run k = .ok (.ok (some e), k)

/-- The arguments of a `sys_ept_map` call pass its checks: `map` is the page at `srcva`, found by
the entry `pte`. -/
structure Passes (k : Kernel) (srcenvid : EnvId) (srcva : Word) (guest : EnvId) (guestPa : Word)
    (perm : BitVec 32) (src g : EnvIx) (map : Nat) (pte : Ptr) : Prop where
  names_src : Names k srcenvid src
  names_guest : Names k guest g
  addrs : ¬ (utop ≤ srcva ∨ pgoff srcva ≠ 0 ∨ pgoff guestPa ≠ 0 ∨
    (k.envs g).envVmxinfo.physSz ≤ guestPa)
  lookup : (pageLookup (k.envs src).envPml4e srcva).run k.pm = .ok (some (map, pte), k.pm)
  permitted : ¬ (perm = 0 ∨ (perm &&& 2#32 ≠ 0 ∧ k.pm.mem pte &&& pteW = 0))

/-- What a call needs of the kernel: there is a current environment, the tables of the source can
be walked, a page mapped there is counted, and the target's table is that of root `r`. -/
structure Callable (k : Kernel) (r : Nat) (srcenvid : EnvId) (srcva : Word) (guest : EnvId) :
    Prop where
  current : k.curenv ≠ none
  walks : ∀ src, Names k srcenvid src → ∃ o,
    (pageLookup (k.envs src).envPml4e srcva).run k.pm = .ok (o, k.pm)
  counted : ∀ src map pte, Names k srcenvid src →
    (pageLookup (k.envs src).envPml4e srcva).run k.pm = .ok (some (map, pte), k.pm) →
    k.pm.ppRef map ≠ 0#16
  target : ∀ g, Names k guest g → (k.envs g).envPml4e = some (r * 512)

variable {srcenvid guest : EnvId} {srcva guestPa : Word} {src g : EnvIx} {map : Nat} {pte : Ptr}

/-- With a current environment, an identifier names one or is refused. -/
theorem names_or_badEnv (hcur : k.curenv ≠ none) (envid : EnvId) :
    (∃ e, Names k envid e) ∨ (envid2env envid true).run k = .ok (.error .badEnv, k) := by
  obtain ⟨cur, hcur⟩ := Option.ne_none_iff_exists'.mp hcur
  unfold Names
  rw [envid2env, bind_get]
  split
  · exact .inl ⟨cur, by rw [hcur]; rfl⟩
  dsimp only
  split
  · exact .inr rfl
  split
  · rw [bind_ok (a := cur) (u := k) (by rw [hcur]; rfl)]
    split
    · exact .inr rfl
    · exact .inl ⟨_, rfl⟩
  · exact .inl ⟨_, rfl⟩

/-- The entry by which a page was found is in memory. -/
theorem load_of_pageLookup {pml4e : Option Ptr} {va : Word}
    (h : (pageLookup pml4e va).run s = .ok (some (map, pte), s')) :
    (load pte).run s = .ok (s.mem pte, s) := by
  obtain ⟨w, s1, hw, h1⟩ := bind_inv h
  obtain rfl := readOnly_pml4eWalk _ _ _ _ _ hw
  cases w with
  | none => cases h1
  | some a =>
    obtain ⟨e, s2, he, h2⟩ := bind_inv h1
    obtain ⟨rfl, rfl⟩ := load_eq_ok he
    split at h2
    · obtain ⟨p, s3, -, h3⟩ := bind_inv h2
      cases h3
      exact he
    · cases h2

/-- The state after the call, once the insertion has returned. -/
def counted (map : Nat) (s : Pmap) : Except Err Unit → Pmap
  | .ok () => s.setRef map (s.ppRef map + 1#16)
  | .error _ => s

/-- A call whose arguments pass the checks inserts the page, and counts it if that worked. -/
theorem sysEptMap_passes {res : Except Err Unit}
    (h : Passes k srcenvid srcva guest guestPa perm src g map pte)
    (hins : (eptPageInsert (k.envs g).envPml4e map guestPa perm false).run k.pm = .ok (res, s')) :
    (sysEptMap srcenvid srcva guest guestPa perm).run k =
      .ok (res, k.withPm (counted map s' res)) := by
  have hmap : (eptMap (k.envs src) (k.envs g) srcva guestPa perm).run k.pm =
      .ok (res, counted map s' res) := by
    rw [eptMap, bind_ok h.lookup]
    dsimp only
    rw [bind_ok (load_of_pageLookup h.lookup), if_neg h.permitted, bind_ok hins]
    cases res with
    | error e => rfl
    | ok u => rfl
  rw [sysEptMap, bind_ok h.names_src]
  dsimp only
  rw [bind_ok h.names_guest]
  dsimp only
  rw [bind_ok (a := g) (u := k) rfl, bind_ok getEnv_run, if_neg h.addrs,
    bind_ok (a := src) (u := k) rfl, bind_ok getEnv_run, onPmap_ok hmap]

/-- A call whose arguments do not pass the checks is refused. -/
theorem sysEptMap_refused (hc : Callable k r srcenvid srcva guest)
    (h : ∀ src g map pte, ¬ Passes k srcenvid srcva guest guestPa perm src g map pte) :
    ∃ e, (sysEptMap srcenvid srcva guest guestPa perm).run k = .ok (.error e, k) := by
  rw [sysEptMap]
  rcases names_or_badEnv hc.current srcenvid with ⟨src, hsrc⟩ | hsrc
  swap
  · exact ⟨.badEnv, by rw [bind_ok hsrc]; rfl⟩
  rcases names_or_badEnv hc.current guest with ⟨g, hg⟩ | hg
  swap
  · refine ⟨.badEnv, ?_⟩
    rw [bind_ok hsrc]
    dsimp only
    rw [bind_ok hg]
    rfl
  rw [bind_ok hsrc]
  dsimp only
  rw [bind_ok hg]
  dsimp only
  rw [bind_ok (a := g) (u := k) rfl, bind_ok getEnv_run]
  split
  · exact ⟨.inval, rfl⟩
  rename_i haddrs
  rw [bind_ok (a := src) (u := k) rfl, bind_ok getEnv_run]
  refine ⟨.inval, ?_⟩
  refine (onPmap_ok (s := k.pm) ?_).trans rfl
  obtain ⟨o, hlook⟩ := hc.walks src hsrc
  rw [eptMap, bind_ok hlook]
  cases o with
  | none => rfl
  | some mp =>
    obtain ⟨map, pte⟩ := mp
    dsimp only
    rw [bind_ok (load_of_pageLookup hlook), if_pos]
    · rfl
    · by_contra hperm
      exact h src g map pte ⟨hsrc, hg, haddrs, hlook, hperm⟩

/-- `sys_ept_map` returns 0 exactly when the page at `srcva` is mapped at `guestPa` afterwards and
its count has grown by one, and otherwise changes neither. -/
def MapReported (F : Layout 512) (k : Kernel) (r : Nat) (srcenvid : EnvId) (srcva : Word)
    (guest : EnvId) (guestPa : Word) (perm : BitVec 32) : Prop :=
  ∃ res k', (sysEptMap srcenvid srcva guest guestPa perm).run k = .ok (res, k') ∧
    (res = .ok () ↔ ∃ src map pte, Names k srcenvid src ∧
      (pageLookup (k.envs src).envPml4e srcva).run k.pm = .ok (some (map, pte), k.pm) ∧
      eptPageAt k'.pm r guestPa = some map ∧
      (k'.pm.ppRef map).toNat = (k.pm.ppRef map).toNat + 1) ∧
    (res ≠ .ok () → NoTrace F k.pm k'.pm)

/-- If the arguments pass the checks, there are pages for the tables, and the entry is in use, or
is the one written, maps the page, and the count does not wrap around. -/
def MapCond (k : Kernel) (L : List Nat) (r : Nat) (srcenvid : EnvId) (srcva : Word)
    (guest : EnvId) (guestPa : Word) (perm : BitVec 32) : Prop :=
  ∀ src g map pte, Passes k srcenvid srcva guest guestPa perm src g map pte →
    missing dec k.pm.mem r (vpn guestPa).path ≤ L.length ∧
      (Occupied k.pm r guestPa ∨ ptx guestPa = 0 ∧ eptDec (eptLeaf map perm) = some map ∧
        (k.pm.ppRef map).toNat < 65535)

/-- The page that a call finds is determined. -/
theorem page_unique {src' : EnvIx} {map' : Nat} {pte' : Ptr} (hs : Names k srcenvid src)
    (hl : (pageLookup (k.envs src).envPml4e srcva).run k.pm = .ok (some (map, pte), k.pm))
    (hs' : Names k srcenvid src')
    (hl' : (pageLookup (k.envs src').envPml4e srcva).run k.pm = .ok (some (map', pte'), k.pm)) :
    map' = map := by
  have e : src' = src := by
    have := hs'.symm.trans hs
    simp only [Except.ok.injEq, Prod.mk.injEq, Option.some.injEq] at this
    exact this.1
  subst e
  have := hl'.symm.trans hl
  simp only [Except.ok.injEq, Prod.mk.injEq, Option.some.injEq] at this
  exact this.1.1

theorem toNat_succ_iff {x : BitVec 16} : (x + 1#16).toNat = x.toNat + 1 ↔ x.toNat < 65535 := by
  have := x.isLt
  rw [BitVec.toNat_add]
  simp only [BitVec.toNat_ofNat]
  omega

theorem mapReported_iff (h : Wf F k.pm L) (hn : F.Node r (vpn guestPa).path)
    (hx : InTables guestPa) (hc : Callable k r srcenvid srcva guest) :
    MapReported F k r srcenvid srcva guest guestPa perm ↔
      MapCond k L r srcenvid srcva guest guestPa perm := by
  by_cases hp : ∃ src g map pte, Passes k srcenvid srcva guest guestPa perm src g map pte
  swap
  · -- the call is refused
    have hno : ∀ src g map pte, ¬ Passes k srcenvid srcva guest guestPa perm src g map pte :=
      fun src g map pte hq => hp ⟨src, g, map, pte, hq⟩
    obtain ⟨e, hrun⟩ := sysEptMap_refused hc hno
    refine iff_of_true ⟨_, k, hrun, iff_of_false nofun ?_, fun _ => ⟨fun _ _ _ => rfl, rfl⟩⟩
      fun src g map pte hq => absurd hq (hno src g map pte)
    rintro ⟨src, map, pte, -, -, -, hgrew⟩
    omega
  obtain ⟨src, g, map, pte, hq⟩ := hp
  have hpml4e := hc.target g hq.names_guest
  have hmapL : map ∉ L := fun hL => hc.counted src map pte hq.names_src hq.lookup (h.ref map hL)
  have hcond : MapCond k L r srcenvid srcva guest guestPa perm ↔
      missing dec k.pm.mem r (vpn guestPa).path ≤ L.length ∧
      (Occupied k.pm r guestPa ∨ ptx guestPa = 0 ∧ eptDec (eptLeaf map perm) = some map ∧
        (k.pm.ppRef map).toNat < 65535) := by
    constructor
    · exact fun hm => hm src g map pte hq
    · intro hm src' g' map' pte' hq'
      rwa [page_unique hq.names_src hq.lookup hq'.names_src hq'.lookup]
  rw [hcond]
  unfold MapReported
  obtain ⟨hlt, s', hrun, htr⟩ | ⟨hle, hocc, s', hrun, htr⟩ | ⟨hle, hocc, s', hrun, href, hpage⟩ :=
    eptPageInsert_outcome map perm false h hn hx
  · -- no pages for the tables: the page is counted and nothing maps it
    refine iff_of_false ?_ fun hm => absurd hm.1 (Nat.not_le.mpr hlt)
    rintro ⟨res, k', hrun', ha, -⟩
    cases (sysEptMap_passes hq (hpml4e ▸ hrun)).symm.trans hrun'
    obtain ⟨-, map', -, -, -, hmapped, -⟩ := ha.mp rfl
    have hfree : ¬ Occupied k.pm r guestPa := fun ho => by
      rw [missing_of_occupied ho] at hlt
      omega
    have hnone : eptPageAt s' r guestPa = none := by
      rw [eptPageAt, htr.1 r guestPa hn]
      exact eptPageAt_of_not_occupied h hn hfree
    cases hnone.symm.trans hmapped
  · -- the entry is in use
    have hrun' := sysEptMap_passes hq (hpml4e ▸ hrun)
    refine iff_of_true ⟨.error .inval, k.withPm s', hrun', iff_of_false nofun ?_, fun _ => htr⟩
      ⟨hle, .inl hocc.1⟩
    rintro ⟨src', map', pte', -, -, -, hgrew⟩
    rw [show (k.withPm s').pm = s' from rfl, htr.2] at hgrew
    omega
  · have hfree : ¬ Occupied k.pm r guestPa := fun ho => hocc ⟨ho, rfl⟩
    have hmapped : eptPageAt s' r guestPa = some map ↔
        ptx guestPa = 0 ∧ eptDec (eptLeaf map perm) = some map := by
      rw [hpage]
      by_cases h0 : ptx guestPa = 0
      · rw [if_pos h0]
        exact ⟨fun hd => ⟨h0, hd⟩, fun hd => hd.2⟩
      · rw [if_neg h0, eptPageAt_of_not_occupied h hn hfree]
        exact iff_of_false nofun fun hd => h0 hd.1
    have hgrew : ((counted map s' (.ok ())).ppRef map).toNat = (k.pm.ppRef map).toNat + 1 ↔
        (k.pm.ppRef map).toNat < 65535 := by
      rw [counted, Pmap.setRef_ppRef, Function.update_self, href map hmapL, toNat_succ_iff]
    have hrun' := sysEptMap_passes hq (hpml4e ▸ hrun)
    constructor
    · rintro ⟨res, k', hrun'', ha, -⟩
      cases hrun'.symm.trans hrun''
      obtain ⟨src', map', pte', hs', hl', hm', hg'⟩ := ha.mp rfl
      obtain rfl := page_unique hq.names_src hq.lookup hs' hl'
      obtain ⟨h0, hd⟩ := hmapped.mp hm'
      exact ⟨hle, .inr ⟨h0, hd, hgrew.mp hg'⟩⟩
    · rintro ⟨-, ho | ⟨h0, hd, hlt⟩⟩
      · exact absurd ho hfree
      · exact ⟨_, _, hrun', iff_of_true rfl ⟨src, map, pte, hq.names_src, hq.lookup,
          hmapped.mpr ⟨h0, hd⟩, hgrew.mpr hlt⟩, fun hne => absurd rfl hne⟩

/-- A machine of eight pages, none of them free; page 7 is a zeroed root. -/
def nonePages : Pmap where
  npages := 8
  npages_le := eight_le_maxNpages
  mem _ := 0
  ppRef _ := 1#16
  ppLink _ := none
  pageFreeList := none

end JosVmm
