import JosVmm.Machine.Words

/-!
# File server — open files

The table `opentab` of `fs/serv.c`.  Each entry has a page for its descriptor, which the server maps
when the entry is handed out for the first time and sends to the client that opens a file; whether
an entry is in use is read off the page's reference count.

A run is a sequence of `serve_open` calls, with whatever the file system answers, and of clients that
map or unmap the pages they hold (`FsRun`); it keeps a list of the entries handed out.  In each
state, an id is found only if it is the one of the last open of its entry, and a client still maps
the page — except that an entry that was never handed out has a count of zero, which
`openfile_lookup` takes for a count above one (`openfileLookup_genuine`, `openfileLookup_unopened`).
-/

namespace JosVmm

open Function
open Function (update_self update_of_ne update_eq_self)

/-- The entries of `opentab`, of which there are `MAXOPEN`. -/
abbrev OpenIx := Fin 1024

/-- `struct OpenFile`.  A null `o_file` is `none`; `o_fd` is set once, to a page of the entry's own. -/
structure OpenFile where
  oFileid : BitVec 32
  oFile : Option Nat
  oMode : BitVec 32

/-- The table; whether the server maps a page at `o_fd`, and how often clients map that page. -/
structure FsServer where
  opentab : OpenIx → OpenFile
  fdMapped : OpenIx → Bool
  clients : OpenIx → Nat

/-- `pageref(opentab[i].o_fd)`; `pp_ref` has 16 bits. -/
def FsServer.pageref (s : FsServer) (i : OpenIx) : Nat :=
  if s.fdMapped i then (s.clients i + 1) % 2 ^ 16 else 0

/-- The table after `serve_init`.  The server of a guest then also maps the descriptor of its disk, at
the `o_fd` of the entry `hostFd`. -/
def serveInit (hostFd : Option OpenIx) : FsServer where
  opentab i := ⟨BitVec.ofNat 32 i, none, if i = 0 then 1 else 0⟩
  fdMapped i := decide (hostFd = some i)
  clients _ := 0

/-- The entry `i` is handed out: with a new page, if there was none, and the next id. -/
def FsServer.handOut (s : FsServer) (i : OpenIx) : FsServer where
  opentab := update s.opentab i
    { s.opentab i with oFileid := (s.opentab i).oFileid + 1024#32 }
  fdMapped := update s.fdMapped i true
  clients := if s.pageref i = 0 then update s.clients i 0 else s.clients

/-- The entry `i` gets its file and mode. -/
def FsServer.install (s : FsServer) (i : OpenIx) (f : Nat) (omode : BitVec 32) : FsServer where
  opentab := update s.opentab i { s.opentab i with oFile := some f, oMode := omode }
  fdMapped := s.fdMapped
  clients := s.clients

/-- `-E_INVAL`, `-E_MAX_OPEN` and `-E_FILE_EXISTS`. -/
def eInval : Int := -3
def eMaxOpen : Int := -11
def eFileExists : Int := -14

/-- `openfile_alloc`, from a list of entries on: what it returns, and the entry.  `pageAlloc` is the
result of `sys_page_alloc`.  In a guest, the entry `hostFd` is passed over. -/
def openfileAlloc (hostFd : Option OpenIx) (pageAlloc : Int) (s : FsServer) :
    List OpenIx → Int × Option OpenIx × FsServer
  | [] => (eMaxOpen, none, s)
  | i :: l =>
    let found := (((s.handOut i).opentab i).oFileid.toInt, some i, s.handOut i)
    match s.pageref i with
    | 0 => if pageAlloc < 0 then (pageAlloc, none, s) else found
    | 1 => if hostFd = some i then openfileAlloc hostFd pageAlloc s l else found
    | _ => openfileAlloc hostFd pageAlloc s l

/-- The entry that a file id names. -/
def fileSlot (fileid : BitVec 32) : OpenIx := Fin.ofNat 1024 fileid.toNat

/-- `openfile_lookup`; it does not look at `envid`. -/
def openfileLookup (s : FsServer) (fileid : BitVec 32) : Except Int OpenIx :=
  let i := fileSlot fileid
  if s.pageref i = 1 ∨ (s.opentab i).oFileid ≠ fileid then .error eInval else .ok i

/-- What the calls that `serve_open` makes return: a file, or an error. -/
structure FsAnswers where
  pageAlloc : Int
  create : Except Int Nat
  opened : Except Int Nat
  setSize : Int

/-- `O_CREAT`, `O_TRUNC` and `O_EXCL`. -/
def oCreat : BitVec 32 := 0x100#32
def oTrunc : BitVec 32 := 0x200#32
def oExcl : BitVec 32 := 0x400#32

/-- The file that is opened or created. -/
def openPath (omode : BitVec 32) (a : FsAnswers) : Except Int Nat :=
  if omode &&& oCreat ≠ 0 then
    match a.create with
    | .ok f => .ok f
    | .error r => if omode &&& oExcl = 0 ∧ r = eFileExists then a.opened else .error r
  else
    a.opened

/-- `serve_open`: what it returns, the entry that was handed out, and the table. -/
def serveOpen (hostFd : Option OpenIx) (omode : BitVec 32) (a : FsAnswers) (s : FsServer) :
    Except Int Unit × Option OpenIx × FsServer :=
  match openfileAlloc hostFd a.pageAlloc s (List.finRange 1024) with
  | (r, none, s) => (.error r, none, s)
  | (r, some i, s) =>
    -- the id is returned as an `int`
    if r < 0 then
      (.error r, some i, s)
    else
      match openPath omode a with
      | .error r => (.error r, some i, s)
      | .ok f =>
        if omode &&& oTrunc ≠ 0 ∧ a.setSize < 0 then
          (.error a.setSize, some i, s)
        else
          (.ok (), some i, s.install i f omode)

/-! ### Runs -/

inductive FsOp where
  /-- A request to open a file; the client maps the page that it is sent if `accepts`. -/
  | openFile (omode : BitVec 32) (answers : FsAnswers) (accepts : Bool)
  /-- The page of the entry is mapped once more, by a client that has it. -/
  | map (i : OpenIx)
  /-- A mapping of it is removed. -/
  | unmap (i : OpenIx)

namespace FsOp

def exec (hostFd : Option OpenIx) (s : FsServer) : FsOp → FsServer
  | openFile omode a accepts =>
    match serveOpen hostFd omode a s with
    | (.ok (), some i, s') =>
      if accepts then { s' with clients := update s'.clients i (s'.clients i + 1) } else s'
    | (_, _, s') => s'
  | map i => { s with clients := update s.clients i (s.clients i + 1) }
  | unmap i => { s with clients := update s.clients i (s.clients i - 1) }

/-- Clients map and unmap what they have. -/
def Enabled (s : FsServer) : FsOp → Prop
  | openFile .. => True
  | map i | unmap i => 0 < s.clients i

/-- The count of a page does not overflow. -/
def Counted (s : FsServer) : FsOp → Prop
  | map i => s.clients i + 2 < 2 ^ 16
  | openFile .. | unmap _ => True

end FsOp

/-- An entry that was handed out, with its new id, and whether `serve_open` returned it. -/
structure OpenEvent where
  slot : OpenIx
  fileid : BitVec 32
  returned : Bool
  deriving DecidableEq

/-- What an operation adds to the list of events. -/
def FsOp.events (hostFd : Option OpenIx) (s : FsServer) : FsOp → List OpenEvent
  | openFile omode a _ =>
    match serveOpen hostFd omode a s with
    | (_, none, _) => []
    | (r, some i, s') => [⟨i, (s'.opentab i).oFileid, r.isOk⟩]
  | map _ | unmap _ => []

/-- Runs from `serve_init` whose operations meet the condition `C`, with their events, newest
first. -/
inductive FsRun (hostFd : Option OpenIx) (C : FsServer → FsOp → Prop) :
    FsServer → List OpenEvent → Prop where
  | start : FsRun hostFd C (serveInit hostFd) []
  | step {s : FsServer} {l : List OpenEvent} (op : FsOp) : FsRun hostFd C s l → op.Enabled s →
      C s op → FsRun hostFd C (op.exec hostFd s) (op.events hostFd s ++ l)

/-- The last event of an entry. -/
def lastOpen (l : List OpenEvent) (i : OpenIx) : Option OpenEvent := l.find? fun v => v.slot = i

/-- **A file id that is found is genuine**: the last open of its entry returned it, some client maps
the page of the entry, and there is a file. -/
def Genuine (s : FsServer) (l : List OpenEvent) (fileid : BitVec 32) : Prop :=
  ∀ i, openfileLookup s fileid = .ok i → lastOpen l i = some ⟨i, fileid, true⟩ ∧
    0 < s.clients i ∧ (s.opentab i).oFile ≠ none

variable {hostFd : Option OpenIx} {s s' : FsServer} {l : List OpenEvent} {i j : OpenIx}
  {fileid : BitVec 32}

/-! ### The invariant -/

/-- The page of an entry is mapped from the first time on that the entry is handed out, and clients
have the page of an entry only if its last open returned it. -/
structure FsInv (s : FsServer) (l : List OpenEvent) : Prop where
  unused : ∀ i, s.fdMapped i = false → (s.opentab i).oFileid = BitVec.ofNat 32 i ∧ s.clients i = 0
  shared : ∀ i, 0 < s.clients i → s.fdMapped i = true ∧ (s.opentab i).oFile ≠ none ∧
    lastOpen l i = some ⟨i, (s.opentab i).oFileid, true⟩
  counted : ∀ i, s.clients i + 1 < 2 ^ 16

theorem FsInv.pageref (h : FsInv s l) (i : OpenIx) :
    s.pageref i = if s.fdMapped i then s.clients i + 1 else 0 := by
  rw [FsServer.pageref, Nat.mod_eq_of_lt (h.counted i)]

theorem FsInv.clients_eq_zero (h : FsInv s l) (hp : s.pageref i ≤ 1) : s.clients i = 0 := by
  rw [h.pageref] at hp
  cases hm : s.fdMapped i with
  | false => exact (h.unused i hm).2
  | true =>
    rw [hm, if_pos rfl] at hp
    omega

/-! ### Opening -/

/-- **`openfile_alloc`** finds nothing, or hands out an entry that no client uses. -/
theorem openfileAlloc_spec (hostFd : Option OpenIx) (pageAlloc : Int) (s : FsServer)
    (l : List OpenIx) : (∃ r, openfileAlloc hostFd pageAlloc s l = (r, none, s)) ∨
      ∃ i, s.pageref i ≤ 1 ∧ openfileAlloc hostFd pageAlloc s l =
        (((s.handOut i).opentab i).oFileid.toInt, some i, s.handOut i) := by
  induction l with
  | nil => exact .inl ⟨_, rfl⟩
  | cons i l ih =>
    rw [openfileAlloc]
    split
    · rename_i h0
      split
      · exact .inl ⟨_, rfl⟩
      · exact .inr ⟨i, by omega, rfl⟩
    · rename_i h1
      split
      · exact ih
      · exact .inr ⟨i, by omega, rfl⟩
    · exact ih

/-- **`serve_open`** keeps the table, or hands out an entry and, if it succeeds, installs a file. -/
theorem serveOpen_spec (hostFd : Option OpenIx) (omode : BitVec 32) (a : FsAnswers) (s : FsServer) :
    (∃ r, serveOpen hostFd omode a s = (.error r, none, s)) ∨ ∃ i, s.pageref i ≤ 1 ∧
      ((∃ r, serveOpen hostFd omode a s = (.error r, some i, s.handOut i)) ∨
        ∃ f, serveOpen hostFd omode a s = (.ok (), some i, (s.handOut i).install i f omode)) := by
  have halloc := openfileAlloc_spec hostFd a.pageAlloc s (List.finRange 1024)
  unfold serveOpen
  generalize openfileAlloc hostFd a.pageAlloc s (List.finRange 1024) = x at halloc ⊢
  obtain ⟨r, rfl⟩ | ⟨i, hi, rfl⟩ := halloc
  · exact .inl ⟨r, rfl⟩
  · refine .inr ⟨i, hi, ?_⟩
    dsimp only
    split
    · exact .inl ⟨_, rfl⟩
    split
    · exact .inl ⟨_, rfl⟩
    split
    · exact .inl ⟨_, rfl⟩
    · exact .inr ⟨_, rfl⟩

theorem FsInv.handOut_clients (h : FsInv s l) (hp : s.pageref i ≤ 1) :
    (s.handOut i).clients = s.clients := by
  rw [FsServer.handOut]
  dsimp only
  split
  · rw [← h.clients_eq_zero hp, update_eq_self]
  · rfl

theorem lastOpen_cons_self (v : OpenEvent) : lastOpen (v :: l) v.slot = some v :=
  List.find?_cons_of_pos (by simp)

theorem lastOpen_cons_ne {v : OpenEvent} (h : i ≠ v.slot) : lastOpen (v :: l) i = lastOpen l i :=
  List.find?_cons_of_neg (by simpa using h.symm)

/-- **An entry that no client uses is replaced**, and has a client afterwards only if it has a file
and its open returned the id. -/
theorem FsInv.replace (h : FsInv s l) {returned : Bool} (hp : s.pageref i ≤ 1)
    (htab : ∀ j, j ≠ i → s'.opentab j = s.opentab j) (hmap : s'.fdMapped = update s.fdMapped i true)
    (hcl : ∀ j, j ≠ i → s'.clients j = s.clients j)
    (hone : s'.clients i = 0 ∨ s'.clients i = 1 ∧ (s'.opentab i).oFile ≠ none ∧ returned = true) :
    FsInv s' (⟨i, (s'.opentab i).oFileid, returned⟩ :: l) := by
  refine ⟨fun j hj => ?_, fun j hj => ?_, fun j => ?_⟩
  · have hne : j ≠ i := by
      rintro rfl
      rw [hmap, update_self] at hj
      cases hj
    rw [hmap, update_of_ne hne] at hj
    rw [htab j hne, hcl j hne]
    exact h.unused j hj
  · by_cases hne : j = i
    · subst hne
      obtain h0 | ⟨-, hfile, rfl⟩ := hone
      · omega
      · rw [hmap, update_self]
        exact ⟨rfl, hfile, lastOpen_cons_self _⟩
    · rw [hcl j hne] at hj
      rw [hmap, update_of_ne hne, htab j hne, lastOpen_cons_ne hne]
      exact h.shared j hj
  · by_cases hne : j = i
    · subst hne
      obtain h0 | ⟨h1, -, -⟩ := hone <;> omega
    · rw [hcl j hne]
      exact h.counted j

theorem FsInv.openFile (h : FsInv s l) (omode : BitVec 32) (a : FsAnswers) (accepts : Bool) :
    FsInv ((FsOp.openFile omode a accepts).exec hostFd s)
      ((FsOp.openFile omode a accepts).events hostFd s ++ l) := by
  unfold FsOp.exec FsOp.events
  dsimp only
  obtain ⟨r, hs⟩ | ⟨i, hp, ⟨r, hs⟩ | ⟨f, hs⟩⟩ := serveOpen_spec hostFd omode a s
  · rw [hs]
    exact h
  · rw [hs]
    dsimp only
    refine h.replace hp (fun j hj => update_of_ne hj ..) rfl (fun j _ => ?_) (.inl ?_)
    · rw [h.handOut_clients hp]
    · rw [h.handOut_clients hp, h.clients_eq_zero hp]
  · rw [hs]
    dsimp only
    have htab : ∀ j, j ≠ i → ((s.handOut i).install i f omode).opentab j = s.opentab j :=
      fun j hj => (update_of_ne hj ..).trans (update_of_ne hj ..)
    have hcl : ((s.handOut i).install i f omode).clients = s.clients := by
      rw [FsServer.install, h.handOut_clients hp]
    have hfile : (((s.handOut i).install i f omode).opentab i).oFile ≠ none := by
      simp [FsServer.install]
    cases accepts with
    | false =>
      refine h.replace hp htab rfl (fun j _ => ?_) (.inl ?_)
      · rw [if_neg Bool.false_ne_true, hcl]
      · rw [if_neg Bool.false_ne_true, hcl, h.clients_eq_zero hp]
    | true =>
      refine h.replace hp htab rfl (fun j hj => ?_) (.inr ⟨?_, hfile, rfl⟩)
      · rw [if_pos rfl, hcl]
        exact update_of_ne hj ..
      · rw [if_pos rfl, hcl, h.clients_eq_zero hp]
        exact update_self ..

/-! ### Runs -/

/-- **Clients that have a page** may have more or fewer mappings of it. -/
theorem FsInv.remap (h : FsInv s l) {n : Nat} (hi : 0 < s.clients i) (hn : n + 1 < 2 ^ 16) :
    FsInv { s with clients := update s.clients i n } l := by
  refine ⟨fun j hj => ?_, fun j hj => h.shared j ?_, fun j => ?_⟩
  · have hne : j ≠ i := by
      rintro rfl
      exact absurd ((h.shared j hi).1.symm.trans hj) nofun
    exact ⟨(h.unused j hj).1, (update_of_ne hne ..).trans (h.unused j hj).2⟩
  · by_cases hne : j = i
    · exact hne ▸ hi
    · exact (update_of_ne hne n s.clients) ▸ hj
  · dsimp only
    by_cases hne : j = i
    · rw [hne, update_self]
      exact hn
    · rw [update_of_ne hne]
      exact h.counted j

theorem FsRun.inv (hr : FsRun hostFd (fun s op => op.Counted s) s l) : FsInv s l := by
  induction hr with
  | start =>
    exact ⟨fun _ _ => ⟨rfl, rfl⟩, fun _ h => absurd h (Nat.lt_irrefl 0),
      fun _ => Nat.one_lt_two_pow (by decide)⟩
  | step op _ hen hC ih =>
    cases op with
    | openFile omode a accepts => exact ih.openFile omode a accepts
    | map i =>
      have hlt := hC
      rw [FsOp.Counted] at hlt
      exact ih.remap hen (by omega)
    | unmap i =>
      have hlt := ih.counted i
      exact ih.remap hen (by omega)

/-! ### Lookups -/

/-- An entry that was never handed out is found under its number. -/
theorem FsInv.lookup_unused (h : FsInv s l) (hp : s.pageref (fileSlot fileid) = 0)
    (hid : fileid.toNat < 1024) : openfileLookup s fileid = .ok (fileSlot fileid) := by
  have hm : s.fdMapped (fileSlot fileid) = false := by
    rw [h.pageref] at hp
    cases hm : s.fdMapped (fileSlot fileid) with
    | false => rfl
    | true =>
      rw [hm, if_pos rfl] at hp
      cases hp
  have hslot : BitVec.ofNat 32 (fileSlot fileid) = fileid := by
    rw [fileSlot, Fin.val_ofNat, Nat.mod_eq_of_lt hid, BitVec.ofNat_toNat, BitVec.setWidth_eq]
  rw [openfileLookup, if_neg]
  rw [hp, (h.unused _ hm).1, hslot]
  simp

/-- **File ids cannot be forged, except those of entries that were never opened.**  In every run in
which no page is mapped `2 ^ 16` times, the ids that are found are genuine, if and only if they do not
name an entry whose page has no mapping at all. -/
theorem openfileLookup_genuine (hr : FsRun hostFd (fun s op => op.Counted s) s l)
    (fileid : BitVec 32) :
    Genuine s l fileid ↔ 1024 ≤ fileid.toNat ∨ s.pageref (fileSlot fileid) ≠ 0 := by
  have h := hr.inv
  constructor
  · intro hg
    by_contra hc
    obtain ⟨hid, hp⟩ := not_or.mp hc
    have hp := not_not.mp hp
    obtain ⟨-, hcl, -⟩ := hg _ (h.lookup_unused hp (by omega))
    have := h.clients_eq_zero (i := fileSlot fileid) (by omega)
    omega
  · intro hc i hi
    rw [openfileLookup] at hi
    split at hi
    · cases hi
    rename_i hfound
    cases hi
    obtain ⟨hone, hid⟩ := not_or.mp hfound
    have hid := not_not.mp hid
    -- a count of zero would mean that the entry has its first id, its number
    have hp : s.pageref (fileSlot fileid) ≠ 0 := by
      rcases hc with hc | hc
      · intro hp
        rw [h.pageref] at hp
        cases hm : s.fdMapped (fileSlot fileid) with
        | true =>
          rw [hm, if_pos rfl] at hp
          cases hp
        | false =>
          have hval := congrArg BitVec.toNat ((h.unused _ hm).1.symm.trans hid)
          rw [BitVec.toNat_ofNat, Nat.mod_eq_of_lt (by omega)] at hval
          omega
      · exact hc
    have hcl : 0 < s.clients (fileSlot fileid) := by
      rw [h.pageref] at hp hone
      split at hp
      · rename_i hm
        rw [if_pos hm] at hone
        omega
      · exact absurd rfl hp
    obtain ⟨-, hfile, hlast⟩ := h.shared _ hcl
    rw [hid] at hlast
    exact ⟨hlast, hcl, hfile⟩

/-- A file is opened, and its id is found. -/
theorem openfileLookup_genuine_first : ∃ s l, FsRun none (fun s op => op.Counted s) s l ∧
    (openfileLookup s 1024#32).toOption = some 0 ∧ Genuine s l 1024#32 := by
  have hr : FsRun none (fun s op => op.Counted s) _ _ :=
    .step (.openFile 0 ⟨0, .error 0, .ok 7, 0⟩ true) .start trivial trivial
  exact ⟨_, _, hr, by decide +kernel, (openfileLookup_genuine hr _).mpr (.inl (by decide))⟩

/-- **The id 0 is found before any file is opened**, and there is no file. -/
theorem openfileLookup_unopened : FsRun none (fun s op => op.Counted s) (serveInit none) [] ∧
    openfileLookup (serveInit none) 0 = .ok 0 ∧ ((serveInit none).opentab 0).oFile = none ∧
    ¬ Genuine (serveInit none) [] 0 := by
  refine ⟨.start, rfl, rfl, fun h => ?_⟩
  exact absurd (h 0 rfl).1 nofun

end JosVmm
