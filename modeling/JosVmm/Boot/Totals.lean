import JosVmm.Machine.Multiboot

/-!
# Boot — what `multiboot_read` adds up

A list of regions determines two totals: the regions are sorted by address, neighbours of one type
are merged, of overlapping ones both get the stricter type, and the lengths of the usable ones are
added up (`mapTotals`).  `multiboot_read` works on an array of entries in memory and on an array of
pointers to them; `multibootRead_totals` says that it arrives at these totals for every map, in
whatever order, if it ends at all: an entry that has to move although it comes last takes the
array of pointers beyond its end.
-/

namespace JosVmm
open Support Support.Prog Function List

/-! ### Totals of a list of regions -/

/-- A region of a type that is not known is reserved. -/
def MemoryMap.known (e : MemoryMap) : MemoryMap :=
  if 5#32 < e.type ∨ e.type < 1#32 then { e with type := mbTypeReserved } else e

/-- `x` before the first element that satisfies `p`. -/
def insertBefore {α : Type} (p : α → Bool) (x : α) : List α → List α
  | [] => [x]
  | y :: l => if p y then x :: y :: l else y :: insertBefore p x l

/-- The regions in the order of their addresses. -/
def sortMap (es : List MemoryMap) : List MemoryMap :=
  es.foldl (fun l e => insertBefore (fun t => decide (e.addr < t.addr)) e.known l) []

/-- Two neighbours of one type. -/
def MemoryMap.merge (p t : MemoryMap) : MemoryMap := { t with
  lengthLow := ((p.len.setWidth 32).setWidth 64 + t.len : Word).setWidth 32
  lengthHigh := ((p.len + t.len) >>> 32).setWidth 32
  baseAddrLow := p.baseAddrLow
  baseAddrHigh := p.baseAddrHigh }

/-- The regions after `p`, and `p`; `none` has been merged into the next one. -/
def sanitizeFrom : MemoryMap → List MemoryMap → List (Option MemoryMap)
  | p, [] => [some p]
  | p, t :: l =>
    if p.addr + p.len = t.addr ∧ p.type = t.type then
      none :: sanitizeFrom (p.merge t) l
    else if t.addr < p.addr + p.len then
      some { p with type := restrictiveType p.type t.type } ::
        sanitizeFrom { t with type := restrictiveType p.type t.type } l
    else
      some p :: sanitizeFrom t l

def sanitize : List MemoryMap → List (Option MemoryMap)
  | [] => []
  | p :: l => sanitizeFrom p l

/-- The share of a region in `*basemem` and `*extmem`. -/
def MemoryMap.base (e : MemoryMap) : Word :=
  if (e.type = mbTypeUsable ∨ e.type = mbTypeAcpiReclm) ∧
    (e.baseAddrLow < 0x100000#32 ∧ e.baseAddrHigh = 0) then e.len else 0

def MemoryMap.ext (e : MemoryMap) : Word :=
  if (e.type = mbTypeUsable ∨ e.type = mbTypeAcpiReclm) ∧
    ¬ (e.baseAddrLow < 0x100000#32 ∧ e.baseAddrHigh = 0) then e.len else 0

/-- The bytes of base and of extended memory that a list of regions gives. -/
def mapTotals (es : List MemoryMap) : Word × Word :=
  let l := (sanitize (sortMap es)).filterMap id
  ((l.map MemoryMap.base).sum, (l.map MemoryMap.ext).sum)

theorem insertBefore_map {α β : Type} (f : α → β) (p : β → Bool) (x : α) (l : List α) :
    (insertBefore (fun a => p (f a)) x l).map f = insertBefore p (f x) (l.map f) := by
  induction l with
  | nil => rfl
  | cons y l ih =>
    simp only [insertBefore, map_cons]
    split
    · rfl
    · rw [map_cons, ih]

theorem insertBefore_perm {α : Type} (p : α → Bool) (x : α) (l : List α) :
    (insertBefore p x l).Perm (x :: l) := by
  induction l with
  | nil => exact .refl _
  | cons y l ih =>
    rw [insertBefore]
    split
    · exact .refl _
    · exact (ih.cons y).trans (.swap x y l)

/-- The place where an element is inserted. -/
theorem insertBefore_eq {α : Type} {p : α → Bool} {x : α} {l : List α} {j : Nat}
    (hbefore : ∀ t y, t < j → l[t]? = some y → p y = false)
    (hat : j = l.length ∨ ∃ y, l[j]? = some y ∧ p y = true) :
    insertBefore p x l = l.insertIdx j x := by
  induction l generalizing j with
  | nil =>
    obtain rfl | ⟨y, hy, -⟩ := hat
    · rfl
    · cases hy
  | cons z l ih =>
    rw [insertBefore]
    cases j with
    | zero =>
      obtain h | ⟨y, hy, hp⟩ := hat
      · cases h
      · obtain rfl := Option.some.inj hy
        rw [if_pos hp]
        rfl
    | succ j =>
      have hrest : insertBefore p x l = l.insertIdx j x := by
        refine ih (fun t y ht hy => hbefore (t + 1) y (Nat.succ_lt_succ ht) hy) ?_
        obtain h | h := hat
        · exact .inl (Nat.succ.inj h)
        · exact .inr h
      rw [hbefore 0 z (Nat.succ_pos j) rfl, if_neg Bool.false_ne_true, hrest]
      rfl

/-! ### Entries in memory -/

section memory

variable {m : Bytes} {a b : Nat} {v : BitVec 32}

/-- Two entries do not overlap. -/
def MapApart (a b : Nat) : Prop := a + 24 ≤ b ∨ b + 24 ≤ a

theorem loadMap_store_apart (h : MapApart a b) {off : Nat} (hoff : off ≤ 20) :
    loadMap (store32 m (a + off) v) b = loadMap m b := by
  rw [MapApart] at h
  simp only [loadMap]
  rw [load32_store32_apart (by omega), load32_store32_apart (by omega),
    load32_store32_apart (by omega), load32_store32_apart (by omega),
    load32_store32_apart (by omega), load32_store32_apart (by omega)]

/-- A field of an entry is stored. -/
theorem loadMap_store_self (m : Bytes) (a : Nat) (v : BitVec 32) :
    loadMap (store32 m (a + 4) v) a = { loadMap m a with baseAddrLow := v } ∧
    loadMap (store32 m (a + 8) v) a = { loadMap m a with baseAddrHigh := v } ∧
    loadMap (store32 m (a + 12) v) a = { loadMap m a with lengthLow := v } ∧
    loadMap (store32 m (a + 16) v) a = { loadMap m a with lengthHigh := v } ∧
    loadMap (store32 m (a + 20) v) a = { loadMap m a with type := v } := by
  simp only [loadMap]
  refine ⟨?_, ?_, ?_, ?_, ?_⟩ <;>
    rw [load32_store32_self, load32_store32_apart (by omega), load32_store32_apart (by omega),
      load32_store32_apart (by omega), load32_store32_apart (by omega),
      load32_store32_apart (by omega)]

end memory

/-! ### The array of pointers -/

section loops

variable {b₀ b : Boot} {mbinfo n i a : Nat} {P : Boot → Prop}

theorem getMap_run : (getMap a).run b = .ok (loadMap b.mem a, b) := rfl

theorem readMmap_run (h : i < b.mmapSize) : (readMmap i).run b = .ok (b.mmapList i, b) := by
  rw [readMmap, bind_get, if_pos h]
  rfl

theorem writeMmap_run (h : i < b.mmapSize) :
    (writeMmap i a).run b = .ok ((), { b with mmapList := update b.mmapList i a }) := by
  rw [writeMmap, bind_get, if_pos h]
  rfl

theorem readMmap_ensures : Ensures P (readMmap i) fun a b => a = b.mmapList i ∧ P b :=
  fun b _ _ h hrun => by
    rw [readMmap, bind_get] at hrun
    split at hrun
    · cases hrun
      exact ⟨rfl, h⟩
    · cases hrun

theorem writeMmap_ensures {Q : Boot → Prop}
    (h : ∀ b, P b → Q { b with mmapList := update b.mmapList i a }) :
    Ensures P (writeMmap i a) fun _ => Q := fun b _ _ hb hrun => by
  rw [writeMmap, bind_get] at hrun
  split at hrun
  · cases hrun
    exact h b hb
  · cases hrun

theorem getMap_ensures : Ensures P (getMap a) fun e b => e = loadMap b.mem a ∧ P b :=
  fun b _ _ h hrun => by
    cases hrun
    exact ⟨rfl, h⟩

/-- The elements between `j` and `i` have moved up by one. -/
def shiftUp (f : Nat → Nat) (j i : Nat) : Nat → Nat := fun t => if j < t ∧ t ≤ i then f (t - 1) else f t

theorem shiftUp_self (f : Nat → Nat) (j : Nat) : shiftUp f j j = f := by
  funext t
  exact if_neg (by omega)

theorem shiftUp_succ (f : Nat → Nat) (j k : Nat) :
    shiftUp (update f (j + k + 1) (f (j + k))) j (j + k) = shiftUp f j (j + (k + 1)) := by
  funext t
  rw [shiftUp, shiftUp]
  by_cases h1 : j < t ∧ t ≤ j + k
  · rw [if_pos h1, if_pos (by omega), update_of_ne (by omega)]
  · rw [if_neg h1]
    by_cases h2 : t = j + k + 1
    · rw [h2, update_self, if_pos (by omega)]
      rfl
    · rw [update_of_ne h2, if_neg (by omega)]

theorem shiftMmap_ensures (j : Nat) : ∀ (k : Nat) (b₀ : Boot), Ensures (· = b₀) (shiftMmap j k)
    fun _ b => b = { b₀ with mmapList := shiftUp b₀.mmapList j (j + k) }
  | 0, b₀ => .pure fun b hb => by
    rw [hb, Nat.add_zero, shiftUp_self]
  | k + 1, b₀ => by
    refine .bind readMmap_ensures fun a => ?_
    refine .bind (R := fun _ b => b = { b₀ with
      mmapList := update b₀.mmapList (j + k + 1) (b₀.mmapList (j + k)) })
      (writeMmap_ensures fun b hb => ?_) fun _ => ?_
    · obtain ⟨rfl, rfl⟩ := hb
      rfl
    · intro b u b' hb hrun
      rw [shiftMmap_ensures j k b rfl hrun, hb]
      rw [shiftUp_succ]

/-- The place of an entry: before the first one with a higher address, if there is one. -/
theorem placeMmap_ensures (addr : Word) (i : Nat) (b₀ : Boot) : ∀ k ≤ i,
    Ensures (· = b₀) (placeMmap addr i k) fun j b => j ≤ i ∧
      (∀ t, i - k ≤ t → t < j → ¬ addr < (loadMap b₀.mem (b₀.mmapList t)).addr) ∧
      (j = i ∧ b = b₀ ∨ j < i ∧ addr < (loadMap b₀.mem (b₀.mmapList j)).addr ∧
        b = { b₀ with mmapList := shiftUp b₀.mmapList j (i + 1) })
  | 0, _ => .pure fun b hb => ⟨Nat.le_refl i, fun t h1 h2 => absurd h1 (by omega), .inl ⟨rfl, hb⟩⟩
  | k + 1, hk => by
    refine .bind readMmap_ensures fun a => .bind getMap_ensures fun e => ?_
    intro b u b' hb hrun
    obtain ⟨he, ha, rfl⟩ := hb
    split at hrun
    · rename_i hlt
      obtain ⟨_, b1, h1, h2⟩ := bind_inv hrun
      cases h2
      have hs := shiftMmap_ensures (i - (k + 1)) (i + 1 - (i - (k + 1))) b rfl h1
      rw [show i - (k + 1) + (i + 1 - (i - (k + 1))) = i + 1 by omega] at hs
      refine ⟨by omega, fun t h1 h2 => absurd h1 (by omega), .inr ⟨by omega, ?_, hs⟩⟩
      rw [← ha, ← he]
      exact hlt
    · rename_i hlt
      obtain ⟨hj, hbefore, hplace⟩ := placeMmap_ensures addr i b k (by omega) rfl hrun
      refine ⟨hj, fun t h1 h2 => ?_, hplace⟩
      by_cases ht : t = i - (k + 1)
      · rw [ht, ← ha, ← he]
        exact hlt
      · exact hbefore t (by omega) h2

/-- An entry at `a` does not overlap `mbinfo->mmap_length`. -/
def Beside (mbinfo a : Nat) : Prop := a + 24 ≤ mbinfo + 44 ∨ mbinfo + 48 ≤ a

instance (mbinfo a : Nat) : Decidable (Beside mbinfo a) := inferInstanceAs (Decidable (_ ∨ _))

/-- `mmap_list` holds the pointers `ps`, of which `none` is null, to entries that do not overlap. -/
structure Table (mbinfo : Nat) (ps : List (Option Nat)) (b : Boot) : Prop where
  list : ∀ t x, ps[t]? = some x → b.mmapList t = x.getD 0
  apart : (ps.filterMap id).Pairwise MapApart
  valid : ∀ a, some a ∈ ps → a ≠ 0 ∧ Beside mbinfo a

/-- What the pointers point to. -/
def contents (m : Bytes) (ps : List (Option Nat)) : List (Option MemoryMap) :=
  ps.map (Option.map (loadMap m))

/-- The loops do not change the number of entries, and the first two not the totals. -/
structure Steady (mbinfo n : Nat) (b₀ b : Boot) : Prop where
  count : mmapCount b.mem mbinfo = n
  size : b.mmapSize = n
  basemem : b.basemem = b₀.basemem
  extmem : b.extmem = b₀.extmem

/-- Of the map, only the entry at `a` has changed. -/
structure Touched (mbinfo a : Nat) (m m' : Bytes) : Prop where
  others : ∀ p, MapApart a p → loadMap m' p = loadMap m p
  count : mmapCount m' mbinfo = mmapCount m mbinfo

theorem Touched.store {off : Nat} (m : Bytes) (v : BitVec 32) (h : Beside mbinfo a)
    (hoff : off ≤ 20) : Touched mbinfo a m (store32 m (a + off) v) where
  others _ hp := loadMap_store_apart hp hoff
  count := by
    rw [Beside] at h
    rw [mmapCount, load32_store32_apart (by omega), mmapCount]

theorem Touched.trans {m₁ m₂ m3 : Bytes} (h : Touched mbinfo a m₁ m₂)
    (h' : Touched mbinfo a m₂ m3) : Touched mbinfo a m₁ m3 :=
  ⟨fun p hp => (h'.others p hp).trans (h.others p hp), h'.count.trans h.count⟩

theorem Touched.contents {m m' : Bytes} {ps : List (Option Nat)} (h : Touched mbinfo a m m')
    (hps : ∀ p, some p ∈ ps → MapApart a p) : contents m' ps = contents m ps := by
  refine map_congr_left fun x hx => ?_
  cases x with
  | none => rfl
  | some p => exact congrArg some (h.others p (hps p hx))

theorem Steady.touched {m' : Bytes} {f : Nat → Nat} (h : Steady mbinfo n b₀ b)
    (ht : Touched mbinfo a b.mem m') : Steady mbinfo n b₀ { b with mem := m', mmapList := f } :=
  ⟨ht.count.trans h.count, h.size, h.basemem, h.extmem⟩

theorem MapApart.symm {b : Nat} (h : MapApart a b) : MapApart b a := Or.symm h

/-- **A loop over the entries.** -/
theorem forMmap_ensures (start : Nat) {body : Nat → Bm Unit} {I : Nat → Boot → Prop}
    (hI : ∀ i b, I i b → mmapCount b.mem mbinfo = n ∧ b.mmapSize = n) (hle : start ≤ n)
    (hbody : ∀ i, start ≤ i → i < n → Ensures (I i) (body i) fun _ => I (i + 1)) :
    Ensures (I start) (forMmap mbinfo start body) fun _ => I n := by
  intro b u b' hb hrun
  rw [forMmap, bind_get, (hI _ _ hb).2] at hrun
  have hround : ∀ i, start ≤ i → i < start + (n + 1 - start) →
      Ensures (fun b => I (min i n) b) (do if i < mmapCount (← get).mem mbinfo then body i : Bm Unit)
        fun _ b => I (min (i + 1) n) b := by
    intro i h1 h2 b u b' hb hrun
    rw [bind_get, (hI _ _ hb).1] at hrun
    by_cases hi : i < n
    · rw [Nat.min_eq_left (by omega)] at hb ⊢
      rw [if_pos hi] at hrun
      exact hbody i h1 hi hb hrun
    · rw [Nat.min_eq_right (by omega)] at hb ⊢
      rw [if_neg hi] at hrun
      cases hrun
      exact hb
  have h := Ensures.forM_range' start (n + 1 - start) hround
    (show I (min start n) b by rwa [Nat.min_eq_left hle]) hrun
  rwa [Nat.min_eq_right (by omega)] at h

/-- The same, if every round succeeds. -/
theorem forMmap_run (start : Nat) {body : Nat → Bm Unit} {I : Nat → Boot → Prop}
    (hI : ∀ i b, I i b → mmapCount b.mem mbinfo = n ∧ n ≤ b.mmapSize) (hle : start ≤ n)
    (hbody : ∀ i b, start ≤ i → i < n → I i b →
      ∃ b', (body i).run b = .ok ((), b') ∧ I (i + 1) b') (h : I start b) :
    ∃ b', (forMmap mbinfo start body).run b = .ok ((), b') ∧ I n b' := by
  have hn := (hI _ _ h).2
  have hround : ∀ i b, start ≤ i → I (min i n) b → ∃ b',
      (do if i < mmapCount (← get).mem mbinfo then body i : Bm Unit).run b = .ok ((), b') ∧
        I (min (i + 1) n) b' := by
    intro i b h1 hb
    rw [bind_get, (hI _ _ hb).1]
    by_cases hi : i < n
    · rw [Nat.min_eq_left (by omega)] at hb
      rw [if_pos hi, Nat.min_eq_left (by omega)]
      exact hbody i b h1 hi hb
    · rw [Nat.min_eq_right (by omega)] at hb
      rw [if_neg hi, Nat.min_eq_right (by omega)]
      exact ⟨b, rfl, hb⟩
  obtain ⟨b', hrun, hb'⟩ := forM_range'_run (n := b.mmapSize + 1 - start) (s := b)
    (fun i b h1 _ hb => hround i b h1 hb) (by rwa [Nat.min_eq_left hle])
  exact ⟨b', hrun, by rwa [Nat.min_eq_right (by omega)] at hb'⟩

end loops

/-! ### The first loop -/

/-- Entry `i` of the map. -/
def mmapEntry (m : Bytes) (mbinfo i : Nat) : MemoryMap :=
  loadMap m ((mmapAddr m mbinfo).toNat + 24 * i)

/-- The entries of the map. -/
def mapEntries (m : Bytes) (mbinfo : Nat) : List MemoryMap :=
  (List.range (mmapCount m mbinfo)).map (mmapEntry m mbinfo)

/-- The map has a place in memory, beside the structure that points to it. -/
structure Placed (m : Bytes) (mbinfo : Nat) : Prop where
  addr : (mmapAddr m mbinfo).toNat ≠ 0
  beside : ∀ i < mmapCount m mbinfo, Beside mbinfo ((mmapAddr m mbinfo).toNat + 24 * i)

section sorting

variable {m : Bytes} {mbinfo i : Nat} {b₀ b : Boot}

/-- The first `i` entries of the map in `m` are sorted, and the others are as they were. -/
structure Sorting (m : Bytes) (mbinfo : Nat) (b₀ : Boot) (i : Nat) (b : Boot) : Prop where
  steady : Steady mbinfo (mmapCount m mbinfo) b₀ b
  sorted : ∃ ps : List Nat, (∀ t a, ps[t]? = some a → b.mmapList t = a) ∧
    ps.Perm ((List.range i).map ((mmapAddr m mbinfo).toNat + 24 * ·)) ∧
    ps.map (loadMap b.mem) = sortMap ((mapEntries m mbinfo).take i)
  rest : ∀ j, i ≤ j → j < mmapCount m mbinfo →
    loadMap b.mem ((mmapAddr m mbinfo).toNat + 24 * j) = mmapEntry m mbinfo j

/-- The first `i` entries of the map in the order of their addresses; entries at the same address
stay in their order. -/
def mapOrder (m : Bytes) (mbinfo : Nat) : Nat → List Nat
  | 0 => []
  | i + 1 => insertBefore
      (fun j => decide ((mmapEntry m mbinfo i).addr < (mmapEntry m mbinfo j).addr)) i
      (mapOrder m mbinfo i)

/-- The first `i` entries of the map in `m` have been inserted, and the others are as they were. -/
structure Inserted (m : Bytes) (mbinfo : Nat) (b₀ : Boot) (i : Nat) (b : Boot) : Prop where
  count : mmapCount b.mem mbinfo = mmapCount m mbinfo
  size : b.mmapSize = b₀.mmapSize
  basemem : b.basemem = b₀.basemem
  extmem : b.extmem = b₀.extmem
  list : ∀ t j, (mapOrder m mbinfo i)[t]? = some j →
    b.mmapList t = (mmapAddr m mbinfo).toNat + 24 * j
  done : ∀ j < i, loadMap b.mem ((mmapAddr m mbinfo).toNat + 24 * j) = (mmapEntry m mbinfo j).known
  rest : ∀ j, i ≤ j → j < mmapCount m mbinfo →
    loadMap b.mem ((mmapAddr m mbinfo).toNat + 24 * j) = mmapEntry m mbinfo j

theorem apart_entries {A j k : Nat} (h : j ≠ k) : MapApart (A + 24 * j) (A + 24 * k) := by
  rw [MapApart]
  omega

theorem take_mapEntries (hi : i < mmapCount m mbinfo) :
    (mapEntries m mbinfo).take (i + 1) = (mapEntries m mbinfo).take i ++ [mmapEntry m mbinfo i] := by
  have hget : (mapEntries m mbinfo)[i]? = some (mmapEntry m mbinfo i) := by
    rw [mapEntries, getElem?_map, getElem?_range hi]
    rfl
  rw [take_add_one, hget]
  rfl

theorem sortMap_append (es : List MemoryMap) (e : MemoryMap) : sortMap (es ++ [e]) =
    insertBefore (fun t => decide (e.addr < t.addr)) e.known (sortMap es) := by
  rw [sortMap, foldl_append]
  rfl

theorem MemoryMap.known_addr (e : MemoryMap) : e.known.addr = e.addr := by
  rw [known]
  split <;> rfl

theorem mapOrder_perm (m : Bytes) (mbinfo i : Nat) : (mapOrder m mbinfo i).Perm (List.range i) := by
  induction i with
  | zero => exact .refl _
  | succ i ih =>
    rw [mapOrder, range_succ]
    refine (insertBefore_perm _ i _).trans ?_
    exact (ih.cons i).trans (perm_append_singleton i _).symm

theorem mem_mapOrder {j : Nat} : j ∈ mapOrder m mbinfo i ↔ j < i := by
  rw [(mapOrder_perm m mbinfo i).mem_iff, mem_range]

theorem mapOrder_length (m : Bytes) (mbinfo i : Nat) : (mapOrder m mbinfo i).length = i := by
  rw [(mapOrder_perm m mbinfo i).length_eq, length_range]

/-- The entries in this order are the sorted ones. -/
theorem sortMap_take (hi : i ≤ mmapCount m mbinfo) : sortMap ((mapEntries m mbinfo).take i) =
    (mapOrder m mbinfo i).map fun j => (mmapEntry m mbinfo j).known := by
  induction i with
  | zero => rfl
  | succ i ih =>
    rw [take_mapEntries hi, sortMap_append, ih (Nat.le_of_succ_le hi), mapOrder,
      ← insertBefore_map (fun j => (mmapEntry m mbinfo j).known)]
    simp only [MemoryMap.known_addr]

/-- A list of pointers, and the list after one more has been written at `j`. -/
theorem insertIdx_list {f : Nat → Nat} {ps : List Nat} {j a : Nat} (hj : j ≤ ps.length)
    (h : ∀ t p, ps[t]? = some p → f t = p) {g : Nat → Nat} (hlt : ∀ t < j, g t = f t)
    (heq : g j = a) (hgt : ∀ t, j < t → t ≤ ps.length → g t = f (t - 1)) :
    ∀ t p, (ps.insertIdx j a)[t]? = some p → g t = p := by
  intro t p ht
  rcases Nat.lt_trichotomy t j with h1 | h1 | h1
  · rw [getElem?_insertIdx_of_lt h1] at ht
    rw [hlt t h1, h t p ht]
  · subst h1
    rw [getElem?_insertIdx_self, if_pos hj] at ht
    rw [heq, Option.some.inj ht]
  · rw [getElem?_insertIdx_of_gt h1] at ht
    obtain ⟨hlen, -⟩ := List.getElem?_eq_some_iff.mp ht
    rw [hgt t h1 (by omega), h (t - 1) p ht]

/-- Before the first round. -/
theorem inserted_zero (h : b.mem = m) : Inserted m mbinfo b 0 b :=
  ⟨by rw [h], rfl, rfl, rfl, nofun, nofun, fun _ _ _ => by rw [h]; rfl⟩

/-- The type of the entry is settled. -/
theorem Inserted.known (h : Inserted m mbinfo b₀ i b)
    (hp : ∀ j < mmapCount m mbinfo, Beside mbinfo ((mmapAddr m mbinfo).toNat + 24 * j))
    (hi : i < mmapCount m mbinfo) {b' : Boot}
    (hb' : b' = if 5#32 < (mmapEntry m mbinfo i).type ∨ (mmapEntry m mbinfo i).type < 1#32 then
      { b with mem := store32 b.mem ((mmapAddr m mbinfo).toNat + 24 * i + 20) mbTypeReserved }
      else b) :
    mmapCount b'.mem mbinfo = mmapCount m mbinfo ∧ b'.mmapSize = b.mmapSize ∧
    b'.basemem = b.basemem ∧ b'.extmem = b.extmem ∧ b'.mmapList = b.mmapList ∧
    loadMap b'.mem ((mmapAddr m mbinfo).toNat + 24 * i) = (mmapEntry m mbinfo i).known ∧
    ∀ j, j ≠ i → loadMap b'.mem ((mmapAddr m mbinfo).toNat + 24 * j) =
      loadMap b.mem ((mmapAddr m mbinfo).toNat + 24 * j) := by
  have he := h.rest i (Nat.le_refl i) hi
  rw [MemoryMap.known]
  split at hb'
  · rename_i hbad
    subst hb'
    have htouch : Touched mbinfo ((mmapAddr m mbinfo).toNat + 24 * i) b.mem
      (store32 b.mem ((mmapAddr m mbinfo).toNat + 24 * i + 20) mbTypeReserved) :=
      .store _ _ (hp i hi) (by decide)
    refine ⟨htouch.count.trans h.count, rfl, rfl, rfl, rfl, ?_, fun j hj => ?_⟩
    · rw [if_pos hbad, (loadMap_store_self ..).2.2.2.2, he]
    · exact htouch.others _ (apart_entries (Ne.symm hj))
  · rename_i hgood
    subst hb'
    exact ⟨h.count, rfl, rfl, rfl, rfl, by rw [if_neg hgood, he], fun _ _ => rfl⟩

/-- The entries that a round compares are those inserted before. -/
theorem Inserted.compared (h : Inserted m mbinfo b₀ i b) {b' : Boot}
    (hlist : b'.mmapList = b.mmapList)
    (hothers : ∀ j, j ≠ i → loadMap b'.mem ((mmapAddr m mbinfo).toNat + 24 * j) =
      loadMap b.mem ((mmapAddr m mbinfo).toNat + 24 * j)) {t j : Nat}
    (ht : (mapOrder m mbinfo i)[t]? = some j) :
    (loadMap b'.mem (b'.mmapList t)).addr = (mmapEntry m mbinfo j).addr := by
  have hj : j < i := mem_mapOrder.mp (mem_of_getElem? ht)
  rw [hlist, h.list t j ht, hothers j hj.ne, h.done j hj, MemoryMap.known_addr]

/-- The first part of a round of the first loop, and the rest. -/
theorem insertMmap_eq (h : Inserted m mbinfo b₀ i b) (hi : i < mmapCount m mbinfo) :
    (insertMmap ((mmapAddr m mbinfo).toNat + 24 * i) i).run b =
      (do let j ← placeMmap (mmapEntry m mbinfo i).addr i i
          writeMmap j ((mmapAddr m mbinfo).toNat + 24 * i)).run
        (if 5#32 < (mmapEntry m mbinfo i).type ∨ (mmapEntry m mbinfo i).type < 1#32 then
          { b with mem := store32 b.mem ((mmapAddr m mbinfo).toNat + 24 * i + 20) mbTypeReserved }
        else b) := by
  have hget : (getMap ((mmapAddr m mbinfo).toNat + 24 * i)).run b =
      .ok (mmapEntry m mbinfo i, b) := by
    rw [← h.rest i (Nat.le_refl i) hi]
    rfl
  rw [insertMmap, bind_ok hget]
  split <;> rfl

/-- **A round of the first loop** inserts an entry. -/
theorem insertMmap_ensures
    (hp : ∀ j < mmapCount m mbinfo, Beside mbinfo ((mmapAddr m mbinfo).toNat + 24 * j))
    (hi : i < mmapCount m mbinfo) :
    Ensures (Inserted m mbinfo b₀ i) (insertMmap ((mmapAddr m mbinfo).toNat + 24 * i) i)
      fun _ => Inserted m mbinfo b₀ (i + 1) := by
  intro b u b' hb hrun
  rw [insertMmap_eq hb hi] at hrun
  generalize hb1 : (if 5#32 < (mmapEntry m mbinfo i).type ∨ (mmapEntry m mbinfo i).type < 1#32 then
      { b with mem := store32 b.mem ((mmapAddr m mbinfo).toNat + 24 * i + 20) mbTypeReserved }
    else b) = b1 at hrun
  obtain ⟨hcount, hsize, hbase, hext, hlist, hknown, hothers⟩ := hb.known hp hi hb1.symm
  obtain ⟨j, b2, h2, hrun⟩ := bind_inv hrun
  obtain ⟨hj, hbefore, hplace⟩ := placeMmap_ensures _ i b1 i (Nat.le_refl i) rfl h2
  have hlen := mapOrder_length m mbinfo i
  have hins : mapOrder m mbinfo (i + 1) = (mapOrder m mbinfo i).insertIdx j i := by
    rw [mapOrder]
    refine insertBefore_eq (fun t k ht hk => ?_) ?_
    · rw [decide_eq_false_iff_not, ← hb.compared hlist hothers hk]
      exact hbefore t (by omega) ht
    · obtain ⟨rfl, -⟩ | ⟨hlt, haddr, -⟩ := hplace
      · exact .inl hlen.symm
      · obtain ⟨k, hk⟩ : ∃ k, (mapOrder m mbinfo i)[j]? = some k :=
          ⟨_, getElem?_eq_getElem (by omega)⟩
        refine .inr ⟨k, hk, ?_⟩
        rw [decide_eq_true_eq, ← hb.compared hlist hothers hk]
        exact haddr
  have hnext := writeMmap_ensures (P := (· = b2)) (Q := fun b => b = { b2 with
    mmapList := update b2.mmapList j ((mmapAddr m mbinfo).toNat + 24 * i) })
    (fun b hb => by rw [hb]) rfl hrun
  have hb2 : b2.mem = b1.mem ∧ b2.mmapSize = b1.mmapSize ∧ b2.basemem = b1.basemem ∧
      b2.extmem = b1.extmem := by
    obtain ⟨-, rfl⟩ | ⟨-, -, rfl⟩ := hplace
    · exact ⟨rfl, rfl, rfl, rfl⟩
    · exact ⟨rfl, rfl, rfl, rfl⟩
  -- the array of pointers, before and after
  have hptr : ∀ t a, ((mapOrder m mbinfo i).map ((mmapAddr m mbinfo).toNat + 24 * ·))[t]? = some a →
      b.mmapList t = a := fun t a ht => by
    rw [getElem?_map] at ht
    obtain ⟨k, hk, rfl⟩ := Option.map_eq_some_iff.mp ht
    exact hb.list t k hk
  have hptrs : ∀ t a, (((mapOrder m mbinfo i).map ((mmapAddr m mbinfo).toNat + 24 * ·)).insertIdx j
      ((mmapAddr m mbinfo).toNat + 24 * i))[t]? = some a →
      update b2.mmapList j ((mmapAddr m mbinfo).toNat + 24 * i) t = a := by
    refine insertIdx_list (by rwa [length_map, hlen]) hptr (fun t ht => ?_)
      (update_self ..) fun t h1 h2 => ?_
    · rw [update_of_ne ht.ne]
      obtain ⟨-, rfl⟩ | ⟨-, -, rfl⟩ := hplace
      · rw [hlist]
      · dsimp only
        rw [shiftUp, if_neg (by omega), hlist]
    · rw [length_map, hlen] at h2
      rw [update_of_ne h1.ne']
      obtain ⟨rfl, -⟩ | ⟨-, -, rfl⟩ := hplace
      · omega
      · dsimp only
        rw [shiftUp, if_pos (by omega), hlist]
  subst hnext
  refine ⟨?_, ?_, ?_, ?_, fun t k hk => ?_, fun k hk => ?_, fun k h1 h2 => ?_⟩
  · exact (congrArg (mmapCount · mbinfo) hb2.1).trans hcount
  · exact hb2.2.1.trans (hsize.trans hb.size)
  · exact hb2.2.2.1.trans (hbase.trans hb.basemem)
  · exact hb2.2.2.2.trans (hext.trans hb.extmem)
  · refine hptrs t _ ?_
    rw [← map_insertIdx, ← hins, getElem?_map, hk]
    rfl
  · dsimp only
    rw [hb2.1]
    rcases Nat.lt_succ_iff_lt_or_eq.mp hk with hlt | rfl
    · rw [hothers k hlt.ne, hb.done k hlt]
    · exact hknown
  · dsimp only
    rw [hb2.1, hothers k (by omega)]
    exact hb.rest k (by omega) h2

/-- When all entries have been inserted, they are sorted. -/
theorem Inserted.sorting (h : Inserted m mbinfo b₀ (mmapCount m mbinfo) b)
    (hsize : b₀.mmapSize = mmapCount m mbinfo) : Sorting m mbinfo b₀ (mmapCount m mbinfo) b := by
  refine ⟨⟨h.count, h.size.trans hsize, h.basemem, h.extmem⟩,
    ⟨(mapOrder m mbinfo _).map ((mmapAddr m mbinfo).toNat + 24 * ·), fun t a ht => ?_,
      (mapOrder_perm m mbinfo _).map _, ?_⟩, fun j h1 h2 => absurd h1 (by omega)⟩
  · rw [getElem?_map] at ht
    obtain ⟨k, hk, rfl⟩ := Option.map_eq_some_iff.mp ht
    exact h.list t k hk
  · rw [sortMap_take (Nat.le_refl _), map_map]
    exact map_congr_left fun j hj => h.done j (mem_mapOrder.mp hj)

end sorting

/-! ### The second loop -/

section sanitizing

variable {mbinfo n i : Nat} {b₀ b b' : Boot} {es : List MemoryMap}

/-- Before round `i`, the entries up to the one at `a` have been compared. -/
structure Sanitizing (mbinfo n : Nat) (b₀ : Boot) (es : List MemoryMap) (i : Nat) (b : Boot) :
    Prop where
  steady : Steady mbinfo n b₀ b
  tidied : ∃ (done : List (Option Nat)) (a : Nat) (rest : List Nat),
    done.length + 1 = i ∧ done.length + 1 + rest.length = n ∧
    Table mbinfo (done ++ some a :: rest.map some) b ∧
    contents b.mem done ++ sanitizeFrom (loadMap b.mem a) (rest.map (loadMap b.mem)) = sanitize es

theorem readMmap_eq_ok {a : Nat} (h : (readMmap i).run b = .ok (a, b')) :
    a = b.mmapList i ∧ b' = b :=
  readMmap_ensures (P := (· = b)) rfl h |>.imp_left fun h' => by
    obtain rfl := (readMmap_ensures (P := (· = b)) rfl h).2
    exact h'

theorem writeMmap_eq_ok {a : Nat} {u : Unit} (h : (writeMmap i a).run b = .ok (u, b')) :
    b' = { b with mmapList := update b.mmapList i a } :=
  writeMmap_ensures (P := (· = b)) (Q := (· = { b with
    mmapList := update b.mmapList i a })) (fun _ hb => by rw [hb]) rfl h

/-- The pointers at two neighbouring places, and where they lead. -/
theorem Table.neighbours {done : List (Option Nat)} {a a' : Nat} {rest : List Nat}
    (h : Table mbinfo (done ++ some a :: (a' :: rest).map some) b) :
    b.mmapList done.length = a ∧ b.mmapList (done.length + 1) = a' ∧ Beside mbinfo a ∧
    Beside mbinfo a' ∧ MapApart a a' ∧ (∀ p, some p ∈ done → MapApart a p ∧ MapApart a' p) ∧
    ∀ p ∈ rest, MapApart a p ∧ MapApart a' p := by
  have hap := h.apart
  rw [filterMap_append] at hap
  simp only [filterMap_cons, id, map_cons] at hap
  rw [pairwise_append, pairwise_cons, pairwise_cons] at hap
  obtain ⟨-, ⟨ha, ha', -⟩, hdone⟩ := hap
  refine ⟨h.list _ (some a) ?_, h.list _ (some a') ?_, (h.valid a (by simp)).2,
    (h.valid a' (by simp)).2, ha a' (by simp), fun p hp => ?_, fun p hp => ?_⟩
  · rw [getElem?_append_right (Nat.le_refl _), Nat.sub_self]
    rfl
  · rw [getElem?_append_right (by omega), Nat.add_sub_cancel_left]
    rfl
  · have hp' : p ∈ done.filterMap id := List.mem_filterMap.mpr ⟨_, hp, rfl⟩
    exact ⟨(hdone p hp' a (by simp)).symm, (hdone p hp' a' (by simp)).symm⟩
  · have hp' : p ∈ (rest.map some).filterMap id := List.mem_filterMap.mpr
      ⟨_, mem_map_of_mem hp, rfl⟩
    exact ⟨ha p (.tail _ hp'), ha' p hp'⟩

/-- Null takes the place of a pointer. -/
theorem Table.forget {l₁ l₂ : List (Option Nat)} {a : Nat} {m' : Bytes}
    (h : Table mbinfo (l₁ ++ some a :: l₂) b) : Table mbinfo (l₁ ++ none :: l₂)
      { b with mem := m', mmapList := update b.mmapList l₁.length 0 } := by
  refine ⟨fun t x hx => ?_, ?_, fun p hp => h.valid p ?_⟩
  · by_cases ht : t = l₁.length
    · subst ht
      rw [getElem?_append_right (Nat.le_refl _), Nat.sub_self] at hx
      obtain rfl := Option.some.inj hx
      exact update_self ..
    · refine (update_of_ne ht ..).trans (h.list t x ?_)
      rw [← hx, getElem?_append, getElem?_append]
      split
      · rfl
      · rw [getElem?_cons, getElem?_cons, if_neg (by omega), if_neg (by omega)]
  · refine h.apart.sublist ?_
    rw [filterMap_append, filterMap_append]
    exact (List.Sublist.refl _).append (sublist_cons_self _ _)
  · rcases List.mem_append.mp hp with hp | hp
    · exact mem_append_left _ hp
    · cases hp with
      | tail _ hp => exact mem_append_right _ (.tail _ hp)

theorem sanitizeFrom_cons (p t : MemoryMap) (l : List MemoryMap) : sanitizeFrom p (t :: l) =
    if p.addr + p.len = t.addr ∧ p.type = t.type then
      none :: sanitizeFrom (p.merge t) l
    else if t.addr < p.addr + p.len then
      some { p with type := restrictiveType p.type t.type } ::
        sanitizeFrom { t with type := restrictiveType p.type t.type } l
    else
      some p :: sanitizeFrom t l := rfl

/-- **The state after a round**, in which memory has changed to `m'`, and the pointer to `x`. -/
theorem Sanitizing.next {done : List (Option Nat)} {a a' : Nat} {rest : List Nat} {x : Option Nat}
    (hs : Steady mbinfo n b₀ b') (hn : done.length + 2 + rest.length = n)
    (ht : Table mbinfo (done ++ x :: (a' :: rest).map some) b')
    (hdone : contents b'.mem done = contents b.mem done)
    (hrest : rest.map (loadMap b'.mem) = rest.map (loadMap b.mem))
    (hpure : x.map (loadMap b'.mem) :: sanitizeFrom (loadMap b'.mem a') (rest.map (loadMap b.mem)) =
      sanitizeFrom (loadMap b.mem a) ((a' :: rest).map (loadMap b.mem)))
    (h : contents b.mem done ++ sanitizeFrom (loadMap b.mem a) ((a' :: rest).map (loadMap b.mem)) =
      sanitize es) : Sanitizing mbinfo n b₀ es (done.length + 2) b' := by
  refine ⟨hs, done ++ [x], a', rest, ?_, ?_, ?_, ?_⟩
  · rw [length_append, length_singleton]
  · rw [length_append, length_singleton, ← hn]
  · rw [append_assoc]
    exact ht
  · rw [← h, ← hpure, contents, map_append, ← contents, hdone, hrest, append_assoc]
    rfl

theorem storeMap_run {a : Nat} {v : BitVec 32} :
    (storeMap a v).run b = .ok ((), { b with mem := store32 b.mem a v }) := rfl

/-- Memory after the entry at `a` has been merged with `p`. -/
def storeMerge (m : Bytes) (a : Nat) (p : MemoryMap) : Bytes :=
  let e := p.merge (loadMap m a)
  store32 (store32 (store32 (store32 m (a + 12) e.lengthLow) (a + 16) e.lengthHigh)
    (a + 4) e.baseAddrLow) (a + 8) e.baseAddrHigh

theorem loadMap_storeMerge (m : Bytes) (a : Nat) (p : MemoryMap) :
    loadMap (storeMerge m a p) a = p.merge (loadMap m a) := by
  rw [storeMerge, (loadMap_store_self ..).2.1, (loadMap_store_self ..).1,
    (loadMap_store_self ..).2.2.2.1, (loadMap_store_self ..).2.2.1]
  rfl

theorem Touched.merge {a : Nat} (m : Bytes) (p : MemoryMap) (h : Beside mbinfo a) :
    Touched mbinfo a m (storeMerge m a p) :=
  (((Touched.store _ _ h (by decide)).trans (.store _ _ h (by decide))).trans
    (.store _ _ h (by decide))).trans (.store _ _ h (by decide))

/-- **A round of the second loop.** -/
theorem sanitizeMmap_ensures (h1 : 1 ≤ i) (hi : i < n) :
    Ensures (Sanitizing mbinfo n b₀ es i) (sanitizeMmap i) fun _ => Sanitizing mbinfo n b₀ es (i + 1) := by
  intro b u b' hb hrun
  obtain ⟨hs, done, a, rest, hi', hn, ht, hpure⟩ := hb
  cases rest with
  | nil =>
    rw [length_nil] at hn
    omega
  | cons a' rest =>
    obtain ⟨hprev, hthis, ha, ha', haa, hdone, hrest⟩ := ht.neighbours
    subst hi'
    rw [length_cons] at hn
    rw [sanitizeMmap, Nat.add_sub_cancel] at hrun
    obtain ⟨p, b1, h1, hrun⟩ := bind_inv hrun
    obtain ⟨rfl, rfl⟩ := readMmap_eq_ok h1
    obtain ⟨t, b2, h2, hrun⟩ := bind_inv hrun
    obtain ⟨rfl, rfl⟩ := readMmap_eq_ok h2
    rw [hprev, hthis, bind_ok (a := loadMap b2.mem a) (u := b2) rfl,
      bind_ok (a := loadMap b2.mem a') (u := b2) rfl] at hrun
    have hdone1 : ∀ p, some p ∈ done → MapApart a p := fun p hp => (hdone p hp).1
    have hdone2 : ∀ p, some p ∈ done → MapApart a' p := fun p hp => (hdone p hp).2
    have hcons := sanitizeFrom_cons (loadMap b2.mem a) (loadMap b2.mem a') (rest.map (loadMap b2.mem))
    split at hrun
    · rename_i hmerge
      rw [if_pos hmerge] at hcons
      have htouch : Touched mbinfo a' b2.mem (storeMerge b2.mem a' (loadMap b2.mem a)) :=
        .merge _ _ ha'
      -- the entry before is read again between the stores
      have hread : ∀ v w, loadMap (store32 (store32 b2.mem (a' + 12) v) (a' + 16) w) a =
          loadMap b2.mem a := fun v w => by
        rw [loadMap_store_apart haa.symm (by decide), loadMap_store_apart haa.symm (by decide)]
      rw [bind_ok storeMap_run, bind_ok storeMap_run, bind_ok getMap_run, hread,
        bind_ok storeMap_run, bind_ok getMap_run, loadMap_store_apart haa.symm (by decide),
        hread, bind_ok storeMap_run] at hrun
      obtain rfl := writeMmap_eq_ok hrun
      refine Sanitizing.next (x := none) (hs.touched htouch) (by omega) ht.forget
        (htouch.contents hdone2) ?_ ?_ hpure
      · exact map_congr_left fun p hp => htouch.others p (hrest p hp).2
      · refine Eq.trans ?_ hcons.symm
        rw [← loadMap_storeMerge]
        rfl
    · rename_i hmerge
      rw [if_neg hmerge] at hcons
      split at hrun
      · rename_i hover
        rw [if_pos hover] at hcons
        cases hrun
        generalize hty : restrictiveType (loadMap b2.mem a).type (loadMap b2.mem a').type = type
          at hcons
        have h1 : Touched mbinfo a b2.mem (store32 b2.mem (a + 20) type) :=
          .store _ _ ha (by decide)
        have h2 : Touched mbinfo a' (store32 b2.mem (a + 20) type)
          (store32 (store32 b2.mem (a + 20) type) (a' + 20) type) := .store _ _ ha' (by decide)
        refine Sanitizing.next (x := some a) ((hs.touched h1).touched h2) (by omega)
          ⟨ht.list, ht.apart, ht.valid⟩ ?_ ?_ ?_ hpure
        · exact (h2.contents hdone2).trans (h1.contents hdone1)
        · refine map_congr_left fun p hp => ?_
          exact (h2.others p (hrest p hp).2).trans (h1.others p (hrest p hp).1)
        · refine Eq.trans ?_ hcons.symm
          rw [Option.map_some, (loadMap_store_self ..).2.2.2.2, h2.others a haa.symm,
            (loadMap_store_self ..).2.2.2.2, h1.others a' haa]
      · rename_i hover
        rw [if_neg hover] at hcons
        cases hrun
        exact Sanitizing.next hs (by omega) ht rfl rfl hcons.symm hpure

end sanitizing

/-! ### The third loop -/

section summing

variable {mbinfo i : Nat} {b₀ b b' : Boot} {F : List (Option MemoryMap)} {ps : List (Option Nat)}

/-- Before round `i`, the entries before it have been added up. -/
structure Summing (mbinfo : Nat) (b₀ : Boot) (F : List (Option MemoryMap)) (i : Nat) (b : Boot) :
    Prop where
  count : mmapCount b.mem mbinfo = F.length
  size : b.mmapSize = F.length
  table : ∃ ps, Table mbinfo ps b ∧ contents b.mem ps = F
  basemem : b.basemem = b₀.basemem + (((F.take i).filterMap id).map MemoryMap.base).sum
  extmem : b.extmem = b₀.extmem + (((F.take i).filterMap id).map MemoryMap.ext).sum

/-- What an entry adds to the totals. -/
theorem sumMmap_run (h : i < b.mmapSize) : (sumMmap i).run b = .ok ((),
    if b.mmapList i = 0 then b else { b with
      basemem := b.basemem + (loadMap b.mem (b.mmapList i)).base
      extmem := b.extmem + (loadMap b.mem (b.mmapList i)).ext }) := by
  rw [sumMmap, bind_ok (readMmap_run h)]
  by_cases h0 : b.mmapList i = 0
  · rw [if_neg (not_not.mpr h0), if_pos h0]
    rfl
  rw [if_pos h0, if_neg h0, bind_ok getMap_run, MemoryMap.base, MemoryMap.ext]
  generalize loadMap b.mem (b.mmapList i) = e
  by_cases hu : e.type = mbTypeUsable ∨ e.type = mbTypeAcpiReclm
  · rw [if_pos hu]
    by_cases hb : e.baseAddrLow < 0x100000#32 ∧ e.baseAddrHigh = 0
    · rw [if_pos hb, if_pos ⟨hu, hb⟩, if_neg fun h' => h'.2 hb, add_zero]
      rfl
    · rw [if_neg hb, if_neg fun h' => hb h'.2, if_pos ⟨hu, hb⟩, add_zero]
      rfl
  · rw [if_neg hu, if_neg fun h' => hu h'.1, if_neg fun h' => hu h'.1, add_zero, add_zero]
    rfl

/-- **A round of the third loop.** -/
theorem sumMmap_ensures (hi : i < F.length) :
    Ensures (Summing mbinfo b₀ F i) (sumMmap i) fun _ => Summing mbinfo b₀ F (i + 1) := by
  intro b u b' h hrun
  obtain ⟨ps, ht, hF⟩ := h.table
  obtain ⟨x, hx⟩ : ∃ x, ps[i]? = some x := by
    have hlen : i < ps.length := by rwa [← hF, contents, length_map] at hi
    exact ⟨_, getElem?_eq_getElem hlen⟩
  have htake : F.take (i + 1) = F.take i ++ [x.map (loadMap b.mem)] := by
    have hget : F[i]? = some (x.map (loadMap b.mem)) := by
      rw [← hF, contents, getElem?_map, hx]
      rfl
    rw [take_add_one, hget]
    rfl
  rw [sumMmap_run (by rwa [h.size]), ht.list i x hx] at hrun
  cases x with
  | none =>
    rw [Option.getD_none, if_pos rfl] at hrun
    obtain ⟨-, rfl⟩ := Prod.mk.inj (Except.ok.inj hrun)
    refine ⟨h.count, h.size, h.table, ?_, ?_⟩
    · rw [htake, filterMap_append, h.basemem]
      simp
    · rw [htake, filterMap_append, h.extmem]
      simp
  | some a =>
    have ha : a ≠ 0 := (ht.valid a (mem_of_getElem? hx)).1
    rw [Option.getD_some, if_neg ha] at hrun
    obtain ⟨-, rfl⟩ := Prod.mk.inj (Except.ok.inj hrun)
    refine ⟨h.count, h.size, ⟨ps, ⟨ht.list, ht.apart, ht.valid⟩, hF⟩, ?_, ?_⟩
    · rw [htake, filterMap_append, h.basemem]
      simp [add_assoc]
    · rw [htake, filterMap_append, h.extmem]
      simp [add_assoc]

end summing

/-! ### The function -/

variable {m : Bytes} {mbinfo : Nat} {b b' : Boot}

/-- The sorted pointers are those with which the second loop begins. -/
theorem Sorting.table (hp : Placed m mbinfo) {b₀ : Boot}
    (h : Sorting m mbinfo b₀ (mmapCount m mbinfo) b) : ∃ ps : List Nat,
    ps.length = mmapCount m mbinfo ∧ Table mbinfo (ps.map some) b ∧
      ps.map (loadMap b.mem) = sortMap (mapEntries m mbinfo) := by
  obtain ⟨ps, hps, hperm, hsorted⟩ := h.sorted
  have hlen : ps.length = mmapCount m mbinfo := by
    rw [hperm.length_eq, length_map, length_range]
  refine ⟨ps, hlen, ⟨fun t x hx => ?_, ?_, fun a ha => ?_⟩, ?_⟩
  · rw [getElem?_map] at hx
    obtain ⟨a, ha, rfl⟩ := Option.map_eq_some_iff.mp hx
    exact hps t a ha
  · rw [filterMap_map, Function.id_comp, filterMap_some]
    refine List.Pairwise.perm ?_ hperm.symm MapApart.symm
    rw [pairwise_map]
    exact List.nodup_range.imp apart_entries
  · obtain ⟨a', ha', heq⟩ := List.mem_map.mp ha
    obtain rfl := Option.some.inj heq
    obtain ⟨k, hk, rfl⟩ := List.mem_map.mp (hperm.subset ha')
    have := hp.addr
    exact ⟨by omega, hp.beside k (List.mem_range.mp hk)⟩
  · rw [hsorted, take_of_length_le]
    rw [mapEntries, length_map, length_range]

/-- The second loop begins with the sorted pointers, if there are any. -/
theorem Sorting.sanitizing (hp : Placed m mbinfo) {b₀ : Boot}
    (h : Sorting m mbinfo b₀ (mmapCount m mbinfo) b) (hn : 0 < mmapCount m mbinfo) :
    Sanitizing mbinfo (mmapCount m mbinfo) b₀ (sortMap (mapEntries m mbinfo)) 1 b := by
  obtain ⟨ps, hlen, ht, hsorted⟩ := Sorting.table hp h
  cases ps with
  | nil => exact absurd hlen hn.ne
  | cons a rest =>
    refine ⟨h.steady, [], a, rest, rfl, by simpa [Nat.add_comm] using hlen, ht, ?_⟩
    rw [← hsorted]
    rfl

/-- The second loop ends with the sanitized map. -/
theorem Sanitizing.summing {n : Nat} {b₀ : Boot} {es : List MemoryMap}
    (h : Sanitizing mbinfo n b₀ es n b) : Summing mbinfo b₀ (sanitize es) 0 b := by
  obtain ⟨hs, done, a, rest, hdone, hrest, ht, hpure⟩ := h
  obtain rfl : rest = [] := eq_nil_of_length_eq_zero (by omega)
  have hF : contents b.mem (done ++ [some a]) = sanitize es := by
    rw [← hpure, contents, map_append]
    rfl
  have hFlen : (sanitize es).length = n := by
    rw [← hF, contents, length_map, length_append, length_singleton, hdone]
  refine ⟨hs.count.trans hFlen.symm, hs.size.trans hFlen.symm, ⟨_, ht, hF⟩, ?_, ?_⟩
  · rw [hs.basemem]
    exact (add_zero _).symm
  · rw [hs.extmem]
    exact (add_zero _).symm

/-- Without entries there is nothing to do. -/
theorem Sorting.summing_nil (hp : Placed m mbinfo) {b₀ : Boot}
    (h : Sorting m mbinfo b₀ (mmapCount m mbinfo) b) (hn : mmapCount m mbinfo = 0) :
    (forMmap mbinfo 1 sanitizeMmap).run b = .ok ((), b) ∧
      Summing mbinfo b₀ (sanitize (sortMap (mapEntries m mbinfo))) 0 b := by
  obtain ⟨ps, hlen, ht, hsorted⟩ := Sorting.table hp h
  obtain rfl : ps = [] := eq_nil_of_length_eq_zero (hlen.trans hn)
  rw [← hsorted]
  refine ⟨?_, h.steady.count.trans hn, h.steady.size.trans hn, ⟨[], ht, rfl⟩, ?_, ?_⟩
  · rw [forMmap, bind_get, h.steady.size, hn]
    rfl
  · rw [h.steady.basemem]
    exact (add_zero _).symm
  · rw [h.steady.extmem]
    exact (add_zero _).symm

/-- **The second loop** arrives at the sanitized map. -/
theorem sanitizeLoop_ensures (hp : Placed m mbinfo) {b₀ : Boot} :
    Ensures (Sorting m mbinfo b₀ (mmapCount m mbinfo)) (forMmap mbinfo 1 sanitizeMmap)
      fun _ => Summing mbinfo b₀ (sanitize (sortMap (mapEntries m mbinfo))) 0 := by
  intro b u b' h hrun
  rcases Nat.eq_zero_or_pos (mmapCount m mbinfo) with hn | hn
  · obtain ⟨hrun', hsum⟩ := h.summing_nil hp hn
    rw [hrun'] at hrun
    cases hrun
    exact hsum
  · have hlast := forMmap_ensures 1
      (I := Sanitizing mbinfo (mmapCount m mbinfo) b₀ (sortMap (mapEntries m mbinfo)))
      (fun i b h => ⟨h.steady.count, h.steady.size⟩) hn
      (fun i h1 hi => sanitizeMmap_ensures h1 hi) (h.sanitizing hp hn) hrun
    exact hlast.summing

/-- **`multiboot_read` arrives at the totals of the map.** -/
theorem multibootRead_totals (hp : Placed b.mem mbinfo)
    (hrun : (multibootRead mbinfo).run b = .ok ((), b')) :
    b'.basemem = b.basemem + (mapTotals (mapEntries b.mem mbinfo)).1 ∧
      b'.extmem = b.extmem + (mapTotals (mapEntries b.mem mbinfo)).2 := by
  generalize hm : b.mem = m at hp
  rw [multibootRead, bind_get, bind_ok (a := ()) rfl, hm] at hrun
  dsimp only at hrun
  generalize hb0 : { b with mmapSize := mmapCount b.mem mbinfo } = b₀ at hrun
  have hsize : b₀.mmapSize = mmapCount m mbinfo := by rw [← hb0, ← hm]
  have hstart : Inserted m mbinfo b₀ 0 b₀ := inserted_zero (by rw [← hb0, ← hm])
  obtain ⟨_, b1, h1, hrun⟩ := bind_inv hrun
  obtain ⟨_, b2, h2, h3⟩ := bind_inv hrun
  have hb1 := forMmap_ensures 0 (I := Inserted m mbinfo b₀)
    (fun i b h => ⟨h.count, h.size.trans hsize⟩) (Nat.zero_le _)
    (fun i _ hi => insertMmap_ensures hp.beside hi) hstart h1
  have hb2 := sanitizeLoop_ensures hp (hb1.sorting hsize) h2
  have hb3 := forMmap_ensures 0
    (I := Summing mbinfo b₀ (sanitize (sortMap (mapEntries m mbinfo))))
    (fun i b h => ⟨h.count, h.size⟩) (Nat.zero_le _) (fun i _ hi => sumMmap_ensures hi) hb2 h3
  refine ⟨?_, ?_⟩
  · rw [hb3.basemem, take_length, ← hb0]
    rfl
  · rw [hb3.extmem, take_length, ← hb0]
    rfl

end JosVmm
