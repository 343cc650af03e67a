import JosVmm.Boot.RealRam

/-!
# Boot — the array of `multiboot_read`

The first loop of `multiboot_read` keeps an array of pointers sorted by insertion.  To make room it
moves the pointers above the place of the new entry, and the one that follows them, up by one.  With
room for one pointer more than there are entries the loop sorts every map, and entries at the same
address keep their order (`insertLoop_sorts`).

The array has no such room.  The last entry, if it has to move, is written beyond its end; apart from
this nothing ever is, and the second loop finds no pointer that it has cleared itself
(`multibootRead_inside`).
-/

namespace JosVmm
open Support Support.Prog List

variable {m : Bytes} {mbinfo i n : Nat} {b b' b₀ : Boot}

/-! ### The order -/

/-- An insertion keeps an order in which what satisfies `p` comes after the new element. -/
theorem insertBefore_pairwise {α : Type} {r : α → α → Prop} {p : α → Bool} {x : α} {l : List α}
    (hl : l.Pairwise r) (hbefore : ∀ y ∈ l, p y = false → r y x) (hafter : ∀ y ∈ l, p y = true → r x y)
    (hmono : ∀ y ∈ l, ∀ z ∈ l, r y z → p y = true → p z = true) :
    (insertBefore p x l).Pairwise r := by
  induction l with
  | nil => exact pairwise_singleton r x
  | cons y l ih =>
    obtain ⟨hy, hl⟩ := List.pairwise_cons.mp hl
    rw [insertBefore]
    split
    · rename_i hp
      refine List.pairwise_cons.mpr ⟨fun z hz => ?_, List.pairwise_cons.mpr ⟨hy, hl⟩⟩
      rcases List.mem_cons.mp hz with rfl | hz'
      · exact hafter z (mem_cons_self ..) hp
      · exact hafter z hz (hmono y (mem_cons_self ..) z hz (hy z hz') hp)
    · rename_i hp
      refine List.pairwise_cons.mpr ⟨fun z hz => ?_, ?_⟩
      · rcases List.mem_cons.mp ((insertBefore_perm p x l).mem_iff.mp hz) with rfl | hz'
        · exact hbefore y (mem_cons_self ..) (Bool.eq_false_iff.mpr hp)
        · exact hy z hz'
      · exact ih hl (fun z hz => hbefore z (.tail _ hz)) (fun z hz => hafter z (.tail _ hz))
          fun z hz w hw => hmono z (.tail _ hz) w (.tail _ hw)

/-- Entry `j` of the map comes before entry `k`: its address is lower, or the same and it is listed
first. -/
def MapBefore (m : Bytes) (mbinfo j k : Nat) : Prop :=
  (mmapEntry m mbinfo j).addr < (mmapEntry m mbinfo k).addr ∨
    (mmapEntry m mbinfo j).addr = (mmapEntry m mbinfo k).addr ∧ j < k

theorem mapOrder_sorted (m : Bytes) (mbinfo i : Nat) :
    (mapOrder m mbinfo i).Pairwise (MapBefore m mbinfo) := by
  induction i with
  | zero => exact .nil
  | succ i ih =>
    refine insertBefore_pairwise ih (fun j hj hp => ?_) (fun j _ hp => ?_) fun j _ k _ hjk hp => ?_
    · rw [decide_eq_false_iff_not] at hp
      rcases Nat.lt_or_eq_of_le (BitVec.not_lt.mp hp) with hlt | heq
      · exact .inl hlt
      · exact .inr ⟨BitVec.eq_of_toNat_eq heq, mem_mapOrder.mp hj⟩
    · exact .inl (decide_eq_true_eq.mp hp)
    · rw [decide_eq_true_eq] at hp ⊢
      rcases hjk with hlt | ⟨heq, -⟩
      · exact BitVec.lt_trans hp hlt
      · rwa [← heq]

/-! ### The first loop -/

theorem shiftMmap_run (j : Nat) : ∀ (k : Nat) {b : Boot}, j + k < b.mmapSize →
    ∃ b', (shiftMmap j k).run b = .ok ((), b')
  | 0, b, _ => ⟨b, rfl⟩
  | k + 1, b, h => by
    have hwrite : j + k + 1 < b.mmapSize := h
    rw [shiftMmap, bind_ok (readMmap_run (by omega)), bind_ok (writeMmap_run hwrite)]
    exact shiftMmap_run j k (Nat.lt_of_succ_lt h)

theorem lt_of_writeMmap {a : Nat} {u : Unit} (hrun : (writeMmap i a).run b = .ok (u, b')) :
    i < b.mmapSize := by
  rw [writeMmap, bind_get] at hrun
  split at hrun
  · assumption
  · cases hrun

/-- The pointer at the top is written first. -/
theorem shiftMmap_top {j k : Nat} {u : Unit} (hrun : (shiftMmap j (k + 1)).run b = .ok (u, b')) :
    j + k + 1 < b.mmapSize := by
  obtain ⟨a, b1, h1, hrest⟩ := bind_inv hrun
  obtain ⟨-, rfl⟩ := readMmap_eq_ok h1
  obtain ⟨_, b2, h2, -⟩ := bind_inv hrest
  exact lt_of_writeMmap h2

/-- An entry is placed, unless it has to move and there is no room for one more. -/
theorem placeMmap_returns {addr : Word} (hi : i < b.mmapSize) : ∀ k ≤ i,
    (∃ r, (placeMmap addr i k).run b = .ok r) ↔ i + 1 < b.mmapSize ∨
      ∀ t, i - k ≤ t → t < i → ¬ addr < (loadMap b.mem (b.mmapList t)).addr
  | 0, _ => ⟨fun _ => .inr fun t h1 h2 => absurd h1 (by omega), fun _ => ⟨_, rfl⟩⟩
  | k + 1, hk => by
    rw [placeMmap, bind_ok (readMmap_run (by omega)), bind_ok getMap_run]
    by_cases hlt : addr < (loadMap b.mem (b.mmapList (i - (k + 1)))).addr
    · rw [if_pos hlt]
      constructor
      · rintro ⟨r, hrun⟩
        obtain ⟨_, b1, h1, -⟩ := bind_inv hrun
        rw [show i + 1 - (i - (k + 1)) = k + 1 + 1 by omega] at h1
        exact .inl (by have := shiftMmap_top h1; omega)
      · rintro (hroom | hnone)
        · obtain ⟨b1, h1⟩ := shiftMmap_run (i - (k + 1)) (i + 1 - (i - (k + 1))) (b := b) (by omega)
          rw [bind_ok h1]
          exact ⟨_, rfl⟩
        · exact absurd hlt (hnone _ (Nat.le_refl _) (by omega))
    · rw [if_neg hlt, placeMmap_returns hi k (by omega)]
      refine or_congr_right ⟨fun h t h1 h2 => ?_, fun h t h1 h2 => h t (by omega) h2⟩
      by_cases ht : t = i - (k + 1)
      · rwa [ht]
      · exact h t (by omega) h2

/-- **A round of the first loop** succeeds, unless the entry has to move and there is no room for one
more. -/
theorem insertMmap_returns (h : Inserted m mbinfo b₀ i b)
    (hp : ∀ j < mmapCount m mbinfo, Beside mbinfo ((mmapAddr m mbinfo).toNat + 24 * j))
    (hi : i < mmapCount m mbinfo) (hsize : i < b₀.mmapSize) :
    (∃ b', (insertMmap ((mmapAddr m mbinfo).toNat + 24 * i) i).run b = .ok ((), b')) ↔
      i + 1 < b₀.mmapSize ∨ ∀ j < i, ¬ (mmapEntry m mbinfo i).addr < (mmapEntry m mbinfo j).addr := by
  rw [insertMmap_eq h hi]
  generalize hb1 : (if 5#32 < (mmapEntry m mbinfo i).type ∨ (mmapEntry m mbinfo i).type < 1#32 then
      { b with mem := store32 b.mem ((mmapAddr m mbinfo).toNat + 24 * i + 20) mbTypeReserved }
    else b) = b1
  obtain ⟨-, hsz, -, -, hlist, -, hothers⟩ := h.known hp hi hb1.symm
  rw [h.size] at hsz
  -- the entries compared, by their place in the array and by their number
  have hall : (∀ t, i - i ≤ t → t < i →
      ¬ (mmapEntry m mbinfo i).addr < (loadMap b1.mem (b1.mmapList t)).addr) ↔
      ∀ j < i, ¬ (mmapEntry m mbinfo i).addr < (mmapEntry m mbinfo j).addr := by
    constructor
    · intro hnone j hj
      obtain ⟨t, ht⟩ := List.mem_iff_getElem?.mp
        (show j ∈ mapOrder m mbinfo i from mem_mapOrder.mpr hj)
      obtain ⟨hlt, -⟩ := List.getElem?_eq_some_iff.mp ht
      rw [mapOrder_length] at hlt
      rw [← h.compared hlist hothers ht]
      exact hnone t (by omega) hlt
    · intro hnone t _ ht
      obtain ⟨j, hj⟩ : ∃ j, (mapOrder m mbinfo i)[t]? = some j :=
        ⟨_, getElem?_eq_getElem (by rwa [mapOrder_length])⟩
      rw [h.compared hlist hothers hj]
      exact hnone j (mem_mapOrder.mp (mem_of_getElem? hj))
  rw [← hall, ← hsz, ← placeMmap_returns (hsz ▸ hsize) i (Nat.le_refl i)]
  constructor
  · rintro ⟨b', hrun⟩
    obtain ⟨j, b2, h2, -⟩ := bind_inv hrun
    exact ⟨_, h2⟩
  · rintro ⟨⟨j, b2⟩, h2⟩
    obtain ⟨hj, -, hplace⟩ := placeMmap_ensures _ i b1 i (Nat.le_refl i) rfl h2
    have hsz2 : b2.mmapSize = b1.mmapSize := by
      obtain ⟨-, rfl⟩ | ⟨-, -, rfl⟩ := hplace <;> rfl
    rw [bind_ok h2, writeMmap_run (by omega)]
    exact ⟨_, rfl⟩

/-- What the first loop makes of the map in `m`. -/
structure Sorts (m : Bytes) (mbinfo : Nat) (b : Boot) : Prop where
  /-- The array holds a pointer to each entry, in the order of the addresses. -/
  order : ∃ l : List Nat, l.Perm (List.range (mmapCount m mbinfo)) ∧
    l.Pairwise (MapBefore m mbinfo) ∧
    ∀ t j, l[t]? = some j → b.mmapList t = (mmapAddr m mbinfo).toNat + 24 * j
  /-- An entry is as it was, or of a type that was not known and is reserved. -/
  entry : ∀ i < mmapCount m mbinfo,
    loadMap b.mem ((mmapAddr m mbinfo).toNat + 24 * i) = (mmapEntry m mbinfo i).known
  type : ∀ i < mmapCount m mbinfo,
    1#32 ≤ (loadMap b.mem ((mmapAddr m mbinfo).toNat + 24 * i)).type ∧
      (loadMap b.mem ((mmapAddr m mbinfo).toNat + 24 * i)).type ≤ 5#32

theorem MemoryMap.known_type (e : MemoryMap) : 1#32 ≤ e.known.type ∧ e.known.type ≤ 5#32 := by
  rw [known]
  split
  · exact ⟨show 1#32 ≤ mbTypeReserved by decide, show mbTypeReserved ≤ 5#32 by decide⟩
  · rename_i h
    rw [not_or, BitVec.not_lt, BitVec.not_lt] at h
    exact ⟨h.2, h.1⟩

/-- **The first loop sorts**, with room for one pointer more than there are entries. -/
theorem insertLoop_sorts (hsize : b.mmapSize = mmapCount b.mem mbinfo + 1)
    (hp : ∀ i < mmapCount b.mem mbinfo, Beside mbinfo ((mmapAddr b.mem mbinfo).toNat + 24 * i)) :
    ∃ b', (forMmap mbinfo 0 fun i =>
      insertMmap ((mmapAddr b.mem mbinfo).toNat + 24 * i) i).run b = .ok ((), b') ∧
      Sorts b.mem mbinfo b' := by
  have hround : ∀ i b', 0 ≤ i → i < mmapCount b.mem mbinfo → Inserted b.mem mbinfo b i b' →
      ∃ b'', (insertMmap ((mmapAddr b.mem mbinfo).toNat + 24 * i) i).run b' = .ok ((), b'') ∧
        Inserted b.mem mbinfo b (i + 1) b'' := by
    intro i b' _ hi h
    obtain ⟨b'', hrun⟩ := (insertMmap_returns h hp hi (by omega)).mpr (.inl (by omega))
    exact ⟨b'', hrun, insertMmap_ensures hp hi h hrun⟩
  obtain ⟨b', hrun, h⟩ := forMmap_run 0 (fun i b' h => ⟨h.count, by rw [h.size]; omega⟩)
    (Nat.zero_le _) hround (inserted_zero rfl)
  refine ⟨b', hrun, ⟨mapOrder b.mem mbinfo _, mapOrder_perm .., mapOrder_sorted .., h.list⟩, h.done,
    fun i hi => ?_⟩
  rw [h.done i hi]
  exact MemoryMap.known_type _

/-! ### The end of the array -/

/-- The rounds of a loop before round `i`. -/
def roundsBefore (mbinfo start : Nat) (body : Nat → Bm Unit) (i : Nat) : Bm Unit :=
  (List.range' start (i - start)).forM fun j => do
    if j < mmapCount (← get).mem mbinfo then body j

/-- The first loop up to round `i`. -/
def insertRounds (m : Bytes) (mbinfo i : Nat) : Bm Unit :=
  roundsBefore mbinfo 0 (fun j => insertMmap ((mmapAddr m mbinfo).toNat + 24 * j) j) i

/-- `multiboot_read` uses the elements of its array only, and follows no null pointer.  In round `i`
the first loop follows the pointers before `i`, and the second one two neighbours; the third one
looks whether a pointer is null. -/
structure StaysInside (mbinfo : Nat) (b : Boot) : Prop where
  /-- No index is beyond the end of the array. -/
  returns : ∃ b', (multibootRead mbinfo).run b = .ok ((), b')
  compared : ∀ i < mmapCount b.mem mbinfo, ∃ b', (insertRounds b.mem mbinfo i).run
    { b with mmapSize := mmapCount b.mem mbinfo } = .ok ((), b') ∧ ∀ j < i, b'.mmapList j ≠ 0
  merged : ∀ i, 0 < i → i < mmapCount b.mem mbinfo → ∃ b', (do
      insertRounds b.mem mbinfo (mmapCount b.mem mbinfo)
      roundsBefore mbinfo 1 sanitizeMmap i : Bm Unit).run
    { b with mmapSize := mmapCount b.mem mbinfo } = .ok ((), b') ∧
      b'.mmapList (i - 1) ≠ 0 ∧ b'.mmapList i ≠ 0

/-- Rounds that succeed. -/
theorem roundsBefore_run {start : Nat} {body : Nat → Bm Unit} {I : Nat → Boot → Prop}
    (hI : ∀ i b, I i b → mmapCount b.mem mbinfo = n) (hle : start ≤ i) (hi : i ≤ n)
    (hbody : ∀ i b, start ≤ i → i < n → I i b →
      ∃ b', (body i).run b = .ok ((), b') ∧ I (i + 1) b') (h : I start b) :
    ∃ b', (roundsBefore mbinfo start body i).run b = .ok ((), b') ∧ I i b' := by
  have hround : ∀ j b, start ≤ j → j < start + (i - start) → I j b → ∃ b',
      (do if j < mmapCount (← get).mem mbinfo then body j : Bm Unit).run b = .ok ((), b') ∧
        I (j + 1) b' := by
    intro j b h1 h2 hb
    rw [bind_get, hI j b hb, if_pos (by omega)]
    exact hbody j b h1 (by omega) hb
  obtain ⟨b', hrun, hb'⟩ := forM_range'_run hround h
  exact ⟨b', hrun, by rwa [show start + (i - start) = i by omega] at hb'⟩

/-- **A round of the second loop** succeeds, and finds two pointers. -/
theorem sanitizeMmap_returns {es : List MemoryMap} (h : Sanitizing mbinfo n b₀ es i b) (h1 : 1 ≤ i)
    (hi : i < n) : (∃ b', (sanitizeMmap i).run b = .ok ((), b')) ∧
      b.mmapList (i - 1) ≠ 0 ∧ b.mmapList i ≠ 0 := by
  have hsize : i < b.mmapSize := by rw [h.steady.size]; exact hi
  refine ⟨?_, ?_⟩
  · rw [sanitizeMmap, bind_ok (readMmap_run (by omega)), bind_ok (readMmap_run hsize),
      bind_ok getMap_run, bind_ok getMap_run]
    split
    · rw [bind_ok storeMap_run, bind_ok storeMap_run, bind_ok getMap_run,
        bind_ok storeMap_run, bind_ok getMap_run, bind_ok storeMap_run]
      exact ⟨_, writeMmap_run (show i - 1 < b.mmapSize by omega)⟩
    · split
      · exact ⟨_, rfl⟩
      · exact ⟨_, rfl⟩
  · obtain ⟨-, done, a, rest, hdone, hlen, ht, -⟩ := h
    cases rest with
    | nil =>
      rw [length_nil] at hlen
      omega
    | cons a' rest =>
      obtain ⟨hprev, hthis, -⟩ := ht.neighbours
      have ha := (ht.valid a (by simp)).1
      have ha' := (ht.valid a' (by simp)).1
      rw [show i - 1 = done.length by omega, show i = done.length + 1 by omega, hprev, hthis]
      exact ⟨ha, ha'⟩

/-- No entry has a higher address than the last one of the map. -/
def LastHighest (m : Bytes) (mbinfo : Nat) : Prop :=
  ∀ i, i + 1 = mmapCount m mbinfo → ∀ j < i,
    ¬ (mmapEntry m mbinfo i).addr < (mmapEntry m mbinfo j).addr

/-- A round of the first loop, in an array that has room for the entries. -/
theorem insertMmap_last (hp : Placed m mbinfo) (hsize : b₀.mmapSize = mmapCount m mbinfo)
    (hlast : LastHighest m mbinfo) (hi : i < mmapCount m mbinfo) (h : Inserted m mbinfo b₀ i b) :
    ∃ b', (insertMmap ((mmapAddr m mbinfo).toNat + 24 * i) i).run b = .ok ((), b') ∧
      Inserted m mbinfo b₀ (i + 1) b' := by
  have hroom : i + 1 < b₀.mmapSize ∨
      ∀ j < i, ¬ (mmapEntry m mbinfo i).addr < (mmapEntry m mbinfo j).addr := by
    rcases Nat.lt_or_ge (i + 1) (mmapCount m mbinfo) with hlt | hge
    · exact .inl (by omega)
    · exact .inr (hlast i (by omega))
  obtain ⟨b', hrun⟩ := (insertMmap_returns h hp.beside hi (by omega)).mpr hroom
  exact ⟨b', hrun, insertMmap_ensures hp.beside hi h hrun⟩

theorem Inserted.list_ne_zero (h : Inserted m mbinfo b₀ i b) (hp : Placed m mbinfo) {j : Nat}
    (hj : j < i) : b.mmapList j ≠ 0 := by
  obtain ⟨k, hk⟩ : ∃ k, (mapOrder m mbinfo i)[j]? = some k :=
    ⟨_, getElem?_eq_getElem (by rwa [mapOrder_length])⟩
  have := hp.addr
  rw [h.list j k hk]
  omega

/-- **If no entry has a higher address than the last one, all loops succeed.** -/
theorem LastHighest.stays (hlast : LastHighest b.mem mbinfo) (hp : Placed b.mem mbinfo) :
    StaysInside mbinfo b := by
  generalize hm : b.mem = m at hlast hp
  generalize hb0 : { b with mmapSize := mmapCount b.mem mbinfo } = b₀
  have hmem : b₀.mem = m := by rw [← hb0, ← hm]
  have hsize : b₀.mmapSize = mmapCount m mbinfo := by rw [← hb0, ← hm]
  have hround : ∀ i b, 0 ≤ i → i < mmapCount m mbinfo → Inserted m mbinfo b₀ i b → ∃ b',
      (insertMmap ((mmapAddr m mbinfo).toNat + 24 * i) i).run b = .ok ((), b') ∧
        Inserted m mbinfo b₀ (i + 1) b' := fun i b _ hi h => insertMmap_last hp hsize hlast hi h
  have hsanitize : ∀ i b, 1 ≤ i → i < mmapCount m mbinfo →
      Sanitizing mbinfo (mmapCount m mbinfo) b₀ (sortMap (mapEntries m mbinfo)) i b → ∃ b',
      (sanitizeMmap i).run b = .ok ((), b') ∧
        Sanitizing mbinfo (mmapCount m mbinfo) b₀ (sortMap (mapEntries m mbinfo)) (i + 1) b' := by
    intro i b h1 hi h
    obtain ⟨⟨b', hrun⟩, -⟩ := sanitizeMmap_returns h h1 hi
    exact ⟨b', hrun, sanitizeMmap_ensures h1 hi h hrun⟩
  -- the first two loops
  obtain ⟨b1, hloop1, hb1⟩ := forMmap_run 0 (I := Inserted m mbinfo b₀)
    (fun i b h => ⟨h.count, (h.size.trans hsize).ge⟩) (Nat.zero_le _) hround (inserted_zero hmem)
  obtain ⟨b2, hloop2, hb2⟩ : ∃ b2, (forMmap mbinfo 1 sanitizeMmap).run b1 = .ok ((), b2) ∧
      Summing mbinfo b₀ (sanitize (sortMap (mapEntries m mbinfo))) 0 b2 := by
    rcases Nat.eq_zero_or_pos (mmapCount m mbinfo) with hn | hn
    · exact ⟨b1, (hb1.sorting hsize).summing_nil hp hn⟩
    · obtain ⟨b2, hrun, hb2⟩ := forMmap_run 1 (fun i b h => ⟨h.steady.count, h.steady.size.ge⟩) hn
        hsanitize ((hb1.sorting hsize).sanitizing hp hn)
      exact ⟨b2, hrun, hb2.summing⟩
  refine ⟨?_, ?_, ?_⟩
  · have hsum : ∀ i b, 0 ≤ i → i < (sanitize (sortMap (mapEntries m mbinfo))).length →
        Summing mbinfo b₀ (sanitize (sortMap (mapEntries m mbinfo))) i b → ∃ b',
        (sumMmap i).run b = .ok ((), b') ∧
          Summing mbinfo b₀ (sanitize (sortMap (mapEntries m mbinfo))) (i + 1) b' := by
      intro i b _ hi h
      have hrun := sumMmap_run (show i < b.mmapSize by rw [h.size]; exact hi)
      exact ⟨_, hrun, sumMmap_ensures hi h hrun⟩
    obtain ⟨b3, hloop3, -⟩ := forMmap_run 0 (fun i b h => ⟨h.count, h.size.ge⟩) (Nat.zero_le _)
      hsum hb2
    refine ⟨b3, ?_⟩
    rw [multibootRead, bind_get, bind_ok (a := ()) rfl]
    dsimp only
    rw [hb0, hm, bind_ok hloop1, bind_ok hloop2]
    exact hloop3
  · rw [hb0, hm]
    intro i hi
    obtain ⟨b', hrun, h⟩ := roundsBefore_run (fun i b h => h.count) (Nat.zero_le i) hi.le hround
      (inserted_zero hmem)
    exact ⟨b', hrun, fun j hj => h.list_ne_zero hp hj⟩
  · rw [hb0, hm]
    intro i h1 hi
    obtain ⟨b', hrun, h⟩ := roundsBefore_run (fun i b h => h.count) (Nat.zero_le _) (Nat.le_refl _) hround
      (inserted_zero hmem)
    obtain ⟨b'', hrun', h'⟩ := roundsBefore_run (fun i b h => h.steady.count) h1 hi.le hsanitize
      ((h.sorting hsize).sanitizing hp (by omega))
    refine ⟨b'', ?_, (sanitizeMmap_returns h' h1 hi).2⟩
    rw [insertRounds, bind_ok hrun]
    exact hrun'

/-- A loop that succeeds comes to each of its rounds. -/
theorem forMmap_visits {start : Nat} {body : Nat → Bm Unit} {I : Nat → Boot → Prop} {u : Unit}
    (hI : ∀ i b, I i b → mmapCount b.mem mbinfo = n ∧ b.mmapSize = n)
    (hbody : ∀ i, start ≤ i → i < n → Ensures (I i) (body i) fun _ => I (i + 1)) (h : I start b)
    (h1 : start ≤ i) (hi : i < n) (hrun : (forMmap mbinfo start body).run b = .ok (u, b')) :
    ∃ b1 b2, I i b1 ∧ (body i).run b1 = .ok ((), b2) := by
  have hround : ∀ j, start ≤ j → j < start + (i - start) → Ensures (I j)
      (do if j < mmapCount (← get).mem mbinfo then body j : Bm Unit) fun _ => I (j + 1) := by
    intro j h1 h2 b u b' hb hrun
    rw [bind_get, (hI j b hb).1, if_pos (by omega)] at hrun
    exact hbody j h1 (by omega) hb hrun
  have hsplit : List.range' start (n + 1 - start) =
      List.range' start (i - start) ++ i :: List.range' (i + 1) (n - i) := by
    have happ := range'_append_1 (s := start) (m := i - start) (n := n - i + 1)
    rw [show start + (i - start) = i by omega, range'_succ] at happ
    rw [happ, show i - start + (n - i + 1) = n + 1 - start by omega]
  rw [forMmap, bind_get, (hI _ _ h).2] at hrun
  dsimp only at hrun
  rw [hsplit, forM_eq_forM, forM_append] at hrun
  obtain ⟨_, b1, hpre, hrest⟩ := bind_inv hrun
  have hb1 := Ensures.forM_range' start (i - start) hround h hpre
  rw [show start + (i - start) = i by omega] at hb1
  rw [forM_cons] at hrest
  obtain ⟨_, b2, hrest, -⟩ := bind_inv hrest
  rw [bind_get, (hI i b1 hb1).1, if_pos hi] at hrest
  exact ⟨b1, b2, hb1, hrest⟩

/-- **`multiboot_read` stays inside its array** if and only if no entry has a higher address than the
last one of the map. -/
theorem multibootRead_inside (hp : Placed b.mem mbinfo) :
    StaysInside mbinfo b ↔ LastHighest b.mem mbinfo := by
  refine ⟨fun h i hi => ?_, fun h => h.stays hp⟩
  obtain ⟨b', hrun⟩ := h.returns
  rw [multibootRead, bind_get, bind_ok (a := ()) rfl] at hrun
  obtain ⟨_, b₁, hloop, -⟩ := bind_inv hrun
  -- the round of the last entry
  obtain ⟨b₂, b₃, hb₂, hlast⟩ := forMmap_visits (i := i)
    (I := Inserted b.mem mbinfo { b with mmapSize := mmapCount b.mem mbinfo })
    (fun i b h => ⟨h.count, h.size⟩) (fun i _ hi => insertMmap_ensures hp.beside hi)
    (inserted_zero rfl) (Nat.zero_le i) (by omega) hloop
  have hiff := insertMmap_returns hb₂ hp.beside (by omega) (show i < mmapCount b.mem mbinfo by omega)
  exact (hiff.mp ⟨b₃, hlast⟩).resolve_left fun h' => by
    change i + 1 < mmapCount b.mem mbinfo at h'
    omega

/-! ### Maps -/

/-- Two entries in the wrong order, the first of a type that is not known. -/
def swappedMap : Bytes :=
  wordsAt (mapHeader 2 ++ region 0x100000 0xF00000 7 ++ region 0 0xA0000 mbTypeUsable)

theorem swappedMap_placed : Placed swappedMap 0x1000 :=
  ⟨by decide +kernel, by decide +kernel⟩

/-- With an element to spare they are sorted. -/
theorem insertLoop_sorts_swapped : ∃ b', (forMmap 0x1000 0 fun i =>
      insertMmap ((mmapAddr swappedMap 0x1000).toNat + 24 * i) i).run
        ⟨swappedMap, 3, fun _ => 0, 0, 0⟩ = .ok ((), b') ∧ Sorts swappedMap 0x1000 b' :=
  insertLoop_sorts (b := ⟨swappedMap, 3, fun _ => 0, 0, 0⟩) (by decide +kernel)
    swappedMap_placed.beside

/-- A map in order. -/
theorem multibootRead_inside_solid : Placed solidMap 0x1000 ∧
    StaysInside 0x1000 ⟨solidMap, 0, fun _ => 0, 0, 0⟩ := by
  have hp : Placed solidMap 0x1000 := ⟨by decide +kernel, by decide +kernel⟩
  refine ⟨hp, (multibootRead_inside (b := ⟨solidMap, 0, fun _ => 0, 0, 0⟩) hp).mpr fun i hi => ?_⟩
  have hcount : mmapCount solidMap 0x1000 = 3 := by decide +kernel
  obtain rfl : i = 2 := by
    rw [hcount] at hi
    omega
  decide +kernel

/-- **The array is left** when the last entry has to move: with two entries, the element that does not
exist is the third. -/
theorem swappedMap_overrun : Placed swappedMap 0x1000 ∧ mmapCount swappedMap 0x1000 = 2 ∧
    (multibootRead 0x1000).run ⟨swappedMap, 0, fun _ => 0, 0, 0⟩ = .error (.mmapList 2) ∧
    ¬ StaysInside 0x1000 ⟨swappedMap, 0, fun _ => 0, 0, 0⟩ := by
  have hfail : (multibootRead 0x1000).run ⟨swappedMap, 0, fun _ => 0, 0, 0⟩ =
      .error (.mmapList 2) :=
    Fails.eq_error (by decide +kernel)
  refine ⟨swappedMap_placed, by decide +kernel, hfail, fun h => ?_⟩
  obtain ⟨b', hrun⟩ := h.returns
  cases hrun

end JosVmm
