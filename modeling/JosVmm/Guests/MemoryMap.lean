import JosVmm.Boot.Totals
import JosVmm.Ept.Update
import JosVmm.Guests.Exits

/-!
# Guests — the memory map

A guest asks with the call `MBMAP` for the map of its memory.  The VMM lays a `multiboot_info_t` and
three entries out in a page; the guest kernel decodes them with `multiboot_read`.

* `multibootRead_tidy`: on a map whose entries are in order, of known types, and neither overlap
  nor could be merged, `multiboot_read` sums the usable lengths and changes nothing;
* `mbmap_page`: what the page of the call holds;
* `multibootRead_mbmap`: the guest kernel finds the sizes that the VMM means;
* `usable_eq_served`: the addresses that the map gives as usable are those for which an EPT
  violation is served with a page of memory, exactly if the guest has at least a megabyte.
-/

namespace JosVmm
open Support Support.Radix Support.Prog Function List BitVec

/-! ### Decoding -/

section decode

variable {b b' : Boot} {m : Bytes} {mbinfo i j a : Nat} {e : MemoryMap}

/-- An entry above all others is placed last. -/
theorem placeMmap_run {addr : Word} (hi : i ≤ b.mmapSize)
    (h : ∀ j < i, ¬ addr < (loadMap b.mem (b.mmapList j)).addr) :
    ∀ n ≤ i, (placeMmap addr i n).run b = .ok (i, b)
  | 0, _ => rfl
  | n + 1, hn => by
    rw [placeMmap, bind_ok (readMmap_run (by omega)), bind_ok getMap_run, if_neg (h _ (by omega))]
    exact placeMmap_run hi h n (by omega)

/-- A map that needs no tidying up. -/
structure Tidy (m : Bytes) (mbinfo : Nat) : Prop where
  addr : (mmapAddr m mbinfo).toNat ≠ 0
  count : 0 < mmapCount m mbinfo
  type : ∀ i < mmapCount m mbinfo,
    ¬ (5#32 < (mmapEntry m mbinfo i).type ∨ (mmapEntry m mbinfo i).type < 1#32)
  sorted : ∀ i < mmapCount m mbinfo, ∀ j < i,
    ¬ (mmapEntry m mbinfo i).addr < (mmapEntry m mbinfo j).addr
  apart : ∀ i, i + 1 < mmapCount m mbinfo →
    ¬ ((mmapEntry m mbinfo i).addr + (mmapEntry m mbinfo i).len = (mmapEntry m mbinfo (i + 1)).addr ∧
      (mmapEntry m mbinfo i).type = (mmapEntry m mbinfo (i + 1)).type) ∧
    ¬ (mmapEntry m mbinfo (i + 1)).addr < (mmapEntry m mbinfo i).addr + (mmapEntry m mbinfo i).len

/-- The state of a run on the map in `m`: `mmap_list` has its first `i` entries in order. -/
structure Listed (m : Bytes) (mbinfo i : Nat) (b : Boot) : Prop where
  mem : b.mem = m
  size : b.mmapSize = mmapCount m mbinfo
  list : ∀ j < i, b.mmapList j = (mmapAddr m mbinfo).toNat + 24 * j

theorem Listed.counted (h : Listed m mbinfo i b) :
    mmapCount b.mem mbinfo = mmapCount m mbinfo ∧ mmapCount m mbinfo ≤ b.mmapSize :=
  ⟨by rw [h.mem], h.size.ge⟩

theorem Listed.entry (h : Listed m mbinfo i b) (hj : j < i) :
    loadMap b.mem (b.mmapList j) = mmapEntry m mbinfo j := by
  rw [h.mem, h.list j hj, mmapEntry]

/-- What the third loop has summed up before entry `i`. -/
structure Summed (m : Bytes) (mbinfo : Nat) (b₀ : Boot) (i : Nat) (b : Boot) : Prop where
  listed : Listed m mbinfo (mmapCount m mbinfo) b
  basemem : b.basemem = b₀.basemem + ((List.range i).map fun j => (mmapEntry m mbinfo j).base).sum
  extmem : b.extmem = b₀.extmem + ((List.range i).map fun j => (mmapEntry m mbinfo j).ext).sum

theorem insertMmap_run (ht : Tidy m mbinfo) (hi : i < mmapCount m mbinfo)
    (h : Listed m mbinfo i b) : ∃ b',
    (insertMmap ((mmapAddr m mbinfo).toNat + 24 * i) i).run b = .ok ((), b') ∧
      Listed m mbinfo (i + 1) b' ∧ b'.basemem = b.basemem ∧ b'.extmem = b.extmem := by
  have hsz : i < b.mmapSize := h.size ▸ hi
  rw [insertMmap, bind_ok getMap_run, h.mem, ← mmapEntry]
  dsimp only
  rw [if_neg (ht.type i hi), bind_ok (placeMmap_run (Nat.le_of_lt hsz) (fun j hj => by
    rw [h.entry hj]
    exact ht.sorted i hi j hj) i (Nat.le_refl i)), writeMmap_run hsz]
  refine ⟨_, rfl, ⟨h.mem, h.size, fun j hj => ?_⟩, rfl, rfl⟩
  change update b.mmapList i _ j = _
  by_cases hji : j = i
  · rw [hji, update_self]
  · rw [update_of_ne hji]
    exact h.list j (by omega)

theorem sanitizeMmap_run (ht : Tidy m mbinfo) (hi : i + 1 < mmapCount m mbinfo)
    (h : Listed m mbinfo (mmapCount m mbinfo) b) : (sanitizeMmap (i + 1)).run b = .ok ((), b) := by
  have hsz : i + 1 < b.mmapSize := h.size ▸ hi
  obtain ⟨hmerge, hover⟩ := ht.apart i hi
  rw [sanitizeMmap, Nat.add_sub_cancel, bind_ok (readMmap_run (by omega)),
    bind_ok (readMmap_run hsz), bind_ok getMap_run, bind_ok getMap_run,
    h.entry (by omega), h.entry hi, if_neg hmerge, if_neg hover]
  rfl

theorem Listed.sumMmap (h : Listed m mbinfo (mmapCount m mbinfo) b) (ht : Tidy m mbinfo)
    (hi : i < mmapCount m mbinfo) : (JosVmm.sumMmap i).run b = .ok ((), { b with
      basemem := b.basemem + (mmapEntry m mbinfo i).base
      extmem := b.extmem + (mmapEntry m mbinfo i).ext }) := by
  have hne : b.mmapList i ≠ 0 := by
    have := ht.addr
    rw [h.list i hi]
    omega
  rw [sumMmap_run (h.size ▸ hi), if_neg hne, h.entry hi]

theorem Summed.step {b₀ : Boot} (h : Summed m mbinfo b₀ i b) : Summed m mbinfo b₀ (i + 1) { b with
    basemem := b.basemem + (mmapEntry m mbinfo i).base
    extmem := b.extmem + (mmapEntry m mbinfo i).ext } := by
  refine ⟨⟨h.listed.mem, h.listed.size, h.listed.list⟩, ?_, ?_⟩
  · rw [h.basemem, range_succ, map_append, sum_append, map_singleton, sum_singleton, ← add_assoc]
  · rw [h.extmem, range_succ, map_append, sum_append, map_singleton, sum_singleton, ← add_assoc]

/-- **`multiboot_read`** on a tidy map: the entries are listed in order, nothing else changes, and
the usable lengths are summed. -/
theorem multibootRead_tidy (ht : Tidy b.mem mbinfo) : ∃ b',
    (multibootRead mbinfo).run b = .ok ((), b') ∧
      Summed b.mem mbinfo b (mmapCount b.mem mbinfo) b' := by
  generalize hm : b.mem = m at ht
  rw [multibootRead, bind_get, bind_ok (a := ()) rfl, hm]
  dsimp only
  obtain ⟨b1, h1, hl1, hb1, he1⟩ := forMmap_run 0
    (b := { b with mmapSize := mmapCount b.mem mbinfo })
    (I := fun i b' => Listed m mbinfo i b' ∧ b'.basemem = b.basemem ∧ b'.extmem = b.extmem)
    (fun i b' h => h.1.counted) (Nat.zero_le _)
    (fun i b' _ hi h => by
      obtain ⟨b'', hrun, hl, hb, he⟩ := insertMmap_run ht hi h.1
      exact ⟨b'', hrun, hl, hb.trans h.2.1, he.trans h.2.2⟩)
    ⟨⟨hm, by rw [hm], fun j hj => by cases hj⟩, rfl, rfl⟩
  obtain ⟨b2, h2, rfl⟩ := forMmap_run 1 (b := b1) (I := fun _ b' => b' = b1)
    (fun i b' h => h ▸ hl1.counted) ht.count
    (fun i b' h0 hi h => by
      obtain ⟨i, rfl⟩ := Nat.exists_eq_add_of_le' h0
      rw [h]
      exact ⟨b1, sanitizeMmap_run ht hi hl1, rfl⟩) rfl
  obtain ⟨b3, h3, hs⟩ := forMmap_run 0 (b := b2) (I := Summed m mbinfo b)
    (fun i b' h => h.listed.counted) (Nat.zero_le _)
    (fun i b' _ hi h => ⟨_, h.listed.sumMmap ht hi, h.step⟩)
    ⟨hl1, by rw [hb1]; simp, by rw [he1]; simp⟩
  rw [bind_ok h1, bind_ok h2]
  exact ⟨b3, h3, hs⟩

end decode

/-! ### The page of the call -/

section layout

variable {F : Layout 512} {s s' : Pmap} {L : List Nat} {r p : Nat} {physSz : Word}
  {stack : Fin 13 → BitVec 32}

/-- Byte `i` of the page `p`. -/
def pageByte (m : Nat → Word) (p i : Nat) : BitVec 8 :=
  (m (p * 512 + i / 8) >>> (8 * (i % 8))).setWidth 8

theorem bytes_append (w : Word) : (w >>> 24).setWidth 8 ++ (w >>> 16).setWidth 8 ++
    (w >>> 8).setWidth 8 ++ w.setWidth 8 = (w.setWidth 32 : BitVec (8 + 8 + 8 + 8)) := by
  refine eq_of_getLsbD_eq fun i hi => ?_
  simp only [getLsbD_append, getLsbD_setWidth, getLsbD_ushiftRight]
  grind

/-- The 4-byte values of a page, where the page is seen at `base`. -/
theorem load32_page {m : Bytes} {w : Nat → Word} {base k : Nat}
    (h : ∀ i < 4096, m (base + i) = pageByte w p i) (hk : k < 1024) :
    load32 m (base + 4 * k) = dwordAt w (2 * (p * 512) + k) := by
  have hbyte : ∀ j < 4, m (base + 4 * k + j) =
      (w (p * 512 + k / 2) >>> (8 * (4 * (k % 2) + j))).setWidth 8 := fun j hj => by
    rw [Nat.add_assoc, h _ (by omega), pageByte, show (4 * k + j) / 8 = k / 2 by omega,
      show (4 * k + j) % 8 = 4 * (k % 2) + j by omega]
  rw [load32, hbyte 3 (by omega), hbyte 2 (by omega), hbyte 1 (by omega), ← Nat.add_zero (base + 4 * k),
    hbyte 0 (by omega), dwordAt, show (2 * (p * 512) + k) / 2 = p * 512 + k / 2 by omega,
    show (2 * (p * 512) + k) % 2 = k % 2 by omega]
  rcases Nat.mod_two_eq_zero_or_one k with hk | hk
  · rw [hk, if_pos rfl]
    exact bytes_append _
  · rw [hk, if_neg (by decide), ← bytes_append]
    rfl

/-- **What the page of the call holds**: `mbinfo` and the three entries. -/
theorem mbmap_page (stack : Fin 13 → BitVec 32) (physSz : Word) (h : Wf F s (p :: L))
    (hn : F.Node r (vpn multibootMapAddr).path) : ∃ s',
    (mbmap stack (some (r * 512)) physSz).run s = .ok (true, s') ∧
      ∀ i d, (mbinfo stack ++ bootMap physSz)[i]? = some d →
        dwordAt s'.mem (2 * (p * 512) + i) = d := by
  have hlt : p < s.npages := h.lt p (mem_cons_self ..)
  have hL : p ∉ L := (List.nodup_cons.mp h.nodup).1
  have hT : ¬ F.IsTable dec s.mem p := fun hp => h.table_not_free p hp (mem_cons_self ..)
  generalize hs1 : (s.take p).setRef p ((s.take p).ppRef p + 1#16) = s1
  have hmem : s1.mem = s.mem := by rw [← hs1]; rfl
  have hnp : s1.npages = s.npages := by rw [← hs1]; rfl
  have h1 : Wf F s1 L := h.take.setFree (hs1 ▸ h.toFreeList.take.setRef hL _) hmem hnp
  have hcount : (incRef p).run (s.take p) = .ok ((), s1) := hs1 ▸ incRef_run _ p
  obtain ⟨w, hw, hag, hd⟩ := copyDwords_run (p := p) (mbinfo stack ++ bootMap physSz) 0 (s := s1)
    (hnp ▸ hlt) (by rw [mbmap_length]; decide)
  -- the copy changes no table, so the page can be mapped
  have hT1 : ¬ F.IsTable dec (s1.withMem w).mem p ∧ Wf F (s1.withMem w) L := by
    have hoff : ∀ t, F.IsTable dec s1.mem t → ∀ i : Fin 512, w (slot t i) = s1.mem (slot t i) :=
      fun t ht i => hag _ (by
        rw [slot_div]
        rintro rfl
        exact hT (hmem ▸ ht))
    refine ⟨fun hp => hT ?_, h1.setMem hoff⟩
    rw [← hmem]
    exact (Layout.isTable_congr fun r π hn => Layout.tableAt_agree hoff hn).mp hp
  obtain ⟨res, s2, hins⟩ : ∃ res s2, (eptPageInsert (some (r * 512)) p multibootMapAddr
      (epteFull.setWidth 32) true).run (s1.withMem w) = .ok (res, s2) := by
    obtain ⟨hok, hfail⟩ := eptPageInsert_spec p (epteFull.setWidth 32) true hT1.2 hn (by decide)
      (by decide)
    rcases Nat.lt_or_ge L.length (missing dec (s1.withMem w).mem r (vpn multibootMapAddr).path)
      with hlt | hle
    · obtain ⟨m, hm, -⟩ := hfail hlt
      exact ⟨_, _, hm⟩
    · obtain ⟨s2, new, L', t₁, t₂, u, -, -, -, -, -, hm⟩ := hok hle
      exact ⟨_, _, hm.trans (if_neg fun h => Bool.noConfusion h.2)⟩
  refine ⟨s2, ?_, fun i d hi => ?_⟩
  · rw [mbmap, bind_ok (h.toFreeList.pageAlloc false)]
    dsimp only
    rw [show s.handOut false p = s.take p from rfl, bind_ok hcount, page2kva,
      bind_ok (kaddr_page2pa (hnp ▸ hlt)), copyDwords, bind_ok hw, bind_ok hins]
    rfl
  · have hlen : i < 31 := by
      rw [← mbmap_length stack physSz]
      exact (List.getElem?_eq_some_iff.mp hi).1
    have hpage : ∀ a, a / 512 = p → s2.mem a = w a := fun a ha =>
      eptPageInsert_frame hT1.2 hn (by decide) hins hL hT1.1 ha
    rw [dwordAt, hpage _ (by omega), ← dwordAt, hd, if_pos (Nat.zero_le i), Nat.sub_zero, hi]
    rfl

/-! ### The guest kernel reads the map -/

/-- An entry for the region of the given base and length. -/
def regionMap (base length : Word) (type : BitVec 32) : MemoryMap where
  size := 20#32
  baseAddrLow := base.setWidth 32
  baseAddrHigh := (base >>> 32).setWidth 32
  lengthLow := length.setWidth 32
  lengthHigh := (length >>> 32).setWidth 32
  type := type

section

variable (base length : Word) (type : BitVec 32)
include base length type

theorem regionMap_addr : (regionMap base length type).addr = base := appendHilo_split base

theorem regionMap_len : (regionMap base length type).len = length := appendHilo_split length

theorem regionMap_type : (regionMap base length type).type = type := rfl

end

/-- The three entries of the call. -/
theorem decodeMaps_bootMap (physSz : Word) : decodeMaps (bootMap physSz) =
    [regionMap 0 iophysmem mbTypeUsable,
      regionMap iophysmem (extphysmem - iophysmem) mbTypeReserved,
      regionMap extphysmem (physSz - extphysmem) mbTypeUsable] := rfl

/-- The values of the call are at 0x6000. -/
def LaidOut (m : Bytes) (stack : Fin 13 → BitVec 32) (physSz : Word) : Prop :=
  ∀ i d, (mbinfo stack ++ bootMap physSz)[i]? = some d →
    load32 m (multibootMapAddr.toNat + 4 * i) = d

variable {m : Bytes}

theorem LaidOut.mmapAddr (h : LaidOut m stack physSz) : mmapAddr m 0x6000 = 0x6034#32 :=
  h 12 _ rfl

theorem LaidOut.mmapCount (h : LaidOut m stack physSz) : mmapCount m 0x6000 = 3 := by
  rw [JosVmm.mmapCount, show load32 m (0x6000 + 44) = 72#32 from h 11 _ rfl]
  rfl

/-- An entry of an array is its six values. -/
theorem decodeMaps_getElem? {e : MemoryMap} : ∀ {l : List (BitVec 32)} {i : Nat},
    (decodeMaps l)[i]? = some e → l[6 * i]? = some e.size ∧ l[6 * i + 1]? = some e.baseAddrLow ∧
      l[6 * i + 2]? = some e.baseAddrHigh ∧ l[6 * i + 3]? = some e.lengthLow ∧
      l[6 * i + 4]? = some e.lengthHigh ∧ l[6 * i + 5]? = some e.type := by
  intro l
  fun_induction decodeMaps l with
  | case1 a b c d x y l ih =>
    intro i hi
    cases i with
    | zero =>
      obtain rfl := Option.some.inj hi
      exact ⟨rfl, rfl, rfl, rfl, rfl, rfl⟩
    | succ i => exact ih (i := i) hi
  | case2 => nofun

section

variable (h : LaidOut m stack physSz)
include h

theorem LaidOut.entry {i : Nat} {e : MemoryMap} (hi : (decodeMaps (bootMap physSz))[i]? = some e) :
    mmapEntry m 0x6000 i = e := by
  have hv : ∀ j d, (bootMap physSz)[6 * i + j]? = some d →
      load32 m (0x6034 + 24 * i + 4 * j) = d := fun j d hj => by
    have hget : (mbinfo stack ++ bootMap physSz)[13 + (6 * i + j)]? = some d := by
      rw [getElem?_append_right (by simp [mbinfo])]
      simpa [mbinfo] using hj
    rw [← h _ _ hget]
    congr 1
    show 0x6034 + 24 * i + 4 * j = 0x6000 + 4 * (13 + (6 * i + j))
    omega
  obtain ⟨h0, h1, h2, h3, h4, h5⟩ := decodeMaps_getElem? hi
  have v1 : load32 m (0x6034 + 24 * i + 4) = _ := hv 1 _ h1
  have v2 : load32 m (0x6034 + 24 * i + 8) = _ := hv 2 _ h2
  have v3 : load32 m (0x6034 + 24 * i + 12) = _ := hv 3 _ h3
  have v4 : load32 m (0x6034 + 24 * i + 16) = _ := hv 4 _ h4
  have v5 : load32 m (0x6034 + 24 * i + 20) = _ := hv 5 _ h5
  rw [mmapEntry, h.mmapAddr, show (0x6034#32).toNat = 0x6034 from rfl, loadMap,
    show load32 m (0x6034 + 24 * i) = _ from hv 0 _ h0, v1, v2, v3, v4, v5]

theorem LaidOut.entries :
    mmapEntry m 0x6000 0 = regionMap 0 iophysmem mbTypeUsable ∧
      mmapEntry m 0x6000 1 = regionMap iophysmem (extphysmem - iophysmem) mbTypeReserved ∧
      mmapEntry m 0x6000 2 = regionMap extphysmem (physSz - extphysmem) mbTypeUsable :=
  ⟨h.entry (by rw [decodeMaps_bootMap]; rfl), h.entry (by rw [decodeMaps_bootMap]; rfl),
    h.entry (by rw [decodeMaps_bootMap]; rfl)⟩

/-- The map of the call needs no tidying up. -/
theorem LaidOut.tidy : Tidy m 0x6000 := by
  obtain ⟨h0, h1, h2⟩ := h.entries
  have hvalid : ∀ base length, ¬ (5#32 < (regionMap base length mbTypeUsable).type ∨
      (regionMap base length mbTypeUsable).type < 1#32) := fun _ _ => by
    show ¬ (5#32 < mbTypeUsable ∨ mbTypeUsable < 1#32)
    decide
  refine ⟨by rw [h.mmapAddr]; decide, by rw [h.mmapCount]; decide, ?_, ?_, ?_⟩
  · rw [h.mmapCount]
    intro i hi
    match i, hi with
    | 0, _ => exact h0 ▸ hvalid _ _
    | 1, _ => rw [h1]; decide
    | 2, _ => exact h2 ▸ hvalid _ _
  · rw [h.mmapCount]
    intro i hi j hj
    match i, j, hi, hj with
    | 1, 0, _, _ => rw [h1, h0, regionMap_addr, regionMap_addr]; decide
    | 2, 0, _, _ => rw [h2, h0, regionMap_addr, regionMap_addr]; decide
    | 2, 1, _, _ => rw [h2, h1, regionMap_addr, regionMap_addr]; decide
  · rw [h.mmapCount]
    intro i hi
    match i, hi with
    | 0, _ =>
      rw [h0, h1, regionMap_addr, regionMap_addr, regionMap_len]
      exact ⟨fun h => absurd h.2 (by decide), by decide⟩
    | 1, _ =>
      rw [h1, h2, regionMap_addr, regionMap_addr, regionMap_len]
      exact ⟨fun h => absurd (show mbTypeReserved = mbTypeUsable from h.2) (by decide), by decide⟩

end

theorem range_three : List.range 3 = [0, 1, 2] := rfl

/-- What the entries of the call add to the two sums. -/
theorem LaidOut.sums (h : LaidOut m stack physSz) :
    ((List.range 3).map fun i => (mmapEntry m 0x6000 i).base).sum = iophysmem ∧
      ((List.range 3).map fun i => (mmapEntry m 0x6000 i).ext).sum = physSz - extphysmem := by
  obtain ⟨h0, h1, h2⟩ := h.entries
  have hhigh : ¬ ((extphysmem.setWidth 32 : BitVec 32) < 0x100000#32 ∧
      ((extphysmem >>> 32).setWidth 32 : BitVec 32) = 0) := by decide
  have hbase : (regionMap extphysmem (physSz - extphysmem) mbTypeUsable).base = 0 :=
    if_neg fun h => hhigh h.2
  have hext : (regionMap extphysmem (physSz - extphysmem) mbTypeUsable).ext =
      physSz - extphysmem := (if_pos ⟨.inl rfl, hhigh⟩).trans (regionMap_len ..)
  simp only [range_three, map_cons, map_nil, sum_cons, sum_nil, h0, h1, h2, hbase, hext]
  refine ⟨by decide, ?_⟩
  rw [show (regionMap 0 iophysmem mbTypeUsable).ext = 0 by decide,
    show (regionMap iophysmem (extphysmem - iophysmem) mbTypeReserved).ext = 0 by decide, add_zero,
    zero_add, zero_add]

/-- **The call lays out the map**, for a guest that sees its page at 0x6000. -/
theorem mbmap_laidOut (stack : Fin 13 → BitVec 32) (physSz : Word) (h : Wf F s (p :: L))
    (hn : F.Node r (vpn multibootMapAddr).path) : ∃ s',
    (mbmap stack (some (r * 512)) physSz).run s = .ok (true, s') ∧
    ∀ m : Bytes, (∀ i < 4096, m (multibootMapAddr.toNat + i) = pageByte s'.mem p i) →
      LaidOut m stack physSz := by
  obtain ⟨s', hrun, hd⟩ := mbmap_page stack physSz h hn
  refine ⟨s', hrun, fun m hm i d hi => ?_⟩
  have hlen : i < 31 := by
    rw [← mbmap_length stack physSz]
    exact (List.getElem?_eq_some_iff.mp hi).1
  rw [load32_page hm (by omega), hd i d hi]

/-- **`multiboot_read` of the map.** -/
theorem LaidOut.multibootRead {b : Boot} (h : LaidOut b.mem stack physSz)
    (hsz : 2 ^ 20 ≤ physSz.toNat) (hbase : b.basemem = 0) (hext : b.extmem = 0) : ∃ b',
    (JosVmm.multibootRead 0x6000).run b = .ok ((), b') ∧ b'.mem = b.mem ∧
      b'.basemem.toNat = 0xA0000 ∧ b'.extmem.toNat = physSz.toNat - 0x100000 := by
  obtain ⟨b', hrun', hs⟩ := multibootRead_tidy h.tidy
  refine ⟨b', hrun', hs.listed.mem, ?_, ?_⟩
  · rw [hs.basemem, hbase, h.mmapCount, h.sums.1]
    rfl
  · rw [hs.extmem, hext, h.mmapCount, h.sums.2, zero_add, extphysmem]
    rw [toNat_sub]
    simp only [toNat_ofNat]
    omega

/-- **The guest kernel decodes what the VMM encodes.**  Wherever the page of the call is seen at
0x6000, `multiboot_read` finds the three entries there, and the sizes of base and extended
memory. -/
theorem multibootRead_mbmap (h : Wf F s (p :: L)) (hn : F.Node r (vpn multibootMapAddr).path)
    (hsz : 2 ^ 20 ≤ physSz.toNat) : ∃ s',
    (mbmap stack (some (r * 512)) physSz).run s = .ok (true, s') ∧
    ∀ b : Boot, (∀ i < 4096, b.mem (multibootMapAddr.toNat + i) = pageByte s'.mem p i) →
      b.basemem = 0 → b.extmem = 0 →
      mmapAddr b.mem multibootMapAddr.toNat = 0x6034#32 ∧
      (List.range (mmapCount b.mem multibootMapAddr.toNat)).map
        (mmapEntry b.mem multibootMapAddr.toNat) = decodeMaps (bootMap physSz) ∧
      ∃ b', (multibootRead multibootMapAddr.toNat).run b = .ok ((), b') ∧ b'.mem = b.mem ∧
        b'.basemem.toNat = 0xA0000 ∧ b'.extmem.toNat = physSz.toNat - 0x100000 := by
  obtain ⟨s', hrun, hlaid⟩ := mbmap_laidOut stack physSz h hn
  refine ⟨s', hrun, fun b hb hbase hext => ?_⟩
  have hl := hlaid b.mem hb
  obtain ⟨h₀, h₁, h₂⟩ := hl.entries
  rw [show multibootMapAddr.toNat = 0x6000 from rfl]
  refine ⟨hl.mmapAddr, ?_, hl.multibootRead hsz hbase hext⟩
  rw [hl.mmapCount, decodeMaps_bootMap, ← h₀, ← h₁, ← h₂]
  rfl

/-- A guest of 16 megabytes. -/
theorem multibootRead_mbmap_sixteen : ∃ s',
    (mbmap (fun _ => 0) (some (7 * 512)) 0x1000000#64).run eightPages = .ok (true, s') ∧
    ∀ b : Boot, (∀ i < 4096, b.mem (multibootMapAddr.toNat + i) = pageByte s'.mem 1 i) →
      b.basemem = 0 → b.extmem = 0 →
      ∃ b', (multibootRead multibootMapAddr.toNat).run b = .ok ((), b') ∧
        b'.basemem.toNat = 0xA0000 ∧ b'.extmem.toNat = 0xF00000 := by
  have hw : Wf (single (fun _ => True) 7) eightPages [1, 2, 3, 4, 5] :=
    Wf.zeroed eightPages_freeList (by decide) (by decide) fun _ => rfl
  obtain ⟨s', hrun, h⟩ := @multibootRead_mbmap _ _ _ _ _ 0x1000000#64 (fun _ => 0) hw
    (single_node trivial) (by decide)
  refine ⟨s', hrun, fun b hb hbase hext => ?_⟩
  obtain ⟨-, -, b', hrun', -, h₁, h₂⟩ := h b hb hbase hext
  exact ⟨b', hrun', h₁, h₂⟩

end layout

/-! ### The memory the guest gets -/

/-- The address is in a usable region of the map of the call. -/
def Usable (physSz gpa : Word) : Prop :=
  ∃ e ∈ decodeMaps (bootMap physSz), e.type = mbTypeUsable ∧ e.addr.toNat ≤ gpa.toNat ∧
    gpa.toNat < e.addr.toNat + e.len.toNat

/-- An EPT violation at the address is served with a page of memory: whenever a page is free it is
taken, and inserted for the address. -/
def Served (physSz gpa : Word) : Prop :=
  ∀ (eptrt : Option Ptr) (s : Pmap) (p : Nat), s.pageFreeList = some p →
    (eptFault eptrt physSz gpa).run s = (do
      assertOk (← eptPageInsert eptrt p (roundDownPg gpa) (epteFull.setWidth 32) false)
      return true : Pm Bool).run (s.take p)

variable {physSz gpa : Word}

theorem usable_iff : Usable physSz gpa ↔ gpa.toNat < 0xA0000 ∨
    (0x100000 ≤ gpa.toNat ∧ gpa.toNat < 0x100000 + (physSz - extphysmem).toNat) := by
  rw [Usable, decodeMaps_bootMap]
  simp only [mem_cons, not_mem_nil, or_false, exists_eq_or_imp, exists_eq_left,
    regionMap_addr, regionMap_len, regionMap_type, true_and,
    show mbTypeReserved ≠ mbTypeUsable by decide, false_and, false_or]
  rw [show (0 : Word).toNat = 0 from rfl, show iophysmem.toNat = 0xA0000 from rfl,
    show extphysmem.toNat = 0x100000 from rfl, Nat.zero_add, and_iff_right (Nat.zero_le _)]

/-- **`handle_eptviolation`** serves the guest's memory, and nothing else. -/
theorem served_iff : Served physSz gpa ↔
    gpa < iophysmem ∨ (extphysmem ≤ gpa ∧ gpa < physSz) := by
  constructor
  · intro h
    by_contra hn
    -- a machine with one free page, without an EPT
    have hs := h none ⟨0, Nat.zero_le _, fun _ => 0, fun _ => 0, fun _ => none, some 0⟩ 0 rfl
    rw [eptFault, if_neg hn] at hs
    split at hs
    · cases hs
    · cases hs
  · intro h eptrt s p hp
    rw [eptFault, if_pos h, bind_ok (pageAlloc_some_raw hp)]

/-- **The memory the guest is told it has is the memory it gets**, if that is at least a
megabyte. -/
theorem usable_eq_served (physSz : Word) :
    {gpa | Usable physSz gpa} = {gpa | Served physSz gpa} ↔ extphysmem ≤ physSz := by
  have hio : iophysmem.toNat = 0xA0000 := rfl
  have hext : extphysmem.toNat = 0x100000 := rfl
  have hlt := physSz.isLt
  have hlen : (physSz - extphysmem).toNat = (2 ^ 64 - 0x100000 + physSz.toNat) % 2 ^ 64 := by
    rw [toNat_sub, hext]
  simp only [Set.ext_iff, Set.mem_ofPred_eq, usable_iff, served_iff, lt_def, le_def,
    hio, hext, hlen]
  constructor
  · intro h
    by_contra hn
    -- the third region wraps around
    have h₀ := h extphysmem
    rw [hext] at h₀
    omega
  · intro h gpa
    omega

/-- A guest without memory is told that it has all of it. -/
theorem usable_not_served : Usable 0 0x200000#64 ∧ ¬ Served 0 0x200000#64 := by
  rw [usable_iff, served_iff]
  decide

end JosVmm
