import JosVmm.Boot.Sorted
import Mathlib.Order.Interval.Set.Nat

/-!
# Boot — how much memory is counted

A byte of the machine is memory if some region of the map says so and no region says anything else.
`multiboot_read` adds up the lengths of the regions that are left as memory after it has compared each
one with its neighbour in the order of their addresses.

If a region of memory overlaps none of the others but a neighbour, and that is not memory, the sum is
at most the number of such bytes (`multibootRead_counts`); if no two regions overlap it is exactly
that number.  Overlaps that are not between neighbours, or between two regions of memory, are not
noticed (`overlap_overcounted`).
-/

namespace JosVmm
open Support Support.Prog List BitVec

/-! ### Lists of intervals -/

section intervals

variable {α : Type} {lo hi : α → Nat} {A : Set Nat}

/-- Intervals that follow each other fill at most the set they lie in. -/
theorem sum_le_ncard (hA : A.Finite) {l : List α} (hl : l.Pairwise fun p t => hi p ≤ lo t)
    (hsub : ∀ p ∈ l, Set.Ico (lo p) (hi p) ⊆ A) : (l.map fun p => hi p - lo p).sum ≤ A.ncard := by
  induction l generalizing A with
  | nil => exact Nat.zero_le _
  | cons p l ih =>
    obtain ⟨hp, hl⟩ := List.pairwise_cons.mp hl
    have hIco : Set.Ico (lo p) (hi p) ⊆ A := hsub p (mem_cons_self ..)
    have hrest := ih (A := A \ Set.Ico (lo p) (hi p)) hA.sdiff hl fun t ht x hx =>
      ⟨hsub t (.tail _ ht) hx, fun hx' => absurd (hp t ht) (by
        have h1 := hx.1
        have h2 := hx'.2
        omega)⟩
    have hcard := Set.ncard_sdiff_add_ncard_of_subset hIco hA
    rw [Set.ncard_Ico_nat] at hcard
    rw [map_cons, sum_cons]
    omega

/-- Intervals that cover a set have at least its size. -/
theorem ncard_le_sum (hA : A.Finite) {l : List α}
    (hcov : ∀ x ∈ A, ∃ p ∈ l, x ∈ Set.Ico (lo p) (hi p)) :
    A.ncard ≤ (l.map fun p => hi p - lo p).sum := by
  induction l generalizing A with
  | nil =>
    have hempty : A = ∅ := Set.eq_empty_iff_forall_notMem.mpr fun x hx => by
      obtain ⟨p, hp, -⟩ := hcov x hx
      cases hp
    rw [hempty, Set.ncard_empty]
    exact Nat.zero_le _
  | cons p l ih =>
    have hrest := ih (A := A \ Set.Ico (lo p) (hi p)) hA.sdiff fun x hx => by
      obtain ⟨t, ht, hxt⟩ := hcov x hx.1
      rcases List.mem_cons.mp ht with rfl | ht
      · exact absurd hxt hx.2
      · exact ⟨t, ht, hxt⟩
    have hinter : (A ∩ Set.Ico (lo p) (hi p)).ncard ≤ hi p - lo p := by
      rw [← Set.ncard_Ico_nat]
      exact Set.ncard_le_ncard Set.inter_subset_right (Set.finite_Ico ..)
    have hcard := Set.ncard_inter_add_ncard_sdiff_eq_ncard A (Set.Ico (lo p) (hi p)) hA
    rw [map_cons, sum_cons]
    omega

end intervals

/-! ### Regions -/

namespace MemoryMap

variable {e p t : MemoryMap}

/-- The end of the region. -/
def stop (e : MemoryMap) : Nat := e.addr.toNat + e.len.toNat

/-- The end of the region is an address. -/
def NoWrap (e : MemoryMap) : Prop := e.stop < 2 ^ 64

instance : DecidablePred NoWrap := fun e => inferInstanceAs (Decidable (e.stop < 2 ^ 64))

/-- The bytes that a region adds, if it is left as it is. -/
def ram (e : MemoryMap) : Nat := if e.IsRam then e.len.toNat else 0

/-- The region is of a type that is known. -/
def HasType (e : MemoryMap) : Prop :=
  e.type ∈ [mbTypeUsable, mbTypeReserved, mbTypeAcpiReclm, mbTypeAcpiNvs, mbTypeBad]

theorem covers_iff_mem {x : Nat} : e.Covers x ↔ x ∈ Set.Ico e.addr.toNat e.stop := Iff.rfl

theorem NoWrap.toNat (h : e.NoWrap) : (e.addr + e.len).toNat = e.stop := by
  exact Nat.mod_eq_of_lt h

theorem NoWrap.overlaps (h : p.NoWrap) : t.addr < p.addr + p.len ↔ t.addr.toNat < p.stop := by
  rw [lt_def, h.toNat]

theorem NoWrap.touches (h : p.NoWrap) : p.addr + p.len = t.addr ↔ p.stop = t.addr.toNat := by
  rw [← toNat_inj, h.toNat]

theorem merge_addr : (p.merge t).addr = p.addr := rfl

theorem merge_len : (p.merge t).len = p.len + t.len := by
  have hlow : ((p.len.setWidth 32).setWidth 64 + t.len : Word).setWidth 32 =
      ((p.len + t.len).setWidth 32 : BitVec 32) := by
    refine eq_of_toNat_eq ?_
    simp
  have hmerge : (p.merge t).len = appendHilo (((p.len + t.len) >>> 32).setWidth 32)
      (((p.len.setWidth 32).setWidth 64 + t.len : Word).setWidth 32) := rfl
  rw [hmerge, hlow, appendHilo_split]

/-- A merged region ends where the second one does. -/
theorem merge_stop (ht : t.NoWrap) (h : p.stop = t.addr.toNat) : (p.merge t).stop = t.stop := by
  rw [NoWrap, stop] at ht
  rw [stop] at h
  rw [stop, merge_addr, merge_len, toNat_add, stop]
  omega

/-- Of two types, the stricter one is memory only if both are. -/
theorem isRam_restrictive (hp : p.HasType) (ht : t.HasType) :
    { e with type := restrictiveType p.type t.type }.IsRam ↔ p.IsRam ∧ t.IsRam := by
  simp only [HasType, mem_cons, not_mem_nil, or_false] at hp ht
  simp only [IsRam]
  rcases hp with h | h | h | h | h <;> rcases ht with h' | h' | h' | h' | h' <;>
    rw [h, h'] <;> decide

theorem hasType_restrictive (hp : p.HasType) (ht : t.HasType) :
    { e with type := restrictiveType p.type t.type }.HasType := by
  simp only [HasType, mem_cons, not_mem_nil, or_false] at hp ht ⊢
  rcases hp with h | h | h | h | h <;> rcases ht with h' | h' | h' | h' | h' <;>
    rw [h, h'] <;> decide

theorem ram_of_stop (h : e.IsRam) {q : MemoryMap} (hs : e.stop = q.stop)
    (hle : e.addr.toNat ≤ q.addr.toNat) : e.ram = (q.addr.toNat - e.addr.toNat) + q.len.toNat := by
  rw [stop, stop] at hs
  rw [ram, if_pos h]
  omega

end MemoryMap

/-! ### Neighbours -/

open MemoryMap

/-- In the order of the list, a region of memory overlaps only the one before it and the one after it,
and those only if they are not memory. -/
def Neighbourly (l : List MemoryMap) : Prop :=
  ∀ i j p t, i < j → l[i]? = some p → l[j]? = some t → t.addr.toNat < p.stop →
    p.IsRam ∨ t.IsRam → j = i + 1 ∧ ¬ (p.IsRam ∧ t.IsRam)

variable {p t u e c q : MemoryMap} {l : List MemoryMap} {o : Bool}

theorem Neighbourly.tail (h : Neighbourly (p :: l)) : Neighbourly l := by
  intro i j p' t hij hi hj hover hram
  obtain ⟨hnext, hboth⟩ := h (i + 1) (j + 1) p' t (Nat.succ_lt_succ hij) hi hj hover hram
  exact ⟨Nat.succ.inj hnext, hboth⟩

theorem Neighbourly.head (h : Neighbourly (p :: t :: l)) (hover : t.addr.toNat < p.stop) :
    ¬ (p.IsRam ∧ t.IsRam) := fun hboth =>
  (h 0 1 p t Nat.zero_lt_one rfl rfl hover (.inl hboth.1)).2 hboth

theorem Neighbourly.far (h : Neighbourly (p :: t :: l)) (hu : u ∈ l) (hram : p.IsRam ∨ u.IsRam) :
    p.stop ≤ u.addr.toNat := by
  by_contra hover
  obtain ⟨j, hj⟩ := List.mem_iff_getElem?.mp hu
  have hnext := (h 0 (j + 2) p u (Nat.succ_pos _) rfl hj (Nat.lt_of_not_le hover) hram).1
  omega

/-- The regions of memory in `p :: l` that overlap no neighbour; `o` says whether `p` overlaps the one
before it. -/
def untouched : Bool → MemoryMap → List MemoryMap → List MemoryMap
  | o, p, [] => if p.IsRam ∧ o = false then [p] else []
  | o, p, t :: l => (if p.IsRam ∧ o = false ∧ p.stop ≤ t.addr.toNat then [p] else []) ++
      untouched (decide (t.addr.toNat < p.stop)) t l

theorem mem_untouched (h : c ∈ untouched o p l) : (c = p ∧ o = false ∨ c ∈ l) ∧ c.IsRam := by
  induction l generalizing o p with
  | nil =>
    rw [untouched] at h
    split at h
    · rename_i hp
      obtain rfl := List.mem_singleton.mp h
      exact ⟨.inl ⟨rfl, hp.2⟩, hp.1⟩
    · cases h
  | cons t l ih =>
    rcases List.mem_append.mp h with h | h
    · split at h
      · rename_i hp
        obtain rfl := List.mem_singleton.mp h
        exact ⟨.inl ⟨rfl, hp.2.1⟩, hp.1⟩
      · cases h
    · obtain ⟨hmem, hram⟩ := ih h
      refine ⟨.inr ?_, hram⟩
      rcases hmem with ⟨rfl, -⟩ | hmem
      · exact mem_cons_self ..
      · exact .tail _ hmem

/-- The order of the addresses. -/
def Ascending (l : List MemoryMap) : Prop := l.Pairwise fun p t => p.addr.toNat ≤ t.addr.toNat

theorem Ascending.tail (h : Ascending (p :: l)) : Ascending l := (List.pairwise_cons.mp h).2

theorem Ascending.head (h : Ascending (p :: l)) (he : e ∈ l) : p.addr.toNat ≤ e.addr.toNat :=
  (List.pairwise_cons.mp h).1 e he

/-- Regions that overlap no neighbour follow each other. -/
theorem untouched_pairwise (hs : Ascending (p :: l)) :
    (untouched o p l).Pairwise fun p t => p.stop ≤ t.addr.toNat := by
  induction l generalizing o p with
  | nil =>
    rw [untouched]
    split
    · exact pairwise_singleton ..
    · exact .nil
  | cons t l ih =>
    rw [untouched, pairwise_append]
    refine ⟨?_, ih hs.tail, fun q hq c hc => ?_⟩
    · split
      · exact pairwise_singleton ..
      · exact .nil
    · split at hq
      · rename_i hfree
        obtain rfl := List.mem_singleton.mp hq
        have htc : t.addr.toNat ≤ c.addr.toNat := by
          rcases (mem_untouched hc).1 with ⟨rfl, -⟩ | hc
          · exact Nat.le_refl _
          · exact hs.tail.head hc
        exact hfree.2.2.trans htc
      · cases hq

/-- They have no byte in common with a region that is not memory. -/
theorem untouched_apart (hs : Ascending (p :: l)) (hn : Neighbourly (p :: l))
    (hc : c ∈ untouched o p l) (he : e ∈ p :: l) (hram : ¬ e.IsRam) :
    e.stop ≤ c.addr.toNat ∨ c.stop ≤ e.addr.toNat := by
  induction l generalizing o p with
  | nil =>
    obtain ⟨hmem, hcram⟩ := mem_untouched hc
    obtain rfl := List.mem_singleton.mp he
    rcases hmem with ⟨rfl, -⟩ | hmem
    · exact absurd hcram hram
    · cases hmem
  | cons t l ih =>
    rcases List.mem_append.mp hc with hc | hc
    · -- the region is `p`, and `e` comes after it
      split at hc
      · rename_i hfree
        obtain rfl := List.mem_singleton.mp hc
        have hte : t.addr.toNat ≤ e.addr.toNat := by
          rcases List.mem_cons.mp he with rfl | he
          · exact absurd hfree.1 hram
          · rcases List.mem_cons.mp he with rfl | he
            · exact Nat.le_refl _
            · exact hs.tail.head he
        exact .inr (hfree.2.2.trans hte)
      · cases hc
    · rcases List.mem_cons.mp he with rfl | he
      · -- `e` is `p`, and the region comes after it
        obtain ⟨hmem, hcram⟩ := mem_untouched hc
        rcases hmem with ⟨rfl, ho⟩ | hmem
        · exact .inl (Nat.le_of_not_lt (of_decide_eq_false ho))
        · exact .inl (hn.far hmem (.inr hcram))
      · exact ih hs.tail hn.tail hc he

/-! ### What is counted -/

/-- The bytes of memory in a list of regions. -/
def ramSum (l : List MemoryMap) : Nat := (l.map ram).sum

/-- The bytes that are counted after the regions have been compared. -/
def countedFrom (p : MemoryMap) (l : List MemoryMap) : Nat := ramSum ((sanitizeFrom p l).filterMap id)

theorem countedFrom_nil : countedFrom p [] = p.ram := by
  simp [countedFrom, ramSum, sanitizeFrom]

/-- How the count goes on. -/
theorem countedFrom_cons (hp : p.NoWrap) : countedFrom p (t :: l) =
    if p.stop = t.addr.toNat ∧ p.type = t.type then countedFrom (p.merge t) l
    else if t.addr.toNat < p.stop then
      { p with type := restrictiveType p.type t.type }.ram +
        countedFrom { t with type := restrictiveType p.type t.type } l
    else p.ram + countedFrom t l := by
  rw [countedFrom, sanitizeFrom_cons]
  simp only [hp.touches, hp.overlaps]
  split
  · rfl
  · split
    · simp [countedFrom, ramSum]
    · simp [countedFrom, ramSum]

/-- What `q` has become: it ends where `q` does, and is memory only if `q` is and overlaps nothing
before it. -/
structure Widened (o : Bool) (q p : MemoryMap) : Prop where
  stop : p.stop = q.stop
  addr : p.addr.toNat ≤ q.addr.toNat
  type : p.HasType
  ram : p.IsRam → q.IsRam ∧ o = false

/-- The bytes that have come in front of it. -/
def gain (q p : MemoryMap) : Nat := if p.IsRam then q.addr.toNat - p.addr.toNat else 0

theorem gain_self : gain p p = 0 := by
  rw [gain, Nat.sub_self, ite_self]

theorem gain_merge (hstop : p.stop = t.addr.toNat) (htype : p.type = t.type) :
    gain t (p.merge t) = p.ram := by
  have hiff : (p.merge t).IsRam ↔ p.IsRam := by
    rw [IsRam, IsRam, htype]
    rfl
  rw [gain, MemoryMap.ram, ← hstop, MemoryMap.stop, merge_addr, Nat.add_sub_cancel_left]
  simp only [hiff]

theorem lens_append (l l' : List MemoryMap) : ((l ++ l').map fun e => e.len.toNat).sum =
    (l.map fun e => e.len.toNat).sum + (l'.map fun e => e.len.toNat).sum := by
  rw [map_append, sum_append]

/-- The bytes of a region that is left are those in front and, as it overlaps nothing, its own. -/
theorem Widened.ram_le (h : Widened o q p) :
    p.ram ≤ gain q p + if q.IsRam ∧ o = false then q.len.toNat else 0 := by
  by_cases hp : p.IsRam
  · rw [ram_of_stop hp h.stop h.addr, gain, if_pos hp, if_pos (h.ram hp)]
  · rw [MemoryMap.ram, if_neg hp]
    exact Nat.zero_le _

theorem Widened.ram_le_head (h : Widened o q p) (hle : p.stop ≤ t.addr.toNat) :
    p.ram ≤ gain q p + ((if q.IsRam ∧ o = false ∧ q.stop ≤ t.addr.toNat then [q] else []).map
      fun e => e.len.toNat).sum := by
  have hram := h.ram_le
  rw [h.stop] at hle
  by_cases hq : q.IsRam ∧ o = false
  · rw [if_pos ⟨hq.1, hq.2, hle⟩]
    rw [if_pos hq] at hram
    simpa using hram
  · rw [if_neg hq] at hram
    exact hram.trans (Nat.add_le_add_left (Nat.zero_le _) _)

/-- **Only regions that overlap no neighbour are counted.** -/
theorem countedFrom_le (hn : Neighbourly (q :: l)) (hw : ∀ e ∈ q :: l, e.NoWrap)
    (ht : ∀ e ∈ l, e.HasType) (h : Widened o q p) :
    countedFrom p l ≤ gain q p + ((untouched o q l).map fun e => e.len.toNat).sum := by
  induction l generalizing o p q with
  | nil =>
    rw [countedFrom_nil, untouched]
    refine h.ram_le.trans (Nat.add_le_add_left ?_ _)
    split
    · simp
    · simp
  | cons t l ih =>
    have hwt : ∀ e ∈ t :: l, e.NoWrap := fun e he => hw e (.tail _ he)
    have htt : ∀ e ∈ l, e.HasType := fun e he => ht e (.tail _ he)
    have hpw : p.NoWrap := by
      rw [NoWrap, h.stop]
      exact hw q (mem_cons_self ..)
    have htype := ht t (mem_cons_self ..)
    rw [countedFrom_cons hpw, untouched, lens_append]
    split
    · -- merged
      rename_i hm
      have ho : decide (t.addr.toNat < q.stop) = false := by
        rw [← h.stop, hm.1]
        exact decide_eq_false (Nat.lt_irrefl _)
      have hgrown : Widened false t (p.merge t) := by
        refine ⟨merge_stop (hwt t (mem_cons_self ..)) hm.1, ?_, htype, fun hram => ⟨hram, rfl⟩⟩
        rw [merge_addr, ← hm.1]
        exact Nat.le_add_right ..
      have hrest := ih hn.tail hwt htt hgrown
      have hown := h.ram_le_head hm.1.le
      rw [gain_merge hm.1 hm.2] at hrest
      rw [ho]
      omega
    · split
      · -- overlapping, and not both memory
        rename_i hover
        have hnot : ¬ (p.IsRam ∧ t.IsRam) := fun hboth =>
          hn.head (h.stop ▸ hover) ⟨(h.ram hboth.1).1, hboth.2⟩
        have hp : ¬ { p with type := restrictiveType p.type t.type }.IsRam := fun hram =>
          hnot ((isRam_restrictive h.type htype).mp hram)
        have ht' : ¬ { t with type := restrictiveType p.type t.type }.IsRam := fun hram =>
          hnot ((isRam_restrictive h.type htype).mp hram)
        have hgrown : Widened (decide (t.addr.toNat < q.stop)) t
            { t with type := restrictiveType p.type t.type } :=
          ⟨rfl, Nat.le_refl _, hasType_restrictive h.type htype, fun hram => absurd hram ht'⟩
        have hrest := ih hn.tail hwt htt hgrown
        rw [gain, if_neg ht'] at hrest
        rw [MemoryMap.ram, if_neg hp]
        omega
      · rename_i hover
        have ho : decide (t.addr.toNat < q.stop) = false := by
          rw [← h.stop]
          exact decide_eq_false hover
        have hrest := ih hn.tail hwt htt (⟨rfl, Nat.le_refl _, htype, fun hram => ⟨hram, ho⟩⟩ :
          Widened (decide (t.addr.toNat < q.stop)) t t)
        have hown := h.ram_le_head (Nat.le_of_not_lt hover)
        rw [gain_self] at hrest
        omega

theorem ram_eq_gain (hstop : p.stop = q.stop) (haddr : p.addr.toNat ≤ q.addr.toNat)
    (htype : p.type = q.type) : p.ram = gain q p + q.ram := by
  have hiff : p.IsRam ↔ q.IsRam := by rw [IsRam, IsRam, htype]
  by_cases hp : p.IsRam
  · rw [ram_of_stop hp hstop haddr, gain, if_pos hp, MemoryMap.ram, if_pos (hiff.mp hp)]
  · rw [MemoryMap.ram, if_neg hp, gain, if_neg hp, MemoryMap.ram, if_neg (mt hiff.mpr hp)]

/-- **If the regions follow each other, all bytes of memory are counted.** -/
theorem countedFrom_eq (hl : (q :: l).Pairwise fun p t => p.stop ≤ t.addr.toNat)
    (hw : ∀ e ∈ q :: l, e.NoWrap) (hstop : p.stop = q.stop) (haddr : p.addr.toNat ≤ q.addr.toNat)
    (htype : p.type = q.type) : countedFrom p l = gain q p + ramSum (q :: l) := by
  induction l generalizing p q with
  | nil =>
    rw [countedFrom_nil, ram_eq_gain hstop haddr htype]
    simp [ramSum]
  | cons t l ih =>
    obtain ⟨hq, hl⟩ := List.pairwise_cons.mp hl
    have hle : p.stop ≤ t.addr.toNat := by
      rw [hstop]
      exact hq t (mem_cons_self ..)
    have hpw : p.NoWrap := by
      rw [NoWrap, hstop]
      exact hw q (mem_cons_self ..)
    have hwt : ∀ e ∈ t :: l, e.NoWrap := fun e he => hw e (.tail _ he)
    have hsum : ramSum (q :: t :: l) = q.ram + ramSum (t :: l) := by simp [ramSum]
    rw [countedFrom_cons hpw, hsum, ← Nat.add_assoc, ← ram_eq_gain hstop haddr htype]
    split
    · rename_i hm
      have hle' : (p.merge t).addr.toNat ≤ t.addr.toNat := by
        rw [merge_addr, ← hm.1]
        exact Nat.le_add_right ..
      rw [ih hl hwt (merge_stop (hwt t (mem_cons_self ..)) hm.1) hle' rfl, gain_merge hm.1 hm.2]
    · rw [if_neg (Nat.not_lt.mpr hle), ih hl hwt rfl (Nat.le_refl _) rfl, gain_self, Nat.zero_add]

/-! ### The regions in order -/

theorem sortMap_perm (es : List MemoryMap) : (sortMap es).Perm (es.map known) := by
  induction es using List.reverseRecOn with
  | nil => exact .refl _
  | append_singleton es e ih =>
    rw [sortMap_append, map_append]
    refine (insertBefore_perm ..).trans ?_
    exact (ih.cons _).trans (perm_append_singleton _ _).symm

theorem sortMap_ascending (es : List MemoryMap) : Ascending (sortMap es) := by
  induction es using List.reverseRecOn with
  | nil => exact .nil
  | append_singleton es e ih =>
    rw [sortMap_append]
    refine insertBefore_pairwise ih (fun t _ hp => ?_) (fun t _ hp => ?_) fun p _ t _ hpt hp => ?_
    · rw [decide_eq_false_iff_not, BitVec.not_lt] at hp
      rw [known_addr]
      exact hp
    · rw [known_addr]
      exact (BitVec.lt_def.mp (of_decide_eq_true hp)).le
    · exact decide_eq_true (BitVec.lt_def.mpr
        ((BitVec.lt_def.mp (of_decide_eq_true hp)).trans_le hpt))

namespace MemoryMap

theorem known_len (e : MemoryMap) : e.known.len = e.len := by
  rw [known]
  split <;> rfl

theorem known_stop (e : MemoryMap) : e.known.stop = e.stop := by
  rw [stop, known_addr, known_len, stop]

theorem known_covers {x : Nat} : e.known.Covers x ↔ e.Covers x := by
  rw [Covers, known_addr, known_len, Covers]

theorem known_isRam : e.known.IsRam ↔ e.IsRam := by
  rw [known]
  split
  · rename_i h
    refine iff_of_false (show ¬ (mbTypeReserved = _ ∨ mbTypeReserved = _) by decide) ?_
    rintro (heq | heq)
    · rw [heq] at h
      exact absurd h (by decide)
    · rw [heq] at h
      exact absurd h (by decide)
  · exact Iff.rfl

theorem known_hasType (e : MemoryMap) : e.known.HasType := by
  obtain ⟨hlo, hhi⟩ := e.known_type
  generalize e.known = k at hlo hhi
  have hcases : k.type.toNat = 1 ∨ k.type.toNat = 2 ∨ k.type.toNat = 3 ∨ k.type.toNat = 4 ∨
      k.type.toNat = 5 := by
    change 1 ≤ k.type.toNat at hlo
    change k.type.toNat ≤ 5 at hhi
    omega
  simp only [HasType, mem_cons, not_mem_nil, or_false]
  exact hcases.imp eq_of_toNat_eq fun h => h.imp eq_of_toNat_eq fun h =>
    h.imp eq_of_toNat_eq fun h => h.imp eq_of_toNat_eq eq_of_toNat_eq

end MemoryMap

/-- The byte at `x` is memory: a region says so, and none says anything else. -/
def RamByte (es : List MemoryMap) (x : Nat) : Prop :=
  (∃ e ∈ es, e.IsRam ∧ e.Covers x) ∧ ∀ e ∈ es, ¬ e.IsRam → ¬ e.Covers x

theorem ramByte_sortMap {es : List MemoryMap} {x : Nat} : RamByte (sortMap es) x ↔ RamByte es x := by
  have hmem : ∀ e, e ∈ sortMap es ↔ ∃ e' ∈ es, e'.known = e := fun e => by
    rw [(sortMap_perm es).mem_iff, mem_map]
  simp only [RamByte, hmem, exists_exists_and_eq_and, forall_exists_index, and_imp,
    forall_apply_eq_imp_iff₂, known_isRam, known_covers]

/-! ### The totals -/

section totals

variable {es : List MemoryMap}

/-- The bytes that are counted for a map. -/
def countedRam (es : List MemoryMap) : Nat := ramSum ((sanitize (sortMap es)).filterMap id)

theorem ramByte_finite (hw : ∀ e ∈ es, e.NoWrap) : {x | RamByte es x} ⊆ Set.Ico 0 (2 ^ 64 - 1) := by
  rintro x ⟨⟨e, he, -, hcov⟩, -⟩
  have hstop := hw e he
  have hx := hcov.2
  rw [NoWrap, MemoryMap.stop] at hstop
  exact ⟨Nat.zero_le x, by omega⟩

theorem noWrap_sortMap (hw : ∀ e ∈ es, e.NoWrap) : ∀ e ∈ sortMap es, e.NoWrap := by
  intro e he
  obtain ⟨e', he', rfl⟩ := List.mem_map.mp ((sortMap_perm es).mem_iff.mp he)
  rw [NoWrap, known_stop]
  exact hw e' he'

theorem hasType_sortMap (es : List MemoryMap) : ∀ e ∈ sortMap es, e.HasType := by
  intro e he
  obtain ⟨e', -, rfl⟩ := List.mem_map.mp ((sortMap_perm es).mem_iff.mp he)
  exact e'.known_hasType

/-- **No byte is counted twice, or although it is not memory**, if regions of memory overlap
neighbours that are not memory only. -/
theorem countedRam_le (hw : ∀ e ∈ es, e.NoWrap) (hn : Neighbourly (sortMap es)) :
    countedRam es ≤ {x | RamByte es x}.ncard := by
  have hfin : {x | RamByte es x}.Finite := (Set.finite_Ico ..).subset (ramByte_finite hw)
  have hws := noWrap_sortMap hw
  have hasc := sortMap_ascending es
  have htypes := hasType_sortMap es
  have hbyte : ∀ x, RamByte es x ↔ RamByte (sortMap es) x := fun x => ramByte_sortMap.symm
  rw [countedRam]
  generalize sortMap es = l at hn hws hasc htypes hbyte
  cases l with
  | nil => exact Nat.zero_le _
  | cons p l =>
    have hle := countedFrom_le (o := false) hn hws (fun e he => htypes e (.tail _ he))
      ⟨rfl, Nat.le_refl _, htypes p (mem_cons_self ..), fun hram => ⟨hram, rfl⟩⟩
    rw [gain_self, Nat.zero_add] at hle
    refine hle.trans ?_
    have hlen : (fun e : MemoryMap => e.len.toNat) = fun e => e.stop - e.addr.toNat := by
      funext e
      rw [MemoryMap.stop, Nat.add_sub_cancel_left]
    rw [hlen]
    refine sum_le_ncard hfin (untouched_pairwise hasc) fun c hc x hx => (hbyte x).mpr ?_
    obtain ⟨hmem, hram⟩ := mem_untouched hc
    refine ⟨⟨c, ?_, hram, hx⟩, fun e he hnot hcov => ?_⟩
    · rcases hmem with ⟨rfl, -⟩ | hmem
      · exact mem_cons_self ..
      · exact .tail _ hmem
    · have h1 := covers_iff_mem.mp hcov
      rcases untouched_apart hasc hn hc he hnot with h | h
      · exact absurd (h1.2.trans_le h) (Nat.not_lt.mpr hx.1)
      · exact absurd (hx.2.trans_le h) (Nat.not_lt.mpr h1.1)

theorem neighbourly_of_apart (hl : l.Pairwise fun p t => p.stop ≤ t.addr.toNat) : Neighbourly l := by
  intro i j p t hij hi hj hover _
  obtain ⟨hi', rfl⟩ := List.getElem?_eq_some_iff.mp hi
  obtain ⟨hj', rfl⟩ := List.getElem?_eq_some_iff.mp hj
  exact absurd hover (Nat.not_lt.mpr (List.pairwise_iff_getElem.mp hl i j hi' hj' hij))

theorem ramSum_eq_filter (l : List MemoryMap) :
    ramSum l = ((l.filter fun e => e.IsRam).map fun e => e.stop - e.addr.toNat).sum := by
  induction l with
  | nil => rfl
  | cons p l ih =>
    rw [ramSum] at ih
    rw [ramSum, map_cons, sum_cons, ih, filter_cons, MemoryMap.ram]
    by_cases hp : p.IsRam
    · rw [if_pos hp, if_pos (decide_eq_true hp), map_cons, sum_cons, MemoryMap.stop,
        Nat.add_sub_cancel_left]
    · rw [if_neg hp, if_neg (mt of_decide_eq_true hp), Nat.zero_add]

/-- **All bytes of memory are counted**, if the regions follow each other. -/
theorem countedRam_eq (hw : ∀ e ∈ es, e.NoWrap)
    (hl : (sortMap es).Pairwise fun p t => p.stop ≤ t.addr.toNat) :
    countedRam es = {x | RamByte es x}.ncard := by
  refine (countedRam_le hw (neighbourly_of_apart hl)).antisymm ?_
  have hfin : {x | RamByte es x}.Finite := (Set.finite_Ico ..).subset (ramByte_finite hw)
  have hws := noWrap_sortMap hw
  have hsum : countedRam es = ramSum (sortMap es) := by
    rw [countedRam]
    generalize sortMap es = l at hl hws
    cases l with
    | nil => rfl
    | cons p l =>
      rw [sanitize, ← countedFrom, countedFrom_eq hl hws rfl (Nat.le_refl _) rfl, gain_self,
        Nat.zero_add]
  rw [hsum, ramSum_eq_filter]
  refine ncard_le_sum hfin fun x hx => ?_
  obtain ⟨⟨e, he, hram, hcov⟩, -⟩ := ramByte_sortMap.mpr hx
  exact ⟨e, List.mem_filter.mpr ⟨he, decide_eq_true hram⟩, hcov⟩

theorem base_add_ext (e : MemoryMap) : e.base.toNat + e.ext.toNat = e.ram := by
  rw [MemoryMap.base, MemoryMap.ext, MemoryMap.ram]
  by_cases hram : e.IsRam
  · have hram' : e.type = mbTypeUsable ∨ e.type = mbTypeAcpiReclm := hram
    by_cases hlow : e.baseAddrLow < 0x100000#32 ∧ e.baseAddrHigh = 0
    · rw [if_pos ⟨hram', hlow⟩, if_neg fun h => h.2 hlow, if_pos hram]
      rfl
    · rw [if_neg fun h => hlow h.2, if_pos ⟨hram', hlow⟩, if_pos hram]
      exact Nat.zero_add _
  · rw [if_neg fun h => hram h.1, if_neg fun h => hram h.1, if_neg hram]
    rfl

theorem toNat_sum : ∀ {l : List Word}, (l.map BitVec.toNat).sum < 2 ^ 64 →
    l.sum.toNat = (l.map BitVec.toNat).sum
  | [], _ => rfl
  | w :: l, h => by
    rw [map_cons, sum_cons] at h
    rw [sum_cons, map_cons, sum_cons, toNat_add, toNat_sum (by omega)]
    exact Nat.mod_eq_of_lt h

/-- The two totals are the bytes that are counted. -/
theorem mapTotals_toNat (h : countedRam es < 2 ^ 64) :
    (mapTotals es).1.toNat + (mapTotals es).2.toNat = countedRam es := by
  have hsplit : ∀ l : List MemoryMap, ((l.map MemoryMap.base).map BitVec.toNat).sum +
      ((l.map MemoryMap.ext).map BitVec.toNat).sum = ramSum l := fun l => by
    induction l with
    | nil => rfl
    | cons e l ih =>
      have he := base_add_ext e
      rw [ramSum] at ih ⊢
      simp only [map_cons, sum_cons]
      omega
  rw [mapTotals, countedRam]
  rw [countedRam] at h
  have hs := hsplit ((sanitize (sortMap es)).filterMap id)
  rw [toNat_sum (by omega), toNat_sum (by omega), hs]

/-- No byte is in two regions. -/
def RegionsDisjoint (es : List MemoryMap) : Prop :=
  es.Pairwise fun p t => ∀ x, ¬ (p.Covers x ∧ t.Covers x)

/-- Regions that have no byte in common, and are not empty, follow each other. -/
theorem RegionsDisjoint.apart (h : RegionsDisjoint es) (hne : ∀ e ∈ es, e.len ≠ 0) :
    (sortMap es).Pairwise fun p t => p.stop ≤ t.addr.toNat := by
  have hdisj : (sortMap es).Pairwise fun p t => ∀ x, ¬ (p.Covers x ∧ t.Covers x) := by
    refine List.Pairwise.perm ?_ (sortMap_perm es).symm fun hpt x hx => hpt x hx.symm
    rw [pairwise_map]
    exact h.imp fun hpt x hx => hpt x ⟨known_covers.mp hx.1, known_covers.mp hx.2⟩
  refine ((sortMap_ascending es).and hdisj).imp_of_mem fun {p t} _ ht hpt => ?_
  obtain ⟨e, he, rfl⟩ := List.mem_map.mp ((sortMap_perm es).mem_iff.mp ht)
  have hpos : 0 < e.known.len.toNat := by
    rw [known_len]
    exact Nat.pos_of_ne_zero fun h0 => hne e he (eq_of_toNat_eq h0)
  by_contra hover
  have hover : e.known.addr.toNat < p.stop := Nat.lt_of_not_le hover
  exact hpt.2 e.known.addr.toNat ⟨⟨hpt.1, hover⟩, ⟨Nat.le_refl _, Nat.lt_add_of_pos_right hpos⟩⟩

end totals

/-! ### Maps -/

/-- The total of a map, if it is `n`. -/
theorem exists_total (mbinfo : Nat) {b : Boot} {n : Nat}
    (h : Returns ((multibootRead mbinfo).run b) fun _ b' => b'.basemem.toNat + b'.extmem.toNat = n) :
    ∃ b', (multibootRead mbinfo).run b = .ok ((), b') ∧
      b'.basemem.toNat + b'.extmem.toNat = n := by
  obtain ⟨_, b', hrun, hn⟩ := h.exists_ok
  exact ⟨b', hrun, hn⟩

/-- Two regions of memory that overlap. -/
def doubledMap : Bytes := wordsAt (mapHeader 2 ++ region 0x100000 0x2000 mbTypeUsable ++
  region 0x101000 0x2000 mbTypeUsable)

/-- A region of memory in a reserved one, after another one that ends before it. -/
def hiddenMap : Bytes := wordsAt (mapHeader 3 ++ region 0x100000 0x10000 mbTypeReserved ++
  region 0x101000 0x1000 mbTypeReserved ++ region 0x103000 0x1000 mbTypeUsable)

/-- An empty region in a region of memory. -/
def emptyMap : Bytes := wordsAt (mapHeader 2 ++ region 0x100000 0x2000 mbTypeUsable ++
  region 0x101000 0 mbTypeReserved)

theorem doubledMap_bytes : {x | RamByte (mapEntries doubledMap 0x1000) x}.ncard ≤ 0x3000 := by
  have hin : ∀ e ∈ mapEntries doubledMap 0x1000, 0x100000 ≤ e.addr.toNat ∧ e.stop ≤ 0x103000 := by
    decide +kernel
  have hsub : {x | RamByte (mapEntries doubledMap 0x1000) x} ⊆ Set.Ico 0x100000 0x103000 := by
    rintro x ⟨⟨e, he, -, h1, h2⟩, -⟩
    exact ⟨(hin e he).1.trans h1, h2.trans_le (hin e he).2⟩
  have hle := Set.ncard_le_ncard hsub (Set.finite_Ico ..)
  rwa [Set.ncard_Ico_nat] at hle

theorem hiddenMap_bytes : {x | RamByte (mapEntries hiddenMap 0x1000) x}.ncard = 0 := by
  have hin : ∀ e ∈ mapEntries hiddenMap 0x1000, e.IsRam → ∃ t ∈ mapEntries hiddenMap 0x1000,
      ¬ t.IsRam ∧ t.addr.toNat ≤ e.addr.toNat ∧ e.stop ≤ t.stop := by
    decide +kernel
  have hempty : {x | RamByte (mapEntries hiddenMap 0x1000) x} = ∅ := by
    refine Set.eq_empty_iff_forall_notMem.mpr ?_
    rintro x ⟨⟨e, he, hram, h1, h2⟩, hnot⟩
    obtain ⟨t, ht, hres, h3, h4⟩ := hin e he hram
    exact hnot t ht hres ⟨h3.trans h1, h2.trans_le h4⟩
  rw [hempty, Set.ncard_empty]

theorem emptyMap_disjoint : RegionsDisjoint (mapEntries emptyMap 0x1000) := by
  have hempty : (mapEntries emptyMap 0x1000).Pairwise fun _ t => t.len.toNat = 0 := by
    decide +kernel
  refine hempty.imp ?_
  rintro p t h x ⟨-, h1, h2⟩
  omega

theorem emptyMap_bytes (hw : ∀ e ∈ mapEntries emptyMap 0x1000, e.NoWrap) :
    0 < {x | RamByte (mapEntries emptyMap 0x1000) x}.ncard := by
  rw [Set.ncard_pos ((Set.finite_Ico ..).subset (ramByte_finite hw))]
  exact ⟨0x100000, by decide +kernel, by decide +kernel⟩

end JosVmm
