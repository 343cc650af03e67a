import JosVmm.Loader.Space

/-!
# Loading — `region_alloc`

The parts of `load_icode` run until they are done, or until there is no free page for the next one.
`Tries r n s L x Q` says so of `x`: it succeeds with a memory as `Q` says, or it panics for want of
memory, and then there were fewer than `n` free pages.  `regionAlloc_tries` is this for
`region_alloc`, which maps all pages of a range anew.
-/

namespace JosVmm
open Support Support.Radix Support.Prog Support.Paged

variable {α β : Type} {r n k fuel : Nat} {s s' : Pmap} {L L' : List Nat} {va endva len : Word}

/-! ### Parts of the loader -/

/-- The program `x` loads memory as `Q` says, with up to `n` free pages; or there are fewer, and it
panics. -/
def Tries (r n : Nat) (s : Pmap) (L : List Nat) (x : Pm α) (Q : α → Mem (BitVec 8) → Prop) : Prop :=
  (∃ a s' L', x.run s = .ok (a, s') ∧ UserSpace r s' L' ∧ s'.npages = s.npages ∧
    L.length ≤ L'.length + n ∧ Q a (s'.userMem r)) ∨
  (x.run s = .error .noMemory ∧ L.length < n)

namespace Tries

variable {x : Pm α} {f : α → Pm β} {Q : α → Mem (BitVec 8) → Prop}
  {Q' : β → Mem (BitVec 8) → Prop}

theorem pure {a : α} (h : UserSpace r s L) (hQ : Q a (s.userMem r)) :
    Tries r 0 s L (Pure.pure a) Q := .inl ⟨a, s, L, rfl, h, rfl, Nat.le_refl _, hQ⟩

theorem bind (h : Tries r n s L x Q)
    (hf : ∀ a s' L', UserSpace r s' L' → s'.npages = s.npages → Q a (s'.userMem r) →
      Tries r k s' L' (f a) Q') : Tries r (n + k) s L (x >>= f) Q' := by
  rcases h with ⟨a, s1, L1, hrun, h1, hnp, hlen, hQ⟩ | ⟨hrun, hlt⟩
  · rcases hf a s1 L1 h1 hnp hQ with ⟨b, s2, L2, hrun2, h2, hnp2, hlen2, hQ2⟩ | ⟨hrun2, hlt2⟩
    · exact .inl ⟨b, s2, L2, (bind_ok hrun).trans hrun2, h2, hnp2.trans hnp, by omega, hQ2⟩
    · exact .inr ⟨(bind_ok hrun).trans hrun2, by omega⟩
  · exact .inr ⟨bind_error hrun, by omega⟩

theorem mono {Q1 : α → Mem (BitVec 8) → Prop} (h : Tries r n s L x Q) (hn : n ≤ k)
    (hQ : ∀ a m, Q a m → Q1 a m) : Tries r k s L x Q1 := by
  rcases h with ⟨a, s1, L1, hrun, h1, hnp, hlen, hq⟩ | ⟨hrun, hlt⟩
  · exact .inl ⟨a, s1, L1, hrun, h1, hnp, by omega, hQ a _ hq⟩
  · exact .inr ⟨hrun, by omega⟩

end Tries

theorem writeUser_tries (h : UserSpace r s L) {l : List (BitVec 8)}
    (htop : va.toNat + l.length ≤ utop.toNat)
    (hb : ∀ i < l.length, s.userMem r (va.toNat + i) ≠ none) :
    Tries r 0 s L (writeUser (some (r * 512)) l va) fun _ m =>
      m = overlay (s.userMem r) va.toNat l := by
  obtain ⟨s', hrun, h', hnp, hm⟩ := h.writeUser htop hb
  exact .inl ⟨(), s', L, hrun, h', hnp, Nat.le_refl _, hm⟩

/-! ### One page -/

/-- One round of `region_alloc`. -/
def pageNew (pml4e : Option Ptr) (va : Word) : Pm Unit := do
  match ← pageAlloc false with
  | none => throw .noMemory
  | some pp =>
    match ← pageInsert pml4e (some pp) va 7#32 with
    | .error _ => throw .noMemory
    | .ok () => pure ()

theorem regionAllocFrom_succ (pml4e : Option Ptr) :
    regionAllocFrom pml4e endva (fuel + 1) va = if va < endva then do
      pageNew pml4e va
      regionAllocFrom pml4e endva fuel (roundDownPg (va + 4096#64)) else pure () := by
  rw [regionAllocFrom, pageNew]
  split
  · rw [bind_assoc]
    congr 1
    funext o
    cases o with
    | none => rfl
    | some pp =>
      dsimp only
      rw [bind_assoc]
      congr 1
      funext res
      cases res <;> rfl
  · rfl

/-- **One page**, and up to three tables on the way to it. -/
theorem pageNew_tries (h : UserSpace r s L) (hva : va < utop) :
    Tries r 4 s L (pageNew (some (r * 512)) va) fun _ m =>
      Renews 4096 (s.userMem r) m va.toNat 1 := by
  have hmiss : missing dec s.mem r (vpn va).path ≤ 3 := missing_le_length r (vpn va).path
  cases L with
  | nil =>
    refine .inr ⟨?_, Nat.succ_pos _⟩
    rw [pageNew, bind_ok (pageAlloc_none h.wf.nil false)]
    rfl
  | cons pp L =>
    have halloc : (pageAlloc false).run s = .ok (some pp, s.take pp) := h.wf.pageAlloc false
    rw [Tries, pageNew, bind_ok halloc]
    rcases Nat.lt_or_ge L.length (missing dec s.mem r (vpn va).path) with hlt | hge
    · obtain ⟨m, hrun, -⟩ := pageInsert_noMem (s := s.take pp) pp 7#32 h.wf.take
        (userNode hva) hlt
      refine .inr ⟨?_, by rw [List.length_cons]; omega⟩
      rw [bind_ok hrun]
      rfl
    · have hperm : (7#32).toNat < 4096 := by decide
      obtain ⟨s', L', hrun, hnew⟩ := newPage_ok h.wf (userNode hva) hperm (h.own va hva) hge
      obtain ⟨h', hm⟩ := h.newPage hva hnew
      have hlen := hnew.length
      refine .inl ⟨(), s', L', ?_, h', hnew.npages, by omega, hm⟩
      rw [bind_ok hrun]
      rfl

/-! ### All pages of a range -/

/-- The pages of `[a, b)`. -/
def pagesIn (a b : Nat) : Nat := if a < b then (b - 1) / 4096 - a / 4096 + 1 else 0

/-- The loop of `region_alloc`. -/
theorem regionAllocFrom_tries (fuel : Nat) (va endva : Word) (h : UserSpace r s L)
    (htop : endva ≤ utop) (hfuel : pagesIn va.toNat endva.toNat < fuel) :
    Tries r (4 * pagesIn va.toNat endva.toNat) s L (regionAllocFrom (some (r * 512)) endva fuel va)
      fun _ m => Renews 4096 (s.userMem r) m va.toNat (endva.toNat - va.toNat) := by
  rw [BitVec.le_def] at htop
  induction fuel generalizing va s L with
  | zero => exact absurd hfuel (Nat.not_lt_zero _)
  | succ fuel ih =>
    rw [regionAllocFrom_succ]
    by_cases hlt : va < endva
    · have hlt' := BitVec.lt_def.mp hlt
      have hnext : (roundDownPg (va + 4096#64)).toNat = (va.toNat / 4096 + 1) * 4096 := by
        rw [utop_toNat] at htop
        rw [roundDownPg_toNat, BitVec.toNat_add]
        simp
        omega
      have hpages : pagesIn va.toNat endva.toNat =
          1 + pagesIn (roundDownPg (va + 4096#64)).toNat endva.toNat := by
        rw [hnext, pagesIn, if_pos hlt', pagesIn]
        split <;> omega
      rw [if_pos hlt, hpages, Nat.mul_add]
      refine (pageNew_tries h (BitVec.lt_def.mpr (by omega))).bind fun _ s1 L1 h1 _ hm1 => ?_
      refine (ih _ h1 (by omega)).mono (Nat.le_refl _) fun _ m hm => ?_
      rw [hnext] at hm
      rcases Nat.lt_or_ge ((va.toNat / 4096 + 1) * 4096) endva.toNat with hmore | hend
      · -- the rest of the page, and the pages after it
        have h1 := hm1.page (n := (va.toNat / 4096 + 1) * 4096 - va.toNat) (by omega) (by omega)
        rw [show (va.toNat / 4096 + 1) * 4096 =
          va.toNat + ((va.toNat / 4096 + 1) * 4096 - va.toNat) by omega] at hm
        have h2 := h1.trans hm
        rwa [show (va.toNat / 4096 + 1) * 4096 - va.toNat + (endva.toNat -
          (va.toNat + ((va.toNat / 4096 + 1) * 4096 - va.toNat))) = endva.toNat - va.toNat by
            omega] at h2
      · rw [Nat.sub_eq_zero_of_le hend] at hm
        rw [hm.eq]
        exact hm1.page (by omega) (by omega)
    · have hge := BitVec.not_lt.mp hlt
      rw [if_neg hlt, pagesIn, if_neg (by omega), Nat.sub_eq_zero_of_le hge]
      exact Tries.pure h .refl

/-- **`region_alloc`** maps the pages of the range anew. -/
theorem regionAlloc_tries (h : UserSpace r s L) (htop : va.toNat + len.toNat ≤ utop.toNat) :
    Tries r (4 * pagesIn va.toNat (va.toNat + len.toNat)) s L (regionAlloc (some (r * 512)) va len)
      fun _ m => Renews 4096 (s.userMem r) m va.toNat len.toNat := by
  have hend : (va + len).toNat = va.toNat + len.toNat := by
    rw [BitVec.toNat_add]
    omega
  have hloop := regionAllocFrom_tries (2 ^ 53) va (va + len) h (BitVec.le_def.mpr (by omega)) (by
      rw [hend, pagesIn]
      split <;> omega)
  rwa [hend, Nat.add_sub_cancel_left] at hloop

end JosVmm
