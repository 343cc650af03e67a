import JosVmm.Pmap.View

/-!
# Page maps — what the hardware finds

The translation of an address, as the processor does it: the entries at the four levels
(`Pmap.walk`), and the physical address that the last one gives (`Pmap.translate`).  Both are
functions of the last-level entry that the view of a root has for the page (`walk_of_view`,
`translate_of_view`).
-/

namespace JosVmm
open Support Support.Radix

/-- Last-level entries as they are, if they are present. -/
def rawReading : Reading Word where
  read _ w := if w &&& pteP = 0 then none else some w
  zero _ := if_pos (by decide)

/-- The entries of an address, root first. -/
structure PtEntries where
  pml4e : Word
  pdpe : Word
  pde : Word
  pte : Word
  deriving DecidableEq

/-- The entries at the four levels, if each of them is present. -/
def Pmap.walk (s : Pmap) (r : Nat) (va : Word) : Option PtEntries :=
  let pml4e := s.mem (slot r (pml4 va))
  (dec pml4e).bind fun t₁ =>
    let pdpe := s.mem (slot t₁ (JosVmm.pdpe va))
    (dec pdpe).bind fun t₂ =>
      let pde := s.mem (slot t₂ (pdx va))
      (dec pde).bind fun u =>
        let pte := s.mem (slot u (ptx va))
        if pte &&& pteP = 0 then none else some ⟨pml4e, pdpe, pde, pte⟩

namespace PtEntries

/-- The physical address of `va`. -/
def pa (e : PtEntries) (va : Word) : Word := pteAddr e.pte + pgoff va

/-- The user may access the page. -/
def User (e : PtEntries) : Prop :=
  e.pml4e &&& pteU ≠ 0 ∧ e.pdpe &&& pteU ≠ 0 ∧ e.pde &&& pteU ≠ 0 ∧ e.pte &&& pteU ≠ 0

/-- The last-level entry lets the page be written. -/
def LeafWritable (e : PtEntries) : Prop := e.pte &&& pteW ≠ 0

end PtEntries

/-- The physical address that the tables of `r` give for `va`. -/
def Pmap.translate (s : Pmap) (r : Nat) (va : Word) : Option Word :=
  (s.walk r va).map fun e => e.pa va

variable {F : Layout 512} {s s' : Pmap} {r : Nat} {va w : Word}

theorem walk_of_view (h : view rawReading F s r (vpn va) = some w) :
    ∃ t₁ t₂ u, Path s r (vpn va) t₁ t₂ u ∧ s.walk r va = some ⟨s.mem (slot r (pml4 va)),
      s.mem (slot t₁ (pdpe va)), s.mem (slot t₂ (pdx va)), w⟩ := by
  obtain ⟨-, u, hu, hread⟩ := exists_tab_of_view h
  obtain ⟨t₁, t₂, hp⟩ := tab_path_iff.mp hu
  have hread : (if s.mem (slot u (ptx va)) &&& pteP = 0 then none
      else some (s.mem (slot u (ptx va)))) = some w := hread
  refine ⟨t₁, t₂, u, hp, ?_⟩
  obtain ⟨d1, d2, d3⟩ := hp
  simp only [vpn] at d1 d2 d3
  simp only [Pmap.walk, d1, d2, d3, Option.bind_some]
  split at hread
  · cases hread
  · rw [if_neg ‹_›, Option.some.inj hread]

theorem walk_of_view_none (hn : F.Node r (vpn va).path)
    (h : view rawReading F s r (vpn va) = none) : s.walk r va = none := by
  cases hw : s.walk r va with
  | none => rfl
  | some e =>
    simp only [Pmap.walk, Option.bind_eq_some_iff] at hw
    obtain ⟨t₁, d1, t₂, d2, u, d3, hpte⟩ := hw
    split at hpte
    · cases hpte
    · rename_i hp
      have hu : tab s r (vpn va).path = some u := tab_path_iff.mpr ⟨t₁, t₂, d1, d2, d3⟩
      rw [view_of_tab hn hu] at h
      exact absurd h (by
        show (if s.mem (slot u (ptx va)) &&& pteP = 0 then none
          else some (s.mem (slot u (ptx va)))) ≠ none
        rw [if_neg hp]
        exact Option.some_ne_none _)

theorem Path.unique {v : Vpn} {t₁ t₂ u t1' t2' u' : Nat} (h : Path s r v t₁ t₂ u)
    (h' : Path s r v t1' t2' u') : t₁ = t1' ∧ t₂ = t2' ∧ u = u' := by
  obtain rfl := Option.some.inj (h.pml4e.symm.trans h'.pml4e)
  obtain rfl := Option.some.inj (h.pdpe.symm.trans h'.pdpe)
  exact ⟨rfl, rfl, Option.some.inj (h.pde.symm.trans h'.pde)⟩

theorem translate_of_view (h : view rawReading F s r (vpn va) = some w) :
    s.translate r va = some (pteAddr w + pgoff va) := by
  obtain ⟨t₁, t₂, u, -, hw⟩ := walk_of_view h
  rw [Pmap.translate, hw]
  rfl

theorem translate_of_view_none (hn : F.Node r (vpn va).path)
    (h : view rawReading F s r (vpn va) = none) : s.translate r va = none := by
  rw [Pmap.translate, walk_of_view_none hn h]
  rfl

theorem translate_congr (hn : F.Node r (vpn va).path) (h : view rawReading F s' r (vpn va) =
    view rawReading F s r (vpn va)) : s'.translate r va = s.translate r va := by
  cases hv : view rawReading F s r (vpn va) with
  | none => rw [translate_of_view_none hn hv, translate_of_view_none hn (h.trans hv)]
  | some w => rw [translate_of_view hv, translate_of_view (h.trans hv)]

/-- The page that an entry names. -/
theorem view_host_raw (v : Vpn) :
    view hostReading F s r v = (view rawReading F s r v).map fun w => ppn (pteAddr w) := by
  rw [view, view]
  split
  · cases tab s r v.path with
    | none => rfl
    | some u =>
      show dec (s.mem (slot u v.last)) =
        (if s.mem (slot u v.last) &&& pteP = 0 then none else some (s.mem (slot u v.last))).map _
      rw [dec]
      split <;> rfl
  · rfl

end JosVmm
