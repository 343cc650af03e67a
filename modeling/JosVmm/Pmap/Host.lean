import JosVmm.Pmap.Account

/-!
# Page maps — page_lookup, page_remove, page_insert

What the three functions do in an accounted state, at an address of a host root.  Each changes
the view of one page of one root (`Updated`), and keeps every reference accounted for:

* `pageLookup_run`: a lookup finds the page and the entry, and changes nothing;
* `Acct.pageRemove`: a removal clears the entry and gives its reference up;
* `Acct.pageInsert`: an insertion grants the permissions on the way down, gives up what was
  mapped before, and counts the page, unless it was mapped there already.
-/

namespace JosVmm
open Support Support.Radix Support.Prog Support.Counting Function Option Pmap

variable {R : Reading Nat} {F : Layout 512} {A : Finset Nat} {extra : Nat → Nat} {s s' : Pmap}
  {L L' : List Nat} {r u pp q : Nat} {va : Word} {v : Vpn} {w : Word}

noncomputable section

/-- The entry of `v` under `r` is `w` now, for every reading, and no other entry has changed. -/
def Updated (F : Layout 512) (s s' : Pmap) (r : Nat) (v : Vpn) (w : Word) : Prop :=
  ∀ (β : Type) (W : Reading β), view W F s' r = update (view W F s r) v (W.read r w) ∧
    ∀ r' ∈ F.roots, r' ≠ r → view W F s' r' = view W F s r'

theorem Wf.updated (h : Wf F s L) (hn : F.Node r v.path) (ht : tab s r v.path = some u) (w : Word) :
    Updated F s (s.setWord (slot u v.last) w) r v w := fun _ _ =>
  ⟨h.view_setLeaf hn ht w, fun _ hr' hne => h.view_setLeaf_of_ne hn ht w hr' hne⟩

/-- Two updates of one entry are the second. -/
theorem Updated.trans {s'' : Pmap} {w' : Word} (h1 : Updated F s s' r v w)
    (h2 : Updated F s' s'' r v w') : Updated F s s'' r v w' := fun β W =>
  ⟨by rw [(h2 β W).1, (h1 β W).1, update_idem],
    fun r' hr' hne => ((h2 β W).2 r' hr' hne).trans ((h1 β W).2 r' hr' hne)⟩

theorem Updated.of_mem {s'' : Pmap} (h : Updated F s s' r v w) (hm : s''.mem = s'.mem) :
    Updated F s s'' r v w := fun β W => by
  rw [view_of_mem hm]
  exact h β W

theorem Grown.updated {new : List Nat} (g : Grown F s s' new L') (h : Wf F s L) (hr : r ∈ F.roots)
    {s'' : Pmap} (hu : Updated F s' s'' r v w) : Updated F s s'' r v w := fun β W =>
  ⟨by rw [(hu β W).1, g.view h hr], fun r' hr' hne => ((hu β W).2 r' hr' hne).trans (g.view h hr')⟩

/-- The counts after an update. -/
theorem Updated.leaves (h : Updated F s s' r v w) (hr : r ∈ F.roots) (p : Nat) :
    leaves R F s' p + one (view R F s r v = some p) =
      JosVmm.leaves R F s p + one (R.read r w = some p) :=
  total_update hr (h Nat R).1 (h Nat R).2 p

/-- The pages of `A` are mapped nowhere. -/
def Held (R : Reading Nat) (F : Layout 512) (A : Finset Nat) (s : Pmap) : Prop :=
  ∀ p ∈ A, JosVmm.leaves R F s p = 0

theorem Updated.held (h : Updated F s s' r v w) (hr : r ∈ F.roots) (hw : R.read r w = some pp)
    (hA : Held R F A s) : Held R F (A.erase pp) s' := fun p hp => by
  obtain ⟨hne, hp⟩ := Finset.mem_erase.mp hp
  have := h.leaves (R := R) hr p
  rw [hA p hp, hw, one_not fun e => hne (Option.some.inj e).symm] at this
  omega

/-! ### Lookup -/

/-- What `page_lookup` returns. -/
def found (s : Pmap) (r : Nat) (va : Word) : Option (Nat × Ptr) :=
  (tab s r (vpn va).path).bind fun u =>
    (dec (s.mem (slot u (ptx va)))).map fun q => (q, slot u (ptx va))

theorem pageLookup_run (h : Wf F s L) (hn : F.Node r (vpn va).path)
    (hlt : ∀ x, found s r va = some x → x.1 < s.npages) :
    (pageLookup (some (r * 512)) va).run s = .ok (found s r va, s) := by
  have hfind := pml4eWalk_find va (h.tab_lt hn.root rfl) fun ρ c ⟨σ, e⟩ hc =>
    h.tab_lt (Layout.Node.of_append (σ := σ) (e ▸ hn)) hc
  simp only [pageLookup]
  rw [bind_ok hfind, entryAt, vpn_last, found]
  rw [found] at hlt
  cases ht : tab s r (vpn va).path with
  | none => rfl
  | some u =>
    rw [ht] at hlt
    simp only [map_some, bind_some] at hlt ⊢
    rw [bind_ok (load_run (h.slot_lt hn ht _))]
    cases hd : dec (s.mem (slot u (ptx va))) with
    | none =>
      rw [if_neg (not_not.mpr (dec_eq_none.mp hd))]
      rfl
    | some q =>
      have hq : q < s.npages := hlt (q, slot u (ptx va)) (by rw [hd]; rfl)
      have hpa : (pa2page (pteAddr (s.mem (slot u (ptx va))))).run s = .ok (q, s) := by
        rw [pteAddr_of_dec hd, pa2page_run] <;> rw [ppn_page2pa (lt_two_pow_52 hq)]
        exact hq
      rw [if_pos (dec_eq_some.mp hd).1, bind_ok hpa]
      rfl

theorem found_eq (hR : R.read r = dec) (hn : F.Node r (vpn va).path) :
    (found s r va).map Prod.fst = view R F s r (vpn va) := by
  rw [found]
  cases ht : tab s r (vpn va).path with
  | none => rw [view_of_none ht]; rfl
  | some u =>
    rw [view_of_tab hn ht, hR, vpn_last, bind_some, map_map]
    cases dec (s.mem (slot u (ptx va))) <;> rfl

/-! ### Removal -/

theorem Pmap.decref_setWord (s : Pmap) (p a : Nat) (w : Word) :
    (s.decref p).setWord a w = (s.setWord a w).decref p := by
  by_cases h : s.ppRef p = 1#16 ∧ s.ppLink p = none
  · rw [decref, decref, setWord_ppRef, setWord_ppLink, if_pos h, if_pos h]
    rfl
  · rw [decref, decref, setWord_ppRef, setWord_ppLink, if_neg h, if_neg h]
    rfl

theorem pageRemove_none (h : Wf F s L) (hn : F.Node r (vpn va).path) (hf : found s r va = none) :
    (pageRemove (some (r * 512)) va).run s = .ok ((), s) := by
  have hl := pageLookup_run h hn fun x hx => by rw [hf] at hx; cases hx
  simp only [pageRemove]
  rw [bind_ok hl, hf]
  rfl

theorem pageRemove_some (h : Wf F s L) (hn : F.Node r (vpn va).path)
    (ht : tab s r (vpn va).path = some u) (hd : dec (s.mem (slot u (ptx va))) = some q)
    (hq : q < s.npages) : (pageRemove (some (r * 512)) va).run s =
      .ok ((), (s.setWord (slot u (ptx va)) 0).decref q) := by
  have hf : found s r va = some (q, slot u (ptx va)) := by
    rw [found, ht, bind_some, hd]
    rfl
  have hl := pageLookup_run h hn fun x hx => by
    rw [hf] at hx
    cases hx
    exact hq
  have hlt : slot u (ptx va) < (s.decref q).npages * 512 := by
    rw [decref_npages]
    exact h.slot_lt hn ht _
  simp only [pageRemove]
  rw [bind_ok hl, hf]
  rw [bind_ok (pageDecref_run s q), store_run hlt, decref_setWord]

namespace Acct

section

variable (h : Acct R F A extra s L)
include h

/-- Clearing the entry of a counted page and giving its reference up. -/
theorem release (hn : F.Node r v.path) (ht : tab s r v.path = some u) (hv : view R F s r v = some q)
    (hqA : q ∉ A) :
    ∃ L', Acct R F A extra ((s.setWord (slot u v.last) 0).decref q) L' ∧
      (L' = L ∨ L' = q :: L) := by
  have hlt : q < s.npages := h.mapped_lt q (leaves_pos_iff.mpr ⟨r, hn.1, v, hv⟩)
  have hd := h.drop hn ht (R.zero r)
  obtain ⟨L', h', hL'⟩ := hd.decref hqA hlt (by rw [one_of ⟨hqA, hv⟩]; omega)
  refine ⟨L', ?_, hL'⟩
  have hextra : update (fun p => extra p + one (p ∉ A ∧ view R F s r v = some p)) q
      (extra q + one (q ∉ A ∧ view R F s r v = some q) - 1) = extra := by
    funext p
    by_cases e : p = q
    · subst e
      rw [update_self, one_of ⟨hqA, hv⟩, Nat.add_sub_cancel]
    · rw [update_of_ne e, one_not, Nat.add_zero]
      rintro ⟨-, hp⟩
      rw [hv] at hp
      exact e (Option.some.inj hp).symm
  rwa [hextra] at h'

/-- **A removal** clears the entry and gives its reference up. -/
theorem pageRemove (hn : F.Node r (vpn va).path) (hR : R.read r = dec) (hA : Held R F A s) :
    ∃ s' L', (pageRemove (some (r * 512)) va).run s = .ok ((), s') ∧ Acct R F A extra s' L' ∧
      Held R F A s' ∧ (s' = s ∧ L' = L ∧ view R F s r (vpn va) = none ∨
        ∃ u q, tab s r (vpn va).path = some u ∧ view R F s r (vpn va) = some q ∧
          s' = (s.setWord (slot u (ptx va)) 0).decref q ∧ (L' = L ∨ L' = q :: L)) := by
  cases hv : view R F s r (vpn va) with
  | none =>
    have hf : found s r va = none := by
      rw [← map_eq_none_iff (f := Prod.fst), found_eq hR hn, hv]
    exact ⟨s, L, pageRemove_none h.toWf hn hf, h, hA, .inl ⟨rfl, rfl, rfl⟩⟩
  | some q =>
    obtain ⟨-, u, ht, hd⟩ := exists_tab_of_view hv
    have hpos : 0 < leaves R F s q := leaves_pos_iff.mpr ⟨r, hn.1, _, hv⟩
    have hqA : q ∉ A := fun hq => by rw [hA q hq] at hpos; omega
    rw [hR, vpn_last] at hd
    obtain ⟨L', h', hL'⟩ := h.release hn ht hv hqA
    refine ⟨_, L', pageRemove_some h.toWf hn ht hd (h.mapped_lt q hpos), h', fun p hp => ?_,
      .inr ⟨u, q, ht, rfl, rfl, hL'⟩⟩
    have := (h.updated hn ht 0).leaves (R := R) hn.1 p
    rw [hA p hp, R.zero, one_not (c := none = some p) (by simp), vpn_last] at this
    rw [leaves_decref]
    omega

/-- An empty entry takes a page, which is counted for it. -/
theorem count (hn : F.Node r v.path) (ht : tab s r v.path = some u) (hv : view R F s r v = none)
    (hw : R.read r w = some pp) (hlt : pp < s.npages) (hpL : pp ∉ L)
    (hmax : (s.ppRef pp).toNat < 65535) (hA : pp ∈ A → leaves R F s pp = 0) :
    Acct R F (A.erase pp) extra
      ((s.setRef pp (s.ppRef pp + 1#16)).setWord (slot u v.last) w) L := by
  have h1 := h.incRef hpL hmax hA
  have hv1 : view R F (s.setRef pp (s.ppRef pp + 1#16)) r v = none :=
    (congrFun (congrFun (view_of_mem rfl) r) v).trans hv
  have h2 := h1.put hn ht hv1 hw (Finset.notMem_erase pp A) hlt (by rw [update_self]; omega)
  rwa [update_self, Nat.add_sub_cancel, update_idem, update_eq_self] at h2

/-- An entry may change its flags. -/
theorem reflag (hn : F.Node r v.path) (ht : tab s r v.path = some u)
    (hw : R.read r w = view R F s r v) : Acct R F A extra (s.setWord (slot u v.last) w) L := by
  have hl : ∀ p, leaves R F (s.setWord (slot u v.last) w) p = leaves R F s p := fun p => by
    have := h.leaves_setLeaf (R := R) hn ht w p
    rw [hw] at this
    omega
  exact
    { toWf := h.setLeaf hn rfl ht _ w
      exact := fun p hp => by
        rw [hl, h.tables_setLeaf hn ht]
        exact h.exact p hp
      anon := fun p hp => by
        rw [hl, h.tables_setLeaf hn ht]
        exact h.anon p hp
      anon_lt := h.anon_lt
      zero := h.zero
      mapped_lt := fun p hp => h.mapped_lt p (hl p ▸ hp) }

end

end Acct

/-- The permissions `page_insert` grants on the upper levels. -/
def granted (perm : BitVec 32) : Word := (perm &&& ~~~pteAvail).signExtend 64

/-- The three upper entries of `v` grant `g`. -/
def Grants (s : Pmap) (r : Nat) (v : Vpn) (g : Word) : Prop :=
  ∃ t₁ t₂ u, Path s r v t₁ t₂ u ∧ s.mem (slot r v.1) &&& g = g ∧ s.mem (slot t₁ v.2.1) &&& g = g ∧
    s.mem (slot t₂ v.2.2.1) &&& g = g

variable {perm : BitVec 32} {g : Word}

theorem Grants.of_mem (h : Grants s r v g) (hm : s'.mem = s.mem) : Grants s' r v g := by
  obtain ⟨t₁, t₂, u, ⟨d1, d2, d3⟩, h'⟩ := h
  rw [← hm] at d1 d2 d3 h'
  exact ⟨t₁, t₂, u, ⟨d1, d2, d3⟩, h'⟩

/-- A last-level store changes no upper entry. -/
theorem Grants.setLeaf {v' : Vpn} (h : Grants s r v' g) (hw : Wf F s L) (hn' : F.Node r v'.path)
    (hn : F.Node r v.path) (ht : tab s r v.path = some u) (w : Word) :
    Grants (s.setWord (slot u v.last) w) r v' g := by
  obtain ⟨t₁, t₂, u', hp, g1, g2, g3⟩ := h
  obtain ⟨n1, n2, n3⟩ := hp.slots_ne_last hw hn' hn ht v.last
  refine ⟨t₁, t₂, u', ⟨?_, ?_, ?_⟩, ?_, ?_, ?_⟩
  · rw [setWord_of_ne n1]; exact hp.pml4e
  · rw [setWord_of_ne n2]; exact hp.pdpe
  · rw [setWord_of_ne n3]; exact hp.pde
  · rw [setWord_of_ne n1]; exact g1
  · rw [setWord_of_ne n2]; exact g2
  · rw [setWord_of_ne n3]; exact g3

theorem granted_lt (hperm : perm.toNat < 4096) : (granted perm).toNat < 4096 := by
  have hle : (perm &&& ~~~pteAvail).toNat ≤ perm.toNat := by
    exact Nat.and_le_left
  rw [granted, signExtend_toNat (by omega)]
  omega

theorem dec_pteLeaf (hpp : pp < 2 ^ 52) (hperm : perm.toNat < 4096) :
    dec (pteLeaf pp perm) = some pp :=
  dec_leaf hpp (by rw [signExtend_toNat (by omega)]; exact hperm)

/-- The walk of `page_insert` and the permissions it grants on the way. -/
theorem walk_grant (h : Wf F s L) (hn : F.Node r (vpn va).path) (hperm : perm.toNat < 4096)
    (hroom : missing dec s.mem r (vpn va).path ≤ L.length) :
    ∃ s₀ s1 new L' u, L = new ++ L' ∧ new.length = missing dec s.mem r (vpn va).path ∧
      (pml4eWalk (some (r * 512)) va true).run s = .ok (some (slot u (ptx va)), s₀) ∧
      (grantUpper (r * 512) va perm).run s₀ = .ok ((), s1) ∧ Grown F s s1 new L' ∧
      tab s1 r (vpn va).path = some u ∧ Grants s1 r (vpn va) (granted perm) ∧
      ∀ a, a / 512 ∉ L → dec (s.mem a) ≠ none →
        s1.mem a = s.mem a ∨ s1.mem a = s.mem a ||| granted perm := by
  obtain ⟨s₀, new, L', u, hL, hlen, hrun, hg, hu⟩ := (pml4eWalk_create h hn).1 hroom
  have hkeep := pml4eWalk_keeps _ _ _ _ _ _ h.toFreeList hrun
  obtain ⟨t₁, t₂, hp⟩ := tab_path_iff.mp hu
  have hd : ∀ e t, dec e = some t → dec (e ||| granted perm) = some t :=
    fun _ _ => dec_or (granted_lt hperm)
  obtain ⟨hg', hp'⟩ := hg.upper hn hp (hd _ _ hp.pml4e) (hd _ _ hp.pdpe) (hd _ _ hp.pde)
  obtain ⟨m₁, m₂, m3⟩ := hp.upper_mem hg.wf hn (s₀.mem (slot r (vpn va).1) ||| granted perm)
    (s₀.mem (slot t₁ (vpn va).2.1) ||| granted perm)
    (s₀.mem (slot t₂ (vpn va).2.2.1) ||| granted perm)
  have grants : ∀ {a e : Word}, a = e ||| granted perm → a &&& granted perm = granted perm := by
    rintro _ e rfl
    exact or_and_self_right ..
  refine ⟨s₀, _, new, L', u, hL, hlen, hrun, orUpper_run hg.wf hn hp hd, hg', hp'.tab₃,
    ⟨t₁, t₂, u, hp', grants m₁, grants m₂, grants m3⟩, fun a ha hpres => ?_⟩
  rw [← hkeep a ha hpres]
  exact upper_or s₀ r (vpn va) t₁ t₂ (granted perm) a

/-- The state `s'` has the leaf `w` at `v`, on the same way down, and `s` otherwise. -/
structure Mapped (F : Layout 512) (s s' : Pmap) (r : Nat) (v : Vpn) (w : Word) : Prop where
  updated : Updated F s s' r v w
  grants : ∀ g, Grants s r v g → Grants s' r v g
  npages : s'.npages = s.npages

theorem Mapped.setLeaf (h : Wf F s L) (hn : F.Node r v.path) (ht : tab s r v.path = some u)
    (w : Word) : Mapped F s (s.setWord (slot u v.last) w) r v w :=
  ⟨h.updated hn ht w, fun _ hg => hg.setLeaf h hn hn ht w, rfl⟩

theorem Mapped.of_mem {s'' : Pmap} (h : Mapped F s s' r v w) (hm : s''.mem = s'.mem)
    (hnp : s''.npages = s'.npages) : Mapped F s s'' r v w :=
  ⟨h.updated.of_mem hm, fun g hg => (h.grants g hg).of_mem hm, hnp.trans h.npages⟩

theorem Mapped.trans {s'' : Pmap} {w' : Word} (h1 : Mapped F s s' r v w)
    (h2 : Mapped F s' s'' r v w') : Mapped F s s'' r v w' :=
  ⟨h1.updated.trans h2.updated, fun g hg => h2.grants g (h1.grants g hg),
    h2.npages.trans h1.npages⟩

theorem Pmap.decref_ppRef_of_ne {p : Nat} (h : p ≠ q) : (s.decref q).ppRef p = s.ppRef p := by
  unfold decref
  split <;> exact update_of_ne h ..

/-- The last part of an insertion, at an entry that is empty. -/
theorem pageMap_absent (h : Wf F s L) (hn : F.Node r (vpn va).path)
    (ht : tab s r (vpn va).path = some u) (hd : dec (s.mem (slot u (ptx va))) = none) :
    (pageMap (r * 512) (slot u (ptx va)) pp va perm).run s =
      .ok ((), (s.setRef pp (s.ppRef pp + 1#16)).setWord (slot u (ptx va)) (pteLeaf pp perm)) := by
  have hp := dec_eq_none.mp hd
  have hlt : slot u (ptx va) < (s.setRef pp (s.ppRef pp + 1#16)).npages * 512 := h.slot_lt hn ht _
  simp only [pageMap]
  rw [bind_ok (load_run (h.slot_lt hn ht (ptx va))), if_neg fun hc => hc.1 hp,
    if_neg (not_not.mpr hp), bind_ok (incRef_run s pp), store_run hlt]

/-- And at one that maps the page `q`, which is given up. -/
theorem pageMap_replace (perm : BitVec 32) (h : Wf F s L) (hn : F.Node r (vpn va).path)
    (ht : tab s r (vpn va).path = some u) (hd : dec (s.mem (slot u (ptx va))) = some q)
    (hq : q < s.npages) (hpp : pp < s.npages) (hne : pp ≠ q) :
    (pageMap (r * 512) (slot u (ptx va)) pp va perm).run s =
      .ok ((), (((s.setWord (slot u (ptx va)) 0).decref q).setRef pp (s.ppRef pp + 1#16)).setWord
        (slot u (ptx va)) (pteLeaf pp perm)) := by
  obtain ⟨hp, hpq⟩ := dec_eq_some.mp hd
  have hneg : ¬ (s.mem (slot u (ptx va)) &&& pteP ≠ 0 ∧
      page2pa pp = pteAddr (s.mem (slot u (ptx va)))) := by
    rintro ⟨-, he⟩
    rw [← ppn_pteAddr, ← he, ppn_page2pa (lt_two_pow_52 hpp)] at hpq
    exact hne hpq
  have href : ((s.setWord (slot u (ptx va)) 0).decref q).ppRef pp = s.ppRef pp :=
    decref_ppRef_of_ne hne
  have hlt : slot u (ptx va) < (((s.setWord (slot u (ptx va)) 0).decref q).setRef pp
      (s.ppRef pp + 1#16)).npages * 512 := by
    rw [setRef_npages, decref_npages]
    exact h.slot_lt hn ht _
  simp only [pageMap]
  rw [bind_ok (load_run (h.slot_lt hn ht (ptx va))), if_neg hneg, if_pos hp,
    bind_ok (pageRemove_some h hn ht hd hq), bind_ok (incRef_run _ pp), href, store_run hlt]

namespace Acct

section

variable (h : Acct R F A extra s L) (hn : F.Node r (vpn va).path)
  (ht : tab s r (vpn va).path = some u) (hR : R.read r = dec)
include h hn ht hR

/-- The page is mapped there: only the flags change. -/
theorem pageMap_same (hpp : pp < s.npages) (hperm : perm.toNat < 4096)
    (hv : view R F s r (vpn va) = some pp) :
    (pageMap (r * 512) (slot u (ptx va)) pp va perm).run s =
        .ok ((), s.setWord (slot u (ptx va)) (pteLeaf pp perm)) ∧
      Acct R F A extra (s.setWord (slot u (ptx va)) (pteLeaf pp perm)) L ∧
      Mapped F s (s.setWord (slot u (ptx va)) (pteLeaf pp perm)) r (vpn va) (pteLeaf pp perm) := by
  have hd : dec (s.mem (slot u (ptx va))) = some pp := by
    rw [← hv, view_of_tab hn ht, hR, vpn_last]
  have hlt := h.slot_lt hn ht (ptx va)
  refine ⟨?_, h.reflag hn ht ?_, .setLeaf h.toWf hn ht _⟩
  · simp only [pageMap]
    rw [bind_ok (load_run hlt), if_pos ⟨(dec_eq_some.mp hd).1, (pteAddr_of_dec hd).symm⟩,
      pteAddr_of_dec hd]
    exact store_run hlt _
  · rw [hv, hR]
    exact dec_pteLeaf (lt_two_pow_52 hpp) hperm

/-- The entry is empty: the page is counted and mapped. -/
theorem map_empty (hA : pp ∈ A → leaves R F s pp = 0) (hpp : pp < s.npages) (hpL : pp ∉ L)
    (hperm : perm.toNat < 4096) (hmax : (s.ppRef pp).toNat < 65535)
    (hv : view R F s r (vpn va) = none) :
    Acct R F (A.erase pp) extra
        ((s.setRef pp (s.ppRef pp + 1#16)).setWord (slot u (ptx va)) (pteLeaf pp perm)) L ∧
      Mapped F s ((s.setRef pp (s.ppRef pp + 1#16)).setWord (slot u (ptx va)) (pteLeaf pp perm)) r
        (vpn va) (pteLeaf pp perm) := by
  have hread : R.read r (pteLeaf pp perm) = some pp := by
    rw [hR]
    exact dec_pteLeaf (lt_two_pow_52 hpp) hperm
  exact ⟨h.count hn ht hv hread hpp hpL hmax hA, (Mapped.setLeaf h.toWf hn ht _).of_mem rfl rfl⟩

/-- Another page, or none, is mapped there: it is given up, and the new page is counted. -/
theorem pageMap_other (hA : Held R F A s) (hpp : pp < s.npages) (hpL : pp ∉ L)
    (hperm : perm.toNat < 4096) (hmax : (s.ppRef pp).toNat < 65535)
    (hv : view R F s r (vpn va) ≠ some pp) :
    ∃ s' L', (pageMap (r * 512) (slot u (ptx va)) pp va perm).run s = .ok ((), s') ∧
      Acct R F (A.erase pp) extra s' L' ∧ Mapped F s s' r (vpn va) (pteLeaf pp perm) := by
  have hleaf : view R F s r (vpn va) = dec (s.mem (slot u (ptx va))) := by
    rw [view_of_tab hn ht, hR, vpn_last]
  cases hq : view R F s r (vpn va) with
  | none =>
    obtain ⟨hs', hm⟩ := h.map_empty hn ht hR (hA pp) hpp hpL hperm hmax hq
    exact ⟨_, L, pageMap_absent h.toWf hn ht (hleaf.symm.trans hq), hs', hm⟩
  | some q =>
    have hne : pp ≠ q := by rintro rfl; exact hv hq
    have hd : dec (s.mem (slot u (ptx va))) = some q := hleaf.symm.trans hq
    have hqA : q ∉ A := fun hc => by
      have := leaves_pos_iff.mpr ⟨r, hn.1, _, hq⟩
      rw [hA q hc] at this
      omega
    have hqlt := h.mapped_lt q (leaves_pos_iff.mpr ⟨r, hn.1, _, hq⟩)
    have hrun := pageMap_replace perm h.toWf hn ht hd hqlt hpp hne
    obtain ⟨L2, h2, hL2⟩ := h.release hn ht hq hqA
    rw [vpn_last] at h2
    have hclear : Mapped F s ((s.setWord (slot u (ptx va)) 0).decref q) r (vpn va) 0 :=
      (Mapped.setLeaf h.toWf hn ht 0).of_mem decref_mem decref_npages
    have hv2 : view R F ((s.setWord (slot u (ptx va)) 0).decref q) r (vpn va) = none := by
      rw [(hclear.updated Nat R).1, update_self, R.zero]
    have ht2 : tab ((s.setWord (slot u (ptx va)) 0).decref q) r (vpn va).path = some u := by
      rw [tab, decref_mem]
      exact (h.tab_setLeaf hn rfl ht _ 0 hn).trans ht
    have hA2 : pp ∈ A → leaves R F ((s.setWord (slot u (ptx va)) 0).decref q) pp = 0 := by
      intro hc
      rw [leaves_decref]
      have := h.leaves_setLeaf (R := R) hn ht 0 pp
      rw [hA pp hc, one_not (c := R.read r 0 = some pp) (by rw [R.zero]; simp)] at this
      exact (Nat.add_eq_zero_iff.mp this).1
    have hL2' : pp ∉ L2 := by
      rcases hL2 with rfl | rfl
      · exact hpL
      · simp [hne, hpL]
    have href : ((s.setWord (slot u (ptx va)) 0).decref q).ppRef pp = s.ppRef pp :=
      decref_ppRef_of_ne hne
    obtain ⟨hs', hm⟩ := h2.map_empty hn ht2 hR hA2
      (by rw [decref_npages]; exact hpp) hL2' hperm (by rw [href]; exact hmax) hv2
    rw [href] at hs' hm
    exact ⟨_, L2, hrun, hs', hclear.trans hm⟩

end

/-- **An insertion** grants the permissions on the way down, gives up what was mapped before, and
counts the page, unless it was mapped there already. -/
theorem pageInsert (h : Acct R F A extra s L) (hn : F.Node r (vpn va).path) (hR : R.read r = dec)
    (hA : Held R F A s) (hpp : pp < s.npages) (hpL : pp ∉ L) (hperm : perm.toNat < 4096)
    (hmax : view R F s r (vpn va) = some pp ∨ (s.ppRef pp).toNat < 65535)
    (hroom : missing dec s.mem r (vpn va).path ≤ L.length) :
    ∃ s' L', (pageInsert (some (r * 512)) (some pp) va perm).run s = .ok (.ok (), s') ∧
      Acct R F (A.erase pp) extra s' L' ∧ Updated F s s' r (vpn va) (pteLeaf pp perm) ∧
      Grants s' r (vpn va) (granted perm) ∧ s'.npages = s.npages ∧
      (view R F s r (vpn va) = some pp → s'.ppRef = s.ppRef) := by
  obtain ⟨s₀, s1, new, L1, u, rfl, hlen, hwalk, hgrant, hg, ht, hgr, -⟩ :=
    walk_grant h.toWf hn hperm hroom
  have h1 := h.grown hg
  have hpp1 : pp < s1.npages := hg.npages ▸ hpp
  have hview : view R F s1 r (vpn va) = view R F s r (vpn va) := congrFun (hg.view h.toWf hn.1) _
  have hleaves : ∀ p, leaves R F s1 p = leaves R F s p := fun p =>
    total_congr (fun _ hr => hg.view h.toWf hr) p
  have href : s1.ppRef pp = s.ppRef pp := by
    rw [hg.ref, if_neg fun hc => hpL (List.mem_append_left L1 hc)]
  -- what is left is the last part, from the grown state
  suffices hmap : ∃ s' L', (pageMap (r * 512) (slot u (ptx va)) pp va perm).run s1 = .ok ((), s') ∧
      Acct R F (A.erase pp) extra s' L' ∧ Mapped F s1 s' r (vpn va) (pteLeaf pp perm) ∧
      (view R F s r (vpn va) = some pp → s'.ppRef = s.ppRef) by
    obtain ⟨s', L', hrun, h', hm, hsame⟩ := hmap
    refine ⟨s', L', ?_, h', hg.updated h.toWf hn.1 hm.updated, hm.grants _ hgr,
      hm.npages.trans hg.npages, hsame⟩
    simp only [JosVmm.pageInsert]
    rw [bind_ok hwalk]
    rw [bind_ok hgrant, bind_ok hrun]
    rfl
  by_cases hsame : view R F s r (vpn va) = some pp
  · have hppA : pp ∉ A := fun hc => by
      have := leaves_pos_iff.mpr ⟨r, hn.1, _, hsame⟩
      rw [hA pp hc] at this
      omega
    obtain ⟨hrun, h', hm⟩ := h1.pageMap_same hn ht hR hpp1 hperm (hview.trans hsame)
    rw [Finset.erase_eq_of_notMem hppA]
    refine ⟨_, L1, hrun, h', hm, fun _ => ?_⟩
    obtain ⟨-, u0, ht0, -⟩ := exists_tab_of_view hsame
    rw [missing_eq_zero ht0, List.length_eq_zero_iff] at hlen
    subst hlen
    funext p
    rw [setWord_ppRef, hg.ref, if_neg List.not_mem_nil]
  · obtain ⟨s', L', hrun, h', hm⟩ := h1.pageMap_other hn ht hR
      (fun q hq => (hleaves q).trans (hA q hq)) hpp1 (fun hc => hpL (List.mem_append_right new hc))
      hperm (by rw [href]; exact hmax.resolve_left hsame) (by rwa [hview])
    exact ⟨s', L', hrun, h', hm, fun hc => absurd hc hsame⟩

end Acct

/-- An insertion that lacks the pages for its tables changes nothing but free memory. -/
theorem pageInsert_noMem (pp : Nat) (perm : BitVec 32) (h : Wf F s L)
    (hn : F.Node r (vpn va).path) (hroom : L.length < missing dec s.mem r (vpn va).path) :
    ∃ m, (pageInsert (some (r * 512)) (some pp) va perm).run s = .ok (.error .noMem, s.withMem m) ∧
      ∀ a, a / 512 ∉ L → m a = s.mem a := by
  obtain ⟨m, hrun, hm⟩ := (pml4eWalk_create h hn).2 hroom
  refine ⟨m, ?_, hm⟩
  simp only [pageInsert]
  rw [bind_ok hrun]
  rfl

end

end JosVmm
