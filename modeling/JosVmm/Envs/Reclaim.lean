import JosVmm.Envs.Setup
import JosVmm.Envs.Flush

/-!
# Environments — what `env_free` gives back

An environment from `env_alloc` to `env_free`, with pages mapped into it in between, new ones as
`region_alloc` does, and shared ones.  `env_free` puts every count and the free list back to what
they were if and only if every page that is mapped at the end is at an address it sweeps
(`envFree_restores`).  The stack page of every program is not (`stackPage_lost`).
-/

namespace JosVmm
open Support Support.Radix Support.Prog Support.Counting Function Finset Pmap

/-! ### Pages for an environment -/

/-- What is done to the address space of an environment. -/
inductive AddrOp where
  /-- A new page, as in the loop of `region_alloc`. -/
  | fresh (allocZero : Bool) (va : Word) (perm : BitVec 32)
  /-- A page that is in use. -/
  | share (pp : Nat) (va : Word) (perm : BitVec 32)
  /-- A word of memory, such as of a program that is copied. -/
  | write (a : Ptr) (w : Word)

namespace AddrOp

def exec (e : EnvIx) : AddrOp → Km Unit
  | fresh allocZero va perm => do
    match ← onPmap (pageAlloc allocZero) with
    | none => throw .noMemory
    | some pp =>
      let v ← getEnv e
      match ← onPmap (pageInsert v.envPml4e (some pp) va perm) with
      | .error _ => throw .noMemory
      | .ok () => pure ()
  | share pp va perm => do
    let v ← getEnv e
    let _ ← onPmap (pageInsert v.envPml4e (some pp) va perm)
  | write a w => onPmap (store a w)

/-- Insertions are in the range of entry 0, with 12 bits of permissions; a shared page is counted,
and its count has room unless the page is mapped there already.  No table is written to. -/
def Legal (e : EnvIx) (k : Kernel) : AddrOp → Prop
  | fresh _ va perm => pml4 va = 0 ∧ perm.toNat < 4096
  | share pp va perm => pml4 va = 0 ∧ perm.toNat < 4096 ∧ pp < k.pm.npages ∧
      k.pm.ppRef pp ≠ 0#16 ∧ ((k.pm.ppRef pp).toNat < 65535 ∨
        ∃ pte, lookupEnv k e va = .ok (some (pp, pte)))
  | write a _ => ∀ r, (k.envs e).envPml4e = some (r * 512) →
      ¬ (single (· = 0) r).IsTable dec k.pm.mem (a / 512)

/-- Insertions are in `M`. -/
def Within (M : Vpn → Prop) : AddrOp → Prop
  | fresh _ va _ => M (vpn va)
  | share _ va _ => M (vpn va)
  | write _ _ => True

theorem within_true (op : AddrOp) : op.Within fun _ => True := by cases op <;> trivial

end AddrOp

/-- Every count and the free list are as in `k`. -/
def Restored (k k' : Kernel) : Prop :=
  (∀ p, k'.pm.ppRef p = k.pm.ppRef p) ∧ ∀ p, OnFreeList k'.pm p ↔ OnFreeList k.pm p

/-! ### An address space in use -/

/-- The address space of the root `r`, with pages mapped in `M` only, when the other counts are
those of `s₀`.  Every table leads to a page that is mapped. -/
structure AddrSpace (A : Finset Nat) (s₀ : Pmap) (M : Vpn → Prop) (r : Nat) (s : Pmap) : Prop where
  acct : ∃ L, Acct hostReading (single (· = 0) r) A (fun p => (s₀.ppRef p).toNat) s L
  held : Held hostReading (single (· = 0) r) A s
  npages : s.npages = s₀.npages
  used : ∀ π t, (single (· = 0) r).Node r π → π ≠ [] → tab s r π = some t →
    ∃ v, π <+: v.path ∧ mapping s r v ≠ none
  within : ∀ v, mapping s r v ≠ none → M v

variable {A : Finset Nat} {M : Vpn → Prop} {s₀ s s' : Pmap} {r p pp : Nat} {va : Word}
  {perm : BitVec 32} {L : List Nat} {v : Vpn} {k₀ k k' : Kernel} {e : EnvIx}

/-- A change of memory off the tables. -/
theorem AddrSpace.withMem {m : Nat → Word} (h : AddrSpace A s₀ M r s)
    (hm : ∀ t, (single (· = 0) r).IsTable dec s.mem t → ∀ i : Fin 512,
      m (slot t i) = s.mem (slot t i)) : AddrSpace A s₀ M r (s.withMem m) := by
  obtain ⟨L, hA⟩ := h.acct
  have hview : mapping (s.withMem m) r = mapping s r :=
    hA.view_withMem hm (mem_singleton_self r)
  refine ⟨⟨L, hA.withMem hm⟩, fun p hp => ?_, h.npages, fun π t hn hne ht => ?_, fun v hv => ?_⟩
  · exact (total_congr (fun r' hr' => hA.view_withMem hm hr') p).trans (h.held p hp)
  · rw [hview]
    exact h.used π t hn hne ((Layout.tableAt_agree hm hn).symm.trans ht)
  · rw [hview] at hv
    exact h.within v hv

/-- A page is handed out. -/
theorem AddrSpace.handOut (z : Bool) (h : AddrSpace A s₀ M r s) (hL : FreeList s (p :: L)) :
    AddrSpace (insert p A) s₀ M r (s.handOut z p) := by
  obtain ⟨L', hA⟩ := h.acct
  obtain rfl : L' = p :: L := hA.chain.functional hL.chain
  have hview : mapping (s.handOut z p) r = mapping s r :=
    (hA.handOut z).2 Nat hostReading r (mem_singleton_self r)
  refine ⟨⟨L, (hA.handOut z).1⟩, fun q hq => ?_, (handOut_npages z).trans h.npages,
    fun π t hn hne ht => ?_, fun v hv => h.within v (hview ▸ hv)⟩
  · rw [hA.leaves_handOut]
    rcases Finset.mem_insert.mp hq with rfl | hq
    · exact (hA.ref_of_free (List.mem_cons_self ..)).1
    · exact h.held q hq
  · have htab : tab (s.handOut z p) r π = tab s r π :=
      Layout.tableAt_agree (fun u hu i => handOut_mem z (by
        rw [slot_div]
        rintro rfl
        exact hA.table_not_free u hu (List.mem_cons_self ..))) hn
    rw [hview]
    exact h.used π t hn hne (htab.symm.trans ht)

/-- **An insertion** maps the page, or lacks the memory and changes nothing. -/
theorem AddrSpace.insert {res : Except Err Unit} (h : AddrSpace A s₀ M r s) (hva : pml4 va = 0)
    (hM : M (vpn va)) (hpp : pp < s.npages) (hfree : ¬ OnFreeList s pp) (hperm : perm.toNat < 4096)
    (hmax : mapping s r (vpn va) = some pp ∨ (s.ppRef pp).toNat < 65535)
    (hrun : (pageInsert (some (r * 512)) (some pp) va perm).run s = .ok (res, s')) :
    (∃ er, res = .error er) ∧ AddrSpace A s₀ M r s' ∨
      res = .ok () ∧ AddrSpace (A.erase pp) s₀ M r s' := by
  obtain ⟨L, hA⟩ := h.acct
  have hn : (single (· = 0) r).Node r (vpn va).path := single_node hva
  rcases Nat.lt_or_ge L.length (missing dec s.mem r (vpn va).path) with hlt | hle
  · obtain ⟨m, hrun', hm⟩ := pageInsert_noMem pp perm hA.toWf hn hlt
    cases hrun'.symm.trans hrun
    refine .inl ⟨⟨_, rfl⟩, h.withMem fun t ht i => hm _ ?_⟩
    rw [slot_div]
    exact hA.table_not_free t ht
  · obtain ⟨s1, L', hrun', hA', hu, -, hnp, -⟩ := hA.pageInsert hn rfl h.held hpp
      (fun hL => hfree (hA.chain.reaches_of_mem hL)) hperm hmax hle
    cases hrun'.symm.trans hrun
    have hread : dec (pteLeaf pp perm) = some pp := dec_pteLeaf (lt_two_pow_52 hpp) hperm
    have hview : mapping s' r = update (mapping s r) (vpn va) (some pp) := by
      rw [← hread]
      exact (hu Nat hostReading).1
    refine .inr ⟨rfl, ⟨L', hA'⟩, hu.held hn.1 hread h.held, hnp.trans h.npages,
      fun π t hπ hne ht => ?_, fun v hv => ?_⟩
    · rcases pageInsert_grows hA.toWf hn hperm hrun hπ ht with ht | ⟨-, hp⟩
      · obtain ⟨v, hv, hm⟩ := h.used π t hπ hne ht
        refine ⟨v, hv, ?_⟩
        rw [hview]
        by_cases e : v = vpn va
        · rw [e, update_self]
          nofun
        · rw [update_of_ne e]
          exact hm
      · refine ⟨vpn va, hp, ?_⟩
        rw [hview, update_self]
        nofun
    · by_cases e : v = vpn va
      · rw [e]
        exact hM
      · rw [hview, update_of_ne e] at hv
        exact h.within v hv

/-! ### What is left -/

theorem SweptPage.table {π : List (Fin 512)} (h : SweptPage v) (hπ : π <+: v.path)
    (hne : π ≠ []) : SweptTable π := by
  obtain ⟨a, d, e, i⟩ := v
  match π, hπ, hne with
  | [_], _, _ => trivial
  | [b, d'], hπ, _ =>
    obtain ⟨rfl, rfl⟩ : b = a ∧ d' = d := by simpa [Vpn.path] using hπ
    exact h.1
  | [b, d', e'], hπ, _ =>
    obtain ⟨rfl, rfl, rfl⟩ : b = a ∧ d' = d ∧ e' = e := by simpa [Vpn.path] using hπ
    exact ⟨h.1, h.2.1⟩
  | _ :: _ :: _ :: _ :: _, hπ, _ => exact absurd hπ.length_le (by simp [Vpn.path_length])

/-- What is not due is what is mapped outside of the sweep. -/
theorem AddrSpace.stray_iff (h : AddrSpace A s₀ M r s) :
    (∀ p, due (fun v => ¬ SweptPage v) (fun π => ¬ SweptTable π) hostReading (single (· = 0) r) s r
      p = 0) ↔ ∀ v, mapping s r v ≠ none → SweptPage v := by
  constructor
  · intro hdue v hv
    obtain ⟨p, hp⟩ := Option.ne_none_iff_exists'.mp hv
    by_contra hS
    exact (due_eq_zero_iff.mp (hdue p)).1 v hS hp
  · intro hall p
    refine due_eq_zero_iff.mpr ⟨fun v hS hv => hS (hall v ?_), fun π hne hT ht => hT ?_⟩
    · rw [mapping, hv]
      nofun
    · obtain ⟨v, hp, hv⟩ := h.used π p ht.1 hne ht.2
      exact (hall v hv).table hp hne

/-- Nothing is due below an empty entry. -/
theorem due_of_empty {S : Vpn → Prop} {T : List (Fin 512) → Prop} (h : tab s r [0] = none)
    (p : Nat) : due S T hostReading (single (· = 0) r) s r p = 0 := by
  have hnone : ∀ {π : List (Fin 512)} {t : Nat}, (single (· = 0) r).Node r π → π ≠ [] →
      tab s r π ≠ some t := fun {π t} hn hne ht => by
    cases π with
    | nil => exact hne rfl
    | cons i π =>
      obtain rfl : i = 0 := hn.2.2 i rfl
      obtain ⟨c, hc⟩ := tableAt_prefix ht (ρ := [0]) ⟨π, rfl⟩
      rw [tab, hc] at h
      cases h
  refine due_eq_zero_iff.mpr ⟨fun v _ hv => ?_, fun π hne _ ht => hnone ht.1 hne ht.2⟩
  obtain ⟨hdom, u, hu, -⟩ := exists_tab_of_view hv
  exact hnone (single_node hdom) (List.cons_ne_nil _ _) hu

/-- **The address space is flushed and its root released**: the counts are those of `s₀` and of
what is not due. -/
theorem AddrSpace.release (h : AddrSpace A s₀ M r s) :
    ∃ s1 L, (flushUser (r * 512)).run s = .ok ((), s1) ∧ s1.npages = s₀.npages ∧
      FreeList (s1.decref r) L ∧
      (∀ p, p ∈ L ↔ p < s₀.npages ∧ (s1.decref r).ppRef p = 0#16 ∧ p ∉ A) ∧
      ∀ p, ((s1.decref r).ppRef p).toNat = (s₀.ppRef p).toNat +
        due (fun v => ¬ SweptPage v) (fun π => ¬ SweptTable π) hostReading (single (· = 0) r) s r
          p := by
  obtain ⟨L, hA⟩ := h.acct
  have hstart : Flushing A r s s := ⟨⟨_, L, hA⟩, h.held, rfl, fun _ => rfl⟩
  obtain ⟨s1, hrun, hs1, hgone⟩ := hstart.flushUser
  obtain ⟨extra1, L1, hA1⟩ := hs1.acct
  have hmem : r ∈ (single (· = 0) r).roots := mem_singleton_self r
  have hrT : (single (· = 0) r).IsTable dec s1.mem r := Layout.isTable_root hmem
  have hrA : r ∉ A := fun hr => tables_eq_zero.mp (hA1.anon r hr).2.2.2.1 hrT
  have hnp : s1.npages = s₀.npages := hs1.npages.trans h.npages
  -- the root leaves the layout, and its count goes down
  obtain ⟨L3, hA3, -⟩ := (hA1.prune hmem).decref hrA (hA1.table_lt r hrT) (by
    have hone : tables ((single (· = 0) r).only r) s1 r = 1 :=
      tables_eq_one (Layout.isTable_root (mem_singleton_self r))
    rw [if_neg hrA, debt, hone]
    omega)
  refine ⟨s1, L3, hrun, hnp, hA3.toFreeList, fun p => ?_, fun p => ?_⟩
  · rw [hA3.mem_free_iff, decref_npages, hnp]
  · have hne : s1.ppRef r ≠ 0#16 := hA1.ref_ne_zero hrA (by rw [tables_eq_one hrT]; omega)
    have h1 := decref_toNat hne p
    have h2 := hs1.ledger p
    have h3 := hA.toWf.due_compl (S := SweptPage) (T := SweptTable) (R := hostReading) p
    rw [due_of_empty hgone] at h2
    by_cases hp : p ∈ A
    · obtain ⟨-, href, -, htab, hex⟩ := hA.anon p hp
      rw [h.held p hp, htab] at h3
      rw [href, BitVec.toNat_ofNat, Nat.zero_mod] at h2
      omega
    · have h4 := hA.exact p hp
      omega

/-! ### Runs -/

/-- The environment `e` is alive, with the address space of the root `r`. -/
structure Alive (A : Finset Nat) (s₀ : Pmap) (M : Vpn → Prop) (e : EnvIx) (k : Kernel) : Prop where
  space : ∃ r, (k.envs e).envPml4e = some (r * 512) ∧ (k.envs e).envCr3 = page2pa r ∧
    AddrSpace A s₀ M r k.pm
  user : (k.envs e).envType = .user

/-- **`env_alloc`** makes an empty address space. -/
theorem alive_of_envAlloc (M : Vpn → Prop) {parentId : EnvId} (hL : FreeList k₀.pm L)
    (hrun : (envAlloc parentId).run k₀ = .ok (.ok e, k)) :
    ∃ A, (∀ p, p ∈ L ↔ p < k₀.pm.npages ∧ k₀.pm.ppRef p = 0#16 ∧ p ∉ A) ∧ Alive A k₀.pm M e k := by
  obtain ⟨⟨er, her⟩, -⟩ | ⟨g, p, L', w, heq, -, rfl, -, rfl⟩ := envAlloc_cases hL hrun
  · cases her
  · obtain rfl := Except.ok.inj heq
    obtain ⟨hl0, hA0⟩ := hL.acct_empty (R := hostReading)
      (F := ⟨3, ∅, fun _ i => i = 0⟩) rfl rfl
    obtain ⟨-, hA, hleaves⟩ := hA0.newRoot (w := w) fun i hi => hi
    rw [show Layout.plant ⟨3, ∅, fun _ i => i = 0⟩ p = single (· = 0) p from rfl] at hA hleaves
    refine ⟨_, fun q => hA0.mem_free_iff, ⟨p, ?_, ?_, ⟨L', hA⟩, fun q _ => ?_, rfl, ?_,
      ?_⟩, ?_⟩
    · rw [Kernel.newEnv_self]
      rfl
    · rw [Kernel.newEnv_self]
      rfl
    · exact (hleaves q).trans (hl0 q)
    · -- there is no table but the root
      rintro π t hn hne ht
      cases π with
      | nil => exact absurd rfl hne
      | cons i π =>
        obtain rfl : i = 0 := hn.2.2 i rfl
        have hzero : (k₀.pm.newRoot p w).mem (slot p (0 : Fin 512)) = 0 := newRoot_zero
        change tableAt dec (k₀.pm.newRoot p w).mem p (0 :: π) = some t at ht
        rw [tableAt, hzero, dec_zero] at ht
        cases ht
    · -- and no page is mapped
      intro v hv
      obtain ⟨q, hq⟩ := Option.ne_none_iff_exists'.mp hv
      have hpos := leaves_pos_iff.mpr ⟨p, mem_singleton_self p, v, hq⟩
      exact absurd ((hleaves q).trans (hl0 q)) (Nat.ne_of_gt hpos)
    · rw [Kernel.newEnv_self]
      rfl

theorem Alive.step {op : AddrOp} (h : Alive A s₀ M e k) (hlegal : op.Legal e k) (hM : op.Within M)
    (hrun : (op.exec e).run k = .ok ((), k')) : Alive A s₀ M e k' := by
  obtain ⟨⟨r, hroot, hcr3, h⟩, huser⟩ := h
  cases op with
  | fresh z va perm =>
    obtain ⟨hva, hperm⟩ := hlegal
    obtain ⟨L, hA⟩ := h.acct
    obtain ⟨o, k₁, hk1, hrest⟩ := bind_inv hrun
    obtain ⟨s1, hs1, rfl⟩ := onPmap_eq_ok hk1
    cases L with
    | nil =>
      cases (pageAlloc_none hA.nil z).symm.trans hs1
      cases hrest
    | cons p L =>
      cases (hA.toFreeList.pageAlloc z).symm.trans hs1
      have h1 := h.handOut z hA.toFreeList
      obtain ⟨L1, hA1⟩ := h1.acct
      have hp : p ∈ insert p A := mem_insert_self ..
      obtain ⟨hpL, href, -⟩ := hA1.anon p hp
      dsimp only at hrest
      rw [bind_ok getEnv_run] at hrest
      obtain ⟨res, k₂, hk2, hrest⟩ := bind_inv hrest
      obtain ⟨s2, hs2, rfl⟩ := onPmap_eq_ok hk2
      change (pageInsert (k.envs e).envPml4e (some p) va perm).run (k.pm.handOut z p) = _ at hs2
      rw [hroot] at hs2
      obtain ⟨⟨er, rfl⟩, -⟩ | ⟨rfl, h2⟩ := h1.insert hva hM (hA1.anon_lt p hp)
        (fun hfree => hpL (hA1.chain.mem_of_reaches hfree)) hperm
        (.inr (by rw [href]; decide)) hs2
      · cases hrest
      · cases hrest
        have hpA : p ∉ A := fun hpA => (hA.anon p hpA).1 (List.mem_cons_self ..)
        rw [erase_insert hpA] at h2
        exact ⟨⟨r, hroot, hcr3, h2⟩, huser⟩
  | share pp va perm =>
    obtain ⟨hva, hperm, hpp, href, hmax⟩ := hlegal
    obtain ⟨L, hA⟩ := h.acct
    have hpA : pp ∉ A := fun hpA => href (hA.anon pp hpA).2.1
    rw [AddrOp.exec, bind_ok getEnv_run] at hrun
    obtain ⟨res, k₁, hk1, hrest⟩ := bind_inv hrun
    cases hrest
    obtain ⟨s1, hs1, rfl⟩ := onPmap_eq_ok hk1
    rw [lookupEnv, hroot] at hmax
    rw [hroot] at hs1
    have hmax' : mapping k.pm r (vpn va) = some pp ∨ (k.pm.ppRef pp).toNat < 65535 := by
      rcases hmax with hlt | ⟨pte, hlook⟩
      · exact .inr hlt
      · exact .inl (hA.toWf.view_of_lookupAt (single_node hva) rfl hlook)
    obtain ⟨-, h1⟩ | ⟨-, h1⟩ := h.insert hva hM hpp
      (fun hfree => href (hA.ref pp (hA.chain.mem_of_reaches hfree))) hperm hmax' hs1
    · exact ⟨⟨r, hroot, hcr3, h1⟩, huser⟩
    · rw [erase_eq_of_notMem hpA] at h1
      exact ⟨⟨r, hroot, hcr3, h1⟩, huser⟩
  | write a w =>
    obtain ⟨s1, hs1, rfl⟩ := onPmap_eq_ok hrun
    obtain rfl := store_eq_ok hs1
    refine ⟨⟨r, hroot, hcr3, h.withMem fun t ht i => ?_⟩, huser⟩
    refine update_of_ne (fun ha => hlegal r hroot ?_) ..
    rw [← ha, slot_div]
    exact ht

/-- The counts and the free list come back together. -/
theorem restored_iff {L3 : List Nat} {stray : Nat → Nat} (hL : FreeList k.pm L)
    (hL3 : FreeList k'.pm L3) (hmem : ∀ p, p ∈ L ↔ p < k.pm.npages ∧ k.pm.ppRef p = 0#16 ∧ p ∉ A)
    (hmem3 : ∀ p, p ∈ L3 ↔ p < k.pm.npages ∧ k'.pm.ppRef p = 0#16 ∧ p ∉ A)
    (href : ∀ p, (k'.pm.ppRef p).toNat = (k.pm.ppRef p).toNat + stray p) :
    Restored k k' ↔ ∀ p, stray p = 0 := by
  constructor
  · rintro ⟨hsame, -⟩ p
    have := href p
    rw [hsame p] at this
    omega
  · intro hstray
    have hsame : ∀ p, k'.pm.ppRef p = k.pm.ppRef p := fun p =>
      BitVec.eq_of_toNat_eq (by rw [href, hstray, Nat.add_zero])
    have hon : ∀ {s L} (p : Nat), FreeList s L → (OnFreeList s p ↔ p ∈ L) := fun p h =>
      ⟨h.chain.mem_of_reaches, h.chain.reaches_of_mem⟩
    refine ⟨hsame, fun p => ?_⟩
    rw [hon p hL3, hon p hL, hmem3, hmem, hsame]

/-- If insertions are in `M`, pages are found in `M`. -/
theorem lookup_within {k₁ k₂ : Kernel} {parentId : EnvId} (hL : FreeList k₀.pm L)
    (halloc : (envAlloc parentId).run k₀ = .ok (.ok e, k₁))
    (hr : Reach (AddrOp.exec e) (fun k op => op.Legal e k ∧ op.Within M) k₁ k₂) {x : Nat × Ptr}
    (h0 : pml4 va = 0) (hlook : lookupEnv k₂ e va = .ok (some x)) : M (vpn va) := by
  obtain ⟨A, -, h1⟩ := alive_of_envAlloc M hL halloc
  obtain ⟨⟨r, hroot, -, h⟩, -⟩ : Alive A k₀.pm M e k₂ :=
    invariant (fun _ _ h ⟨_, hC, hrun⟩ => h.step hC.1 hC.2 hrun) h1 hr
  obtain ⟨L2, hA⟩ := h.acct
  rw [lookupEnv, hroot] at hlook
  refine h.within _ ?_
  rw [mapping, hA.toWf.view_of_lookupAt (single_node h0) rfl hlook]
  nofun

/-- **`env_free` gives everything back if and only if every page that is mapped is swept.** -/
theorem envFree_restores {k₁ k₂ : Kernel} {parentId : EnvId} (hL : ∃ L, FreeList k₀.pm L)
    (halloc : (envAlloc parentId).run k₀ = .ok (.ok e, k₁))
    (hr : Reach (AddrOp.exec e) (AddrOp.Legal e) k₁ k₂) :
    ∃ k₃, (envFree e).run k₂ = .ok ((), k₃) ∧
      (Restored k₀ k₃ ↔ ∀ va x, pml4 va = 0 → lookupEnv k₂ e va = .ok (some x) →
        SweptPage (vpn va)) := by
  obtain ⟨L, hL⟩ := hL
  obtain ⟨A, hmem₀, h₁⟩ := alive_of_envAlloc (fun _ => True) hL halloc
  obtain ⟨⟨r, hroot, hcr3, h⟩, huser⟩ : Alive A k₀.pm (fun _ => True) e k₂ :=
    invariant (by
      rintro _ _ h ⟨op, hC, hrun⟩
      exact h.step hC op.within_true hrun) h₁ hr
  obtain ⟨s₁, L₃, hflush, hnp, hL₃, hmem₃, href⟩ := h.release
  obtain ⟨L₂, hA⟩ := h.acct
  have hr₂ : r < k₂.pm.npages := hA.table_lt r (Layout.isTable_root (mem_singleton_self r))
  obtain ⟨k₃, hfree, hpm⟩ : ∃ k₃, (envFree e).run k₂ = .ok ((), k₃) ∧ k₃.pm = s₁.decref r := by
    have hlt : r < s₁.npages := by
      rw [hnp, ← h.npages]
      exact hr₂
    have hflush' : (do flushUser (← table (k₂.envs e).envPml4e) : Pm Unit).run k₂.pm =
        .ok ((), s₁) := by
      rw [hroot, bind_ok (a := r * 512) (u := k₂.pm) rfl, hflush]
    have hpage : (do pageDecref (← pa2page (k₂.envs e).envCr3) : Pm Unit).run s₁ =
        .ok ((), s₁.decref r) := by
      have hppn : ppn (page2pa r) = r := ppn_page2pa (lt_two_pow_52 hlt)
      rw [hcr3, bind_ok (pa2page_run (by rwa [hppn])), hppn, pageDecref_run]
    rw [envFree, bind_ok getEnv_run, if_neg (by rw [huser]; decide),
      bind_ok (onPmap_ok hflush'), bind_ok (modifyEnv_run _)]
    rw [bind_ok (onPmap_ok hpage)]
    exact ⟨_, rfl, rfl⟩
  refine ⟨k₃, hfree, (restored_iff hL (hpm ▸ hL₃) hmem₀ (hpm ▸ hmem₃) (hpm ▸ href)).trans
    (h.stray_iff.trans ⟨fun hall va x h0 hlook => hall _ ?_, fun hall v hv => ?_⟩)⟩
  · rw [lookupEnv, hroot] at hlook
    rw [mapping, hA.toWf.view_of_lookupAt (single_node h0) rfl hlook]
    exact Option.some_ne_none _
  · obtain ⟨q, hq⟩ := Option.ne_none_iff_exists'.mp hv
    obtain ⟨hdom, -⟩ := exists_tab_of_view hq
    have hqlt : q < k₂.pm.npages :=
      hA.mapped_lt q (leaves_pos_iff.mpr ⟨r, mem_singleton_self r, v, hq⟩)
    obtain ⟨a, d, e', i⟩ := v
    obtain rfl : a = 0 := hdom
    have hvpn := vpn_pgaddr d e' i
    have hn := single_node (D := (· = 0)) (r := r) (v := (0, d, e', i)) rfl
    rw [← hvpn] at hq hn ⊢
    obtain ⟨pte, hlook⟩ := hA.toWf.lookupAt_of_view hn rfl hq hqlt
    rw [← hroot] at hlook
    exact hall _ _ (congrArg Prod.fst hvpn) hlook

instance (v : Vpn) : Decidable (SweptPage v) := inferInstanceAs (Decidable (_ ∧ _))

/-- A first environment is made, and `P` holds then. -/
theorem envAlloc_first {P : Kernel → Prop} (h : Returns ((envAlloc 0#32).run k) fun res k₁ =>
    res.toOption = some 0 ∧ P k₁) : ∃ k₁, (envAlloc 0#32).run k = .ok (.ok 0, k₁) ∧ P k₁ := by
  obtain ⟨res, k₁, hrun, hres, hP⟩ := h.exists_ok
  rw [eq_ok_of_toOption hres] at hrun
  exact ⟨k₁, hrun, hP⟩

/-- A page at `0x1000` is given back. -/
theorem envFree_restores_low : ∃ k₁ k₂ k₃,
    (envAlloc 0#32).run (smallMachine (faultAt 2 0)) = .ok (.ok 0, k₁) ∧
    ((AddrOp.fresh false 0x1000#64 7#32).exec 0).run k₁ = .ok ((), k₂) ∧
    (envFree 0).run k₂ = .ok ((), k₃) ∧ Restored (smallMachine (faultAt 2 0)) k₃ := by
  obtain ⟨k₁, halloc, hret⟩ := envAlloc_first (k := smallMachine (faultAt 2 0)) (P := fun k₁ =>
    Returns (((AddrOp.fresh false 0x1000#64 7#32).exec 0).run k₁) fun _ _ => True)
    (by decide +kernel)
  obtain ⟨_, k₂, hmap, -⟩ := hret.exists_ok
  have hlegal : (AddrOp.fresh false 0x1000#64 7#32).Legal 0 k₁ := ⟨by decide, by decide⟩
  have hL := smallMachine_freeList (faultAt 2 0)
  obtain ⟨k₃, hfree, hiff⟩ := envFree_restores ⟨_, hL⟩ halloc (.single ⟨_, hlegal, hmap⟩)
  refine ⟨k₁, k₂, k₃, halloc, hmap, hfree, hiff.mpr fun va x h0 hlook => ?_⟩
  have hswept : (AddrOp.fresh false 0x1000#64 7#32).Within SweptPage := by
    show SweptPage _
    decide
  exact lookup_within hL halloc (.single ⟨_, ⟨hlegal, hswept⟩, hmap⟩) h0 hlook

/-- A program without segments. -/
def emptyProgram : Image := fun a =>
  if a = 0#64 then 0x7F#8 else if a = 1#64 then 0x45#8 else if a = 2#64 then 0x4C#8
  else if a = 3#64 then 0x46#8 else 0#8

/-- **The stack page of a program is lost.** -/
theorem stackPage_lost : ∃ k₁ k₂ k₃,
    (envAlloc 0#32).run (smallMachine (faultAt 2 0)) = .ok (.ok 0, k₁) ∧
    (loadIcode 0 emptyProgram).run k₁ = .ok ((), k₂) ∧
    (envFree 0).run k₂ = .ok ((), k₃) ∧ ¬ Restored (smallMachine (faultAt 2 0)) k₃ := by
  obtain ⟨k₁, halloc, hret⟩ := envAlloc_first (k := smallMachine (faultAt 2 0)) (P := fun k₁ =>
    Returns ((loadIcode 0 emptyProgram).run k₁) fun _ k₂ => Returns ((envFree 0).run k₂) fun _ k₃ =>
      k₃.pm.ppRef 2 ≠ (smallMachine (faultAt 2 0)).pm.ppRef 2) (by decide +kernel)
  obtain ⟨_, k₂, hload, hret⟩ := hret.exists_ok
  obtain ⟨_, k₃, hfree, hne⟩ := hret.exists_ok
  exact ⟨k₁, k₂, k₃, halloc, hload, hfree, fun h => hne (h.1 2)⟩

end JosVmm
