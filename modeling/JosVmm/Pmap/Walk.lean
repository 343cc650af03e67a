import JosVmm.Pmap.Wf

/-!
# Page maps — the walkers

A creating walk succeeds exactly when the free list holds as many pages as tables are missing on
the way (`pml4eWalk_create`): it then returns the last-level entry of the address, and has only
grown the forest by those tables.  Otherwise it returns the null pointer and has restored every
entry, count and link; only the contents of free pages may differ.  A walk that does not create changes nothing
(`pml4eWalk_find`).

Each level is proved once (`walkLevel_ok`), for any next level that keeps the same promise.
-/

namespace JosVmm
open Support Support.Radix Support.Prog Function List

variable {F : Layout 512} {s : Pmap} {L : List Nat} {r t : Nat} {π σ : List (Fin 512)}
  {i j : Fin 512} {p : Nat} {next : Word → Pm (Option Ptr)}

/-- What a creating walk from the table `t` at the node `π`, along `σ` to the entry `j`, does
from the state `s`. -/
def Walked (F : Layout 512) (s : Pmap) (L : List Nat) (r t : Nat) (π σ : List (Fin 512))
    (j : Fin 512) (out : Except Panic (Option Ptr × Pmap)) : Prop :=
  (missing dec s.mem t σ ≤ L.length → ∃ s' new L' u, L = new ++ L' ∧
    new.length = missing dec s.mem t σ ∧ out = .ok (some (slot u j), s') ∧
    Grown F s s' new L' ∧ tab s' r (π ++ σ) = some u) ∧
  (L.length < missing dec s.mem t σ → ∃ m, out = .ok (none, s.withMem m) ∧
    ∀ a, a / 512 ∉ L → m a = s.mem a)

/-- `f`, given a table's physical address, is a creating walk along `σ` below the node `π`. -/
def WalkOk (F : Layout 512) (r : Nat) (π σ : List (Fin 512)) (j : Fin 512)
    (f : Word → Pm (Option Ptr)) : Prop :=
  ∀ s L t, Wf F s L → F.Node r (π ++ σ) → tab s r π = some t →
    Walked F s L r t π σ j ((f (page2pa t)).run s)

theorem pteAddr_of_dec {e : Word} {c : Nat} (h : dec e = some c) : pteAddr e = page2pa c := by
  rw [← (dec_eq_some.mp h).2, page2pa_ppn]

/-- Taking the link back, and the page with it, restores everything but free memory. -/
theorem unlink_run (h : Wf F s (p :: L)) {m : Nat → Word}
    (hz : s.mem (slot t i) = 0) (hm : ∀ a, a / 512 ∉ L → m a = (s.link t i p).mem a) :
    ∃ m', (((s.link t i p).withMem m).setWord (slot t i) 0).decref p = s.withMem m' ∧
      ∀ a, a / 512 ∉ p :: L → m' a = s.mem a := by
  have href : s.ppRef p = 0#16 := h.ref p (mem_cons_self ..)
  refine ⟨update m (slot t i) 0, ?_, fun a ha => ?_⟩
  · rw [Pmap.decref, if_pos ⟨update_self .., update_self ..⟩]
    simp [Pmap.give, Pmap.setWord, Pmap.withMem, Pmap.link, Pmap.setRef, Pmap.take, Pmap.zero,
      h.head, ← href]
  · rw [mem_cons, not_or] at ha
    by_cases e : a = slot t i
    · subst e; rw [update_self, hz]
    · rw [update_of_ne e, hm a ha.2, Pmap.link, Pmap.setWord_mem,
        update_of_ne e, Pmap.setRef_mem, Pmap.zero_mem, clear, if_neg ha.1, Pmap.take_mem]

/-- **One level of a creating walk.** -/
theorem walkLevel_ok (hnext : WalkOk F r (π ++ [i]) σ j next) (h : Wf F s L)
    (hn : F.Node r (π ++ i :: σ)) (ht : tab s r π = some t) :
    Walked F s L r t π (i :: σ) j ((walkLevel next (t * 512) i true).run s) := by
  have hpath : π ++ i :: σ = (π ++ [i]) ++ σ := by simp
  have hn' : F.Node r ((π ++ [i]) ++ σ) := hpath ▸ hn
  have hni : F.Node r (π ++ [i]) := hn'.of_append
  have hlt : slot t i < s.npages * 512 := h.slot_lt hni.of_append ht i
  have hload : (load (t * 512 + i)).run s = .ok (s.mem (slot t i), s) := load_run hlt
  simp only [walkLevel]
  rw [bind_ok hload]
  cases hd : dec (s.mem (slot t i)) with
  | some c =>
    have hp : s.mem (slot t i) &&& pteP ≠ 0 := (dec_eq_some.mp hd).1
    rw [if_neg fun e => hp e.1, if_pos hp, pteAddr_of_dec hd]
    have htc : tab s r (π ++ [i]) = some c := (tableAt_snoc_of ht i).trans hd
    simpa only [Walked, missing, hd, hpath] using hnext s L c h hn' htc
  | none =>
    rw [if_pos ⟨dec_eq_none.mp hd, trivial⟩]
    cases L with
    | nil =>
      rw [bind_ok (pageAlloc_none h.nil true)]
      exact ⟨fun hle => absurd hle (by simp [missing, hd]),
        fun _ => ⟨s.mem, rfl, fun _ _ => rfl⟩⟩
    | cons p L =>
      have hplt : p < s.npages := h.lt p (mem_cons_self ..)
      have hz : s.mem (slot t i) = 0 := h.absent r π i t hni ht hd
      obtain ⟨hg, htp, hzero⟩ := h.grow hni ht hd
      have hmiss : missing dec (s.link t i p).mem p σ = σ.length :=
        missing_clear (fun k => by rw [hzero k]; exact dec_zero) σ
      have hstore : (store (t * 512 + i) (page2pa p ||| pteU ||| pteW ||| pteP)).run
          (((s.take p).zero p).setRef p (((s.take p).zero p).ppRef p + 1#16)) =
            .ok ((), s.link t i p) := by
        rw [Pmap.zero_ppRef, Pmap.take_ppRef, h.ref p (mem_cons_self ..)]
        exact store_run (s := ((s.take p).zero p).setRef p 1#16) hlt _
      have hback : (load (t * 512 + i)).run (s.link t i p) =
          .ok (page2pa p ||| pteU ||| pteW ||| pteP, s.link t i p) := by
        rw [show t * 512 + (i : Nat) = slot t i from rfl, load_run (s := s.link t i p) hlt,
          Pmap.link, Pmap.setWord_mem, update_self]
      rw [bind_ok (pageAlloc_some h.head hplt), bind_ok (incRef_run _ p),
        bind_ok hstore, bind_ok hback, pteAddr_of_dec (dec_tableEntry (by
          exact Nat.lt_trans (s.lt_two_pow hplt) (by decide)))]
      obtain ⟨hok, hfail⟩ := hnext _ L p hg.wf hn' htp
      rw [hmiss] at hok hfail
      simp only [Walked, missing, hd, hpath, length_cons]
      refine ⟨fun hle => ?_, fun hlt' => ?_⟩
      · obtain ⟨s', new, L', u, rfl, hlen, hrun, hg', hu⟩ := hok (by omega)
        exact ⟨s', p :: new, L', u, rfl, by rw [length_cons, hlen], bind_ok hrun,
          hg.trans hg', hu⟩
      · obtain ⟨m, hrun, hm⟩ := hfail (by omega)
        obtain ⟨m', hm', hag⟩ := unlink_run (i := i) (t := t) h hz hm
        refine ⟨m', ?_, hag⟩
        have hclear : (store (t * 512 + i) 0).run ((s.link t i p).withMem m) =
            .ok ((), ((s.link t i p).withMem m).setWord (slot t i) 0) :=
          store_run (s := (s.link t i p).withMem m) hlt 0
        rw [bind_ok hrun]
        rw [bind_ok hclear, bind_ok (pageDecref_run _ p), hm']
        rfl

/-- A level as the next level of the one above. -/
theorem WalkOk.level (hnext : WalkOk F r (π ++ [i]) σ j next) :
    WalkOk F r π (i :: σ) j (fun pa => do walkLevel next (← kaddr pa) i true) := by
  intro s L t h hn ht
  have hlt : t < s.npages := h.tab_lt hn.of_append ht
  rw [bind_ok (kaddr_page2pa hlt)]
  exact walkLevel_ok hnext h hn ht

theorem kaddr_entry (hlt : t < s.npages) (j : Fin 512) :
    (kaddr (page2pa t + 8#64 * BitVec.ofNat 64 j)).run s = .ok (slot t j, s) := by
  have ht := s.lt_two_pow hlt
  have hsum : (page2pa t + 8#64 * BitVec.ofNat 64 j).toNat = t * 4096 + 8 * j := by
    rw [BitVec.toNat_add, BitVec.toNat_mul, page2pa_toNat (by omega)]
    simp
    omega
  rw [kaddr_run (by rw [ppn_eq, hsum]; omega), hsum]
  rw [show (t * 4096 + 8 * (j : Nat)) / 8 = slot t j by rw [slot]; omega]

/-- The last step of `pgdir_walk`. -/
theorem WalkOk.last (j : Fin 512) : WalkOk F r π [] j (fun pa => do
    return some (← kaddr (pa + 8#64 * BitVec.ofNat 64 j))) := by
  intro s L t h hn ht
  rw [append_nil] at hn
  rw [bind_ok (kaddr_entry (h.tab_lt hn ht) j)]
  refine ⟨fun _ => ⟨s, [], L, t, rfl, rfl, rfl, .refl h, by rwa [append_nil]⟩,
    fun hlt => ?_⟩
  exact absurd hlt (by simp [missing])

/-- **A creating walk**: it returns the entry of `va` exactly when the free list holds the pages
it needs, and otherwise leaves everything but free memory as it was. -/
theorem pml4eWalk_create (h : Wf F s L) {va : Word} (hn : F.Node r (vpn va).path) :
    Walked F s L r r [] (vpn va).path (ptx va) ((pml4eWalk (some (r * 512)) va true).run s) := by
  have h1 : WalkOk F r [pml4 va, pdpe va] [pdx va] (ptx va) (fun pa => do
      pgdirWalk (← kaddr pa) va true) := WalkOk.level (WalkOk.last _)
  have h2 : WalkOk F r [pml4 va] [pdpe va, pdx va] (ptx va) (fun pa => do
      pdpeWalk (← kaddr pa) va true) := WalkOk.level h1
  simp only [pml4eWalk]
  exact walkLevel_ok (π := []) h2 h hn rfl

/-! ### What a creating walk keeps -/

/-- The program keeps the present entries, but for those in free pages. -/
def KeepsPresent (f : Pm (Option Ptr)) : Prop :=
  ∀ s s' L o, FreeList s L → f.run s = .ok (o, s') →
    ∀ a, a / 512 ∉ L → dec (s.mem a) ≠ none → s'.mem a = s.mem a

theorem keepsPresent_of_readOnly {f : Pm (Option Ptr)} (h : ReadOnly f) : KeepsPresent f :=
  fun _ _ _ _ _ hrun _ _ _ => by rw [h _ _ _ hrun]

theorem KeepsPresent.kaddr {f : Ptr → Pm (Option Ptr)} (h : ∀ a, KeepsPresent (f a)) (pa : Word) :
    KeepsPresent (do f (← kaddr pa)) := by
  intro s s' L o hL hrun
  obtain ⟨a, s1, hk, hf⟩ := bind_inv hrun
  rw [readOnly_kaddr pa _ _ _ hk] at hf
  exact h a _ _ _ _ hL hf

/-- One level of a creating walk keeps what is present. -/
theorem KeepsPresent.walkLevel (hnext : ∀ pa, KeepsPresent (next pa)) (tbl : Ptr) (i : Fin 512) :
    KeepsPresent (walkLevel next tbl i true) := by
  intro s s' L o hL hrun
  obtain ⟨e, s1, hload, hrun⟩ := bind_inv hrun
  obtain ⟨hs1, rfl⟩ := load_eq_ok hload
  rw [hs1] at hrun
  by_cases habs : s.mem (tbl + i) &&& pteP = 0
  · rw [if_pos ⟨habs, rfl⟩] at hrun
    cases L with
    | nil =>
      rw [bind_ok (pageAlloc_none hL.nil true)] at hrun
      cases hrun
      exact fun _ _ _ => rfl
    | cons p L =>
      rw [bind_ok (pageAlloc_some hL.head (hL.lt p (mem_cons_self ..)))] at hrun
      rw [bind_ok (incRef_run _ p)] at hrun
      obtain ⟨u, s2, hstore, hrun⟩ := bind_inv hrun
      have hs2 := store_eq_ok hstore
      have hL2 : FreeList s2 L := by
        rw [hs2]
        exact ((hL.take.setMem _).setRef (List.nodup_cons.mp hL.nodup).1 _).setMem _
      -- linking the page touches the absent entry and the page only
      have hlink : ∀ a, a / 512 ∉ p :: L → dec (s.mem a) ≠ none → s2.mem a = s.mem a := by
        intro a ha hpres
        have hne : a ≠ tbl + i := by
          rintro rfl
          exact hpres (dec_eq_none.mpr habs)
        have hp : a / 512 ≠ p := fun h => ha (h ▸ mem_cons_self ..)
        rw [hs2, Pmap.setWord_of_ne hne, Pmap.setRef_mem, Pmap.zero_mem, clear, if_neg hp,
          Pmap.take_mem]
      obtain ⟨e', s3, hload', hrun⟩ := bind_inv hrun
      rw [(load_eq_ok hload').1] at hrun
      obtain ⟨o', s4, hnxt, hrun⟩ := bind_inv hrun
      have hkept : ∀ a, a / 512 ∉ p :: L → dec (s.mem a) ≠ none → s4.mem a = s.mem a := by
        intro a ha hpres
        have e := hlink a ha hpres
        rw [hnext _ _ _ _ _ hL2 hnxt a (fun h => ha (mem_cons_of_mem _ h)) (e ▸ hpres), e]
      cases o' with
      | some pte =>
        cases hrun
        exact hkept
      | none =>
        obtain ⟨u', s5, hback, hrun⟩ := bind_inv hrun
        rw [bind_ok (pageDecref_run _ p)] at hrun
        cases hrun
        intro a ha hpres
        have hne : a ≠ tbl + i := by
          rintro rfl
          exact hpres (dec_eq_none.mpr habs)
        rw [Pmap.decref_mem, store_eq_ok hback, Pmap.setWord_of_ne hne, hkept a ha hpres]
  · rw [if_neg fun h => habs h.1, if_pos habs] at hrun
    exact hnext _ _ _ _ _ hL hrun

/-- **A creating walk keeps every present entry**, outside of the pages that it may take. -/
theorem pml4eWalk_keeps (tbl : Ptr) (va : Word) : KeepsPresent (pml4eWalk (some tbl) va true) := by
  have hdir : ∀ t, KeepsPresent (pgdirWalk t va true) := fun t => KeepsPresent.walkLevel
    (fun _ => keepsPresent_of_readOnly ((readOnly_kaddr _).bind fun _ => readOnly_pure _)) t _
  have hdpt : ∀ t, KeepsPresent (pdpeWalk t va true) := fun t =>
    KeepsPresent.walkLevel (KeepsPresent.kaddr hdir) t _
  exact KeepsPresent.walkLevel (KeepsPresent.kaddr hdpt) tbl _

/-! ### Walks that do not create -/

/-- The entry a walk finds. -/
def entryAt (s : Pmap) (r : Nat) (v : Vpn) : Option Ptr :=
  (tab s r v.path).map fun t => slot t v.last

/-- One level of a walk that does not create. -/
theorem walkLevel_find (hlt : t < s.npages)
    (hnext : ∀ c, dec (s.mem (slot t i)) = some c →
      (next (page2pa c)).run s = .ok ((tab s c σ).map fun u => slot u j, s)) :
    (walkLevel next (t * 512) i false).run s =
      .ok ((tab s t (i :: σ)).map fun u => slot u j, s) := by
  have hload : (load (t * 512 + i)).run s = .ok (s.mem (slot t i), s) :=
    load_run (Radix.slot_lt hlt i)
  simp only [walkLevel]
  rw [bind_ok hload, if_neg (fun e => Bool.noConfusion e.2), tab, tableAt]
  cases hd : dec (s.mem (slot t i)) with
  | none =>
    rw [if_neg (not_not.mpr (dec_eq_none.mp hd))]
    rfl
  | some c =>
    rw [if_pos (dec_eq_some.mp hd).1, pteAddr_of_dec hd]
    exact hnext c hd

variable {va : Word}

theorem pgdirWalk_find (hlt : t < s.npages) (hc : ∀ c, tab s t [pdx va] = some c → c < s.npages) :
    (pgdirWalk (t * 512) va false).run s = .ok ((tab s t [pdx va]).map (slot · (ptx va)), s) := by
  refine walkLevel_find hlt fun c hd => ?_
  have hcn : c < s.npages := hc c (by rw [tab, tableAt, hd]; rfl)
  rw [bind_ok (kaddr_entry hcn (ptx va))]
  rfl

theorem pdpeWalk_find (hlt : t < s.npages)
    (hc : ∀ ρ c, ρ <+: [pdpe va, pdx va] → tab s t ρ = some c → c < s.npages) :
    (pdpeWalk (t * 512) va false).run s =
      .ok ((tab s t [pdpe va, pdx va]).map (slot · (ptx va)), s) := by
  refine walkLevel_find hlt fun c hd => ?_
  have step : ∀ π, tab s t (pdpe va :: π) = tab s c π := fun π => by rw [tab, tableAt, hd]; rfl
  have hcn : c < s.npages := hc [pdpe va] c ⟨[pdx va], rfl⟩ (step [])
  rw [bind_ok (kaddr_page2pa hcn)]
  exact pgdirWalk_find hcn fun d hd => hc _ d (prefix_refl _) ((step _).trans hd)

/-- **A walk that does not create** finds the entry at the end of the path, if every table on it
is there, and changes nothing. -/
theorem pml4eWalk_find (va : Word) (hlt : r < s.npages)
    (hc : ∀ ρ c, ρ <+: (vpn va).path → tab s r ρ = some c → c < s.npages) :
    (pml4eWalk (some (r * 512)) va false).run s = .ok (entryAt s r (vpn va), s) := by
  rw [vpn_path] at hc
  simp only [pml4eWalk]
  refine walkLevel_find (i := pml4 va) hlt fun c hd => ?_
  have step : ∀ π, tab s r (pml4 va :: π) = tab s c π := fun π => by rw [tab, tableAt, hd]; rfl
  have hcn : c < s.npages := hc [pml4 va] c ⟨[pdpe va, pdx va], rfl⟩ (step [])
  rw [bind_ok (kaddr_page2pa hcn)]
  refine pdpeWalk_find hcn fun ρ d hρ hd => hc (pml4 va :: ρ) d ?_ ((step ρ).trans hd)
  obtain ⟨σ, e⟩ := hρ
  exact ⟨σ, by rw [cons_append, e]⟩

end JosVmm
