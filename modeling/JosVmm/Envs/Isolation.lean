import JosVmm.Envs.Spaces

/-!
# Environments — isolation

`UTOP` lies in the range of entry 1 of the root table, and the tables below entry 1 are the
kernel's, in every environment.  So an operation of one environment is invisible in the others if
its address is in the range of entry 0, and visible in all of them otherwise (`spaces_isolated`,
`sharedEntry_visible`).
-/

namespace JosVmm
open Support Support.Radix Support.Prog Support.Counting

variable {b r : Nat} {E A : Finset Nat} {extra : Nat → Nat} {k k' : Kernel} {s' : Pmap}
  {L : List Nat} {e f : EnvIx} {va : Word} {D : Fin 512 → Prop} {π : List (Fin 512)}

/-! ### Below entry 1 -/

section shared

variable (h : Spaces b E k)
include h

/-- **After a change below entry 1 two address spaces are still the same there.** -/
theorem Spaces.lookup_still_shared {q : Nat} (hr : r ∈ E) (hq : q ∈ E) (hne : q ≠ r)
    (hA : Acct (spaceReading b) (spaces b E) A extra k.pm L)
    (hC : Confined (single (· = 1) r) L k.pm s') (hva : pml4 va = 1) :
    lookupAt s' (some (r * 512)) va = lookupAt s' (some (q * 512)) va := by
  have hnp := hC.npages
  refine lookupAt_shared (hnp ▸ h.root_lt hr) (hnp ▸ h.root_lt hq) ?_
  have htab : ∀ s : Pmap, tab s r [1] = dec (s.mem (slot r (1 : Fin 512))) := fun s =>
    tableAt_snoc_of (π := []) rfl 1
  obtain ⟨t, ht⟩ := Option.ne_none_iff_exists'.mp h.present
  have hkeep := hC.old r [1] t ⟨Finset.mem_singleton_self r, by simp [single], fun i hi => by
    rw [List.head?_cons, Option.some.injEq] at hi
    exact hi.symm⟩ (by rw [htab, h.shared r hr, ht])
  have hother : s'.mem (slot q (1 : Fin 512)) = k.pm.mem (slot q (1 : Fin 512)) := by
    have hqT : (spaces b E).Table dec k.pm.mem q [] q := ⟨Layout.node_nil (user_mem hq), rfl⟩
    refine hC.frame _ (by rw [slot_div]; exact hA.table_not_free q hqT.isTable) ?_
    rw [slot_div]
    rintro ⟨r', π, ⟨h1, h2, h3⟩, ht'⟩
    obtain rfl := Finset.mem_singleton.mp h1
    rcases h.table_user hr h2 (fun i hi => .inr (h3 i hi)) ht' with ⟨-, ht'⟩ | ⟨-, ht'⟩
    · exact hne (hA.tree _ _ _ _ _ hqT ht').1
    · exact h.ne_kernel hq (hA.tree _ _ _ _ _ hqT ht').1
  rw [hva, ← htab, hkeep, hother, h.shared q hq, ht]

end shared

/-! ### Operations of one environment -/

/-- An operation on the tables of `e` is confined to the tree of the entry of its address. -/
theorem Spaces.confined {op : SpaceOp} (hlegal : op.Legal k) (hop : op.target = some (e, va))
    (hroot : (k.envs e).envPml4e = some (r * 512)) (hwf : Wf (single D r) k.pm L)
    (hd : D (pml4 va)) (hrun : op.exec.run k = .ok ((), k')) :
    ∃ s', k' = k.withPm s' ∧ Confined (single D r) L k.pm s' := by
  cases op with
  | alloc => cases hop
  | pageAlloc => cases hop
  | insert e' pp va' perm =>
    cases hop
    rw [SpaceOp.exec, bind_ok getEnv_run] at hrun
    obtain ⟨res, k₁, hk1, hrest⟩ := bind_inv hrun
    cases hrest
    obtain ⟨s', hs', rfl⟩ := onPmap_eq_ok hk1
    rw [hroot] at hs'
    exact ⟨s', rfl, pageInsert_confined hwf (single_node hd) hlegal.2.1 hs'⟩
  | remove e' va' =>
    cases hop
    rw [SpaceOp.exec, bind_ok getEnv_run] at hrun
    obtain ⟨s', hs', rfl⟩ := onPmap_eq_ok hrun
    rw [hroot] at hs'
    exact ⟨s', rfl, pageRemove_confined hwf (single_node hd) hs'⟩

/-- **Address spaces are isolated below entry 0 only.**  In every state that legal operations below
entry 0 reach, an operation on one environment is invisible in every other one if its address is in
the range of entry 0; otherwise what changes at its address changes in the other one, too. -/
theorem spaces_isolated {k₀ : Kernel} {op : SpaceOp} (h₀ : KernelTables b k₀)
    (hr : Reach SpaceOp.exec (fun k op => op.Legal k ∧ op.Within (· = 0) k) k₀ k)
    (hop : op.target = some (e, va)) (hlegal : op.Legal k) (hva : va < utop)
    (he : (k.envs e).envStatus ≠ .free) (hf : (k.envs f).envStatus ≠ .free) (hne : f ≠ e)
    (hrun : op.exec.run k = .ok ((), k')) :
    (pml4 va = 0 → ∀ va' < utop, lookupEnv k' f va' = lookupEnv k f va') ∧
      (lookupEnv k' e va ≠ lookupEnv k e va →
        (∀ va' < utop, lookupEnv k' f va' = lookupEnv k f va') → pml4 va = 0) := by
  obtain ⟨E, h⟩ := h₀.spaces.reach hr
  obtain ⟨A, extra, L, hA, -⟩ := h.acct
  obtain ⟨r, hrE, hre⟩ := h.root e he
  obtain ⟨q, hqE, hqf⟩ := h.root f hf
  have hqr : q ≠ r := fun heq => hne (h.inj f e hf he (by rw [hqf, hre, heq]))
  constructor
  · intro h0 va' hva'
    obtain ⟨s', rfl, hC⟩ := Spaces.confined hlegal hop hre (h.tree hrE hA fun _ => .inl) h0 hrun
    show lookupAt s' (k.envs f).envPml4e va' = lookupAt k.pm (k.envs f).envPml4e va'
    rw [hqf]
    exact h.lookup_other hrE hA hC hqE hqr hva'
  · intro hchange hsame
    refine (pml4_of_lt_utop hva).resolve_right fun h1 => hchange ?_
    obtain ⟨s', rfl, hC⟩ := Spaces.confined hlegal hop hre (h.tree hrE hA fun _ => .inr) h1 hrun
    have hf' : lookupAt s' (k.envs f).envPml4e va = lookupAt k.pm (k.envs f).envPml4e va :=
      hsame va hva
    rw [hqf] at hf'
    show lookupAt s' (k.envs e).envPml4e va = lookupAt k.pm (k.envs e).envPml4e va
    rw [hre, h.lookup_still_shared hrE hqE hqr hA hC h1, hf', h.lookup_shared hrE hqE h1]

/-! ### A machine -/

/-- The small machine with a table below entry 1 of the kernel's root. -/
def mappedMachine : Kernel :=
  { smallMachine (faultAt 2 0) with
    pm := (smallMachine (faultAt 2 0)).pm.link 300 1 1
    bootPml4e := 300 * 512 }

theorem mappedMachine_tables : KernelTables 300 mappedMachine := by
  obtain ⟨L, hL⟩ : ∃ L, BootInfo.free ⟨160, 320, 300⟩ 512 = 1 :: L := by
    refine ⟨_, List.eq_cons_of_mem_head? ?_⟩
    decide +kernel
  have hfree := smallMachine_freeList (faultAt 2 0)
  have hroot : 300 ∉ BootInfo.free ⟨160, 320, 300⟩ 512 := by decide +kernel
  have hz : ∀ i : Fin 512, (smallMachine (faultAt 2 0)).pm.mem (slot 300 i) = 0 := fun i => by
    rw [smallMachine_mem]
  rw [hL] at hfree hroot
  have hwf : Wf (single (· = 1) 300) (smallMachine (faultAt 2 0)).pm (1 :: L) :=
    Wf.zeroed hfree (by decide +kernel) hroot hz
  have hnode : (single (· = 1) 300).Node 300 ([] ++ [(1 : Fin 512)]) :=
    (single_node (D := (· = 1)) (v := (1, 0, 0, 0)) rfl).of_append (σ := [0, 0])
  obtain ⟨hg, -, -⟩ := hwf.grow hnode rfl (by rw [hz]; exact dec_zero)
  refine ⟨rfl, ⟨L, hg.wf⟩, by decide +kernel, fun t ht => ?_, fun e => rfl, ?_⟩
  · rcases hg.isTable_iff.mp ht with ⟨r, π, ht⟩ | ht
    · obtain ⟨-, -, rfl⟩ := table_zeroed hz ht
      decide +kernel
    · obtain rfl := List.mem_singleton.mp ht
      decide +kernel
  · obtain ⟨l, hl, -⟩ := envInit_chain mappedMachine
    exact ⟨l, hl⟩

/-- Two environments, whose pages and tables the machine holds. -/
def TwoSpaces (k : Kernel) : Prop :=
  (k.envs 0).envStatus ≠ .free ∧ (k.envs 1).envStatus ≠ .free ∧ k.pm.ppRef 310 = 1#16 ∧
    k.pm.npages = 512

instance (k : Kernel) : Decidable (TwoSpaces k) := inferInstanceAs (Decidable (_ ∧ _))

/-- Page 310 is mapped at `va` in the first of two environments. -/
def mapFirst (va : Word) : SpaceOp := .insert 0 310 va 7#32

theorem mapFirst_follows (va : Word) (P : Kernel → Kernel → Prop)
    (h : Follows SpaceOp.exec (fun _ op => op.target = none)
      (fun k => TwoSpaces k ∧ Returns ((mapFirst va).exec.run k) fun _ k' => P k k')
      [.alloc 0, .alloc 0] mappedMachine) :
    ∃ k k', Reach SpaceOp.exec (fun k op => op.Legal k ∧ op.Within (· = 0) k) mappedMachine k ∧
      (k.envs 0).envStatus ≠ .free ∧ (k.envs 1).envStatus ≠ .free ∧ (mapFirst va).Legal k ∧
      (mapFirst va).exec.run k = .ok ((), k') ∧ P k k' := by
  obtain ⟨k, hr, ⟨h0, h1, href, hnp⟩, hret⟩ := h.reach
  obtain ⟨_, k', hrun, hP⟩ := hret.exists_ok
  have hr' : Reach SpaceOp.exec (fun k op => op.Legal k ∧ op.Within (· = 0) k) mappedMachine k := by
    refine hr.mono fun k op hop => ⟨?_, fun e va ht => ?_⟩
    · cases op with
      | insert => cases hop
      | _ => trivial
    · rw [hop] at ht
      cases ht
  obtain ⟨E, hE⟩ := mappedMachine_tables.spaces.reach hr'
  have href' : k.pm.ppRef 310 ≠ 0#16 := by
    rw [href]
    decide
  refine ⟨k, k', hr', h0, h1, ⟨by rw [hnp]; decide, by decide, .inl ⟨hE.not_onFreeList href', ?_⟩⟩,
    hrun, hP⟩
  rw [href]
  decide

/-- A page is mapped at `0x1000` in one environment, and the other does not see it. -/
theorem spaces_isolated_low : ∃ k k', (mapFirst 0x1000#64).exec.run k = .ok ((), k') ∧
    lookupEnv k' 0 0x1000#64 ≠ lookupEnv k 0 0x1000#64 ∧
    ∀ va < utop, lookupEnv k' 1 va = lookupEnv k 1 va := by
  obtain ⟨k, k', hr, h₀, h₁, hlegal, hrun, hne⟩ := mapFirst_follows 0x1000#64
    (fun k k' => (lookupEnv k' 0 0x1000#64).toOption ≠ (lookupEnv k 0 0x1000#64).toOption)
    (by decide +kernel)
  refine ⟨k, k', hrun, fun h => hne (congrArg _ h), ?_⟩
  exact (spaces_isolated mappedMachine_tables hr rfl hlegal (by decide) h₀ h₁ (by decide) hrun).1
    (by decide)

/-- **The first addresses of the kernel's entry are below `UTOP`**: a page that is mapped there in
one environment is found in the other. -/
theorem sharedEntry_visible : ∃ k k', KernelTables 300 mappedMachine ∧
    Reach SpaceOp.exec (fun k op => op.Legal k ∧ op.Within (· = 0) k) mappedMachine k ∧
    (k.envs 0).envStatus ≠ .free ∧ (k.envs 1).envStatus ≠ .free ∧ 0x8000000000#64 < utop ∧
    (mapFirst 0x8000000000#64).Legal k ∧
    (mapFirst 0x8000000000#64).exec.run k = .ok ((), k') ∧
    lookupEnv k' 1 0x8000000000#64 ≠ lookupEnv k 1 0x8000000000#64 := by
  obtain ⟨k, k', hr, h₀, h₁, hlegal, hrun, hne⟩ := mapFirst_follows 0x8000000000#64
    (fun k k' => (lookupEnv k' 1 0x8000000000#64).toOption ≠
      (lookupEnv k 1 0x8000000000#64).toOption)
    (by decide +kernel)
  exact ⟨k, k', mappedMachine_tables, hr, h₀, h₁, by decide, hlegal, hrun,
    fun h => hne (congrArg _ h)⟩

end JosVmm
