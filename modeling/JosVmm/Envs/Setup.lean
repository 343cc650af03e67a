import JosVmm.Guests.Slots
import JosVmm.Pmap.Footprint

/-!
# Environments — a new address space

`env_setup_vm` takes one page for the root of the new environment's tables.  Entry 0 of it, below
which the environment's own tables will be, is empty; entry 1 is the kernel's, and entry 2 points
back to the page (`envSetupVm_eq_ok`).  In a layout in which the root has entry 0 for its own, it
becomes a root (`Acct.newRoot`).
-/

namespace JosVmm
open Support Support.Radix Support.Prog Support.Counting Function

variable {R : Reading Nat} {F : Layout 512} {A : Finset Nat} {extra : Nat → Nat} {k k' : Kernel}
  {s s' : Pmap} {L : List Nat} {p : Nat} {e : EnvIx} {w : Word} {parentId : EnvId}

/-- What `page_lookup` returns for an address of an environment. -/
def lookupEnv (k : Kernel) (e : EnvIx) (va : Word) : Except Panic (Option (Nat × Ptr)) :=
  lookupAt k.pm (k.envs e).envPml4e va

/-- The root of a new environment, with `w` for its entry 1. -/
def Pmap.newRoot (s : Pmap) (p : Nat) (w : Word) : Pmap :=
  ((((s.handOut true p).setRef p 1#16).zero p).setWord (slot p (1 : Fin 512)) w).setWord
    (slot p (2 : Fin 512)) (page2pa p ||| pteP ||| pteU)

theorem Pmap.newRoot_mem {a : Nat} (ha : a / 512 ≠ p) : (s.newRoot p w).mem a = s.mem a := by
  have hne : ∀ i : Fin 512, a ≠ slot p i := fun i h => ha (by rw [h, slot_div])
  rw [newRoot, setWord_of_ne (hne 2), setWord_of_ne (hne 1), zero_mem, clear, if_neg ha, setRef_mem,
    handOut_mem true ha]

theorem Pmap.newRoot_zero : (s.newRoot p w).mem (slot p (0 : Fin 512)) = 0 := by
  have hne : ∀ i : Fin 512, i ≠ 0 → slot p (0 : Fin 512) ≠ slot p i := fun i hi h =>
    hi (slot_inj.mp h).2.symm
  rw [newRoot, setWord_of_ne (hne 2 (by decide)), setWord_of_ne (hne 1 (by decide)), zero_mem,
    clear_slot_self]

theorem Pmap.newRoot_one : (s.newRoot p w).mem (slot p (1 : Fin 512)) = w := by
  have hne : slot p (1 : Fin 512) ≠ slot p (2 : Fin 512) := fun h =>
    absurd (slot_inj.mp h).2 (by decide)
  rw [newRoot, setWord_of_ne hne, setWord_self]

theorem zeroPage_run (s : Pmap) (p : Nat) : (zeroPage (p * 512)).run s = .ok ((), s.zero p) := by
  show Except.ok ((), { s with mem := clear 512 s.mem (p * 512 / 512) }) = _
  rw [Nat.mul_div_cancel p (show 0 < 512 by decide)]
  rfl

/-- **`env_setup_vm`** takes a page and fills its entries, or it has none. -/
theorem envSetupVm_eq_ok {res : Except Err Unit} (h : FreeList k.pm L)
    (hrun : (envSetupVm e).run k = .ok (res, k')) :
    (∃ er, res = .error er) ∧ k' = k ∨ ∃ p L' w, res = .ok () ∧ L = p :: L' ∧
      ((k.bootPml4e + 1) / 512 ≠ p → w = k.pm.mem (k.bootPml4e + 1)) ∧
      k' = (k.withPm (k.pm.newRoot p w)).setEnv e
        { k.envs e with envPml4e := some (p * 512), envCr3 := page2pa p } := by
  rw [envSetupVm] at hrun
  cases L with
  | nil =>
    rw [bind_ok (onPmap_ok (pageAlloc_none h.nil true))] at hrun
    cases hrun
    exact .inl ⟨⟨_, rfl⟩, rfl⟩
  | cons p L =>
    have hlt : p < k.pm.npages := h.lt p (List.mem_cons_self ..)
    have hcount : (incRef p).run (k.pm.handOut true p) =
        .ok ((), (k.pm.handOut true p).setRef p 1#16) := by
      rw [incRef_run, Pmap.handOut_ppRef, h.ref p (List.mem_cons_self ..)]
      rfl
    have hkva : (page2kva p).run ((k.pm.handOut true p).setRef p 1#16) =
        .ok (p * 512, (k.pm.handOut true p).setRef p 1#16) := kaddr_page2pa hlt
    rw [bind_ok (onPmap_ok (h.pageAlloc true))] at hrun
    dsimp only at hrun
    rw [bind_ok (onPmap_withPm hcount), bind_ok (onPmap_withPm hkva),
      bind_ok (modifyEnv_run _)] at hrun
    rw [bind_get] at hrun
    obtain ⟨_, k₁, hpm, hrun⟩ := bind_inv hrun
    cases hrun
    obtain ⟨s1, hs1, rfl⟩ := onPmap_eq_ok hpm
    -- the entries are written after the page has been cleared again
    rw [bind_ok (zeroPage_run _ p)] at hs1
    obtain ⟨w, s2, hload, hs2⟩ := bind_inv hs1
    obtain ⟨rfl, rfl⟩ := load_eq_ok hload
    obtain ⟨_, s3, hst, hs3⟩ := bind_inv hs2
    rw [store_eq_ok hst] at hs3
    refine .inr ⟨p, L, (((k.pm.handOut true p).setRef p 1#16).zero p).mem (k.bootPml4e + 1), rfl,
      rfl, fun hb => ?_, ?_⟩
    · rw [Pmap.zero_mem, clear, if_neg hb, Pmap.setRef_mem, Pmap.handOut_mem true hb]
    · rw [store_eq_ok hs3]
      rfl

/-- The environment `e`, with the root `p`, as `env_alloc` leaves it. -/
def Kernel.newEnv (k : Kernel) (e : EnvIx) (parentId : EnvId) (p : Nat) (w : Word) : Kernel :=
  { (k.withPm (k.pm.newRoot p w)).setEnv e (Env.asUser
      { k.envs e with envPml4e := some (p * 512), envCr3 := page2pa p } e parentId) with
    envFreeList := (k.envs e).envLink }

theorem Kernel.newEnv_self : (k.newEnv e parentId p w).envs e =
    Env.asUser { k.envs e with envPml4e := some (p * 512), envCr3 := page2pa p } e parentId :=
  update_self ..

theorem Kernel.newEnv_other {g : EnvIx} (h : g ≠ e) : (k.newEnv e parentId p w).envs g = k.envs g :=
  update_of_ne h ..

/-- **`env_alloc`** takes the head of the list and a page, or it changes nothing. -/
theorem envAlloc_cases {res : Except Err EnvIx} (h : FreeList k.pm L)
    (hrun : (envAlloc parentId).run k = .ok (res, k')) :
    (∃ er, res = .error er) ∧ k' = k ∨ ∃ e p L' w, res = .ok e ∧ k.envFreeList = some e ∧
      L = p :: L' ∧ ((k.bootPml4e + 1) / 512 ≠ p → w = k.pm.mem (k.bootPml4e + 1)) ∧
      k' = k.newEnv e parentId p w := by
  rw [envAlloc, bind_get] at hrun
  cases hfree : k.envFreeList with
  | none =>
    rw [hfree] at hrun
    cases hrun
    exact .inl ⟨⟨_, rfl⟩, rfl⟩
  | some e =>
    rw [hfree] at hrun
    obtain ⟨res1, k₁, hset, hrest⟩ := bind_inv hrun
    obtain ⟨⟨er, rfl⟩, rfl⟩ | ⟨p, L', w, rfl, rfl, hw, rfl⟩ := envSetupVm_eq_ok h hset
    · cases hrest
      exact .inl ⟨⟨_, rfl⟩, rfl⟩
    · cases hrest
      refine .inr ⟨e, p, L', w, rfl, rfl, rfl, hw, ?_⟩
      simp only [Kernel.newEnv, Kernel.setEnv, update_idem, update_self]
      rfl

/-- **The page becomes a root** of the layout. -/
theorem Acct.newRoot (h : Acct R F A extra s (p :: L)) (hdom : ∀ i, F.dom p i → i = 0) :
    p ∉ F.roots ∧
      Acct R (F.plant p) A extra (s.newRoot p w) L ∧
      ∀ q, leaves R (F.plant p) (s.newRoot p w) q = leaves R F s q := by
  have hlt : p < s.npages := h.lt p (List.mem_cons_self ..)
  have hT : ¬ F.IsTable dec s.mem p := fun hT => h.table_not_free p hT (List.mem_cons_self ..)
  have hroot : p ∉ F.roots := fun hr => hT (Layout.isTable_root hr)
  obtain ⟨hA, -, hT1, h1⟩ := h.counted true
  rw [Pmap.handOut_ppRef, h.ref p (List.mem_cons_self ..), show 0#16 + 1#16 = 1#16 from rfl] at h1
  rw [← tables_setRef (p := p) (q := p) 1#16] at hT1
  have hoff : ∀ t, F.IsTable dec ((s.handOut true p).setRef p 1#16).mem t → ∀ i : Fin 512,
      (s.newRoot p w).mem (slot t i) = ((s.handOut true p).setRef p 1#16).mem (slot t i) := by
    intro t ht i
    have hne : slot t i / 512 ≠ p := by
      rw [slot_div]
      rintro rfl
      exact tables_eq_zero.mp hT1 ht
    rw [Pmap.newRoot_mem hne, Pmap.setRef_mem, Pmap.handOut_mem true hne]
  have h2 := h1.withMem hoff
  have hz : ∀ i : Fin 512, F.dom p i → (s.newRoot p w).mem (slot p i) = 0 := fun i hi => by
    rw [hdom i hi]
    exact Pmap.newRoot_zero
  have hT2 : tables F (((s.handOut true p).setRef p 1#16).withMem (s.newRoot p w).mem) p = 0 :=
    (tables_congr (Layout.isTable_congr fun _ _ hn => Layout.tableAt_agree hoff hn)).trans hT1
  have h3 := h2.plant hz hA hlt (by rw [one_of rfl]; omega) hT2
  refine ⟨hroot, ?_, fun q => ?_⟩
  · have hextra : update (fun q => extra q + one (p = q)) p
        (extra p + one (p = p) - 1) = extra := by
      funext q
      by_cases e : q = p
      · subst e
        rw [update_self, one_of rfl, Nat.add_sub_cancel]
      · rw [update_of_ne e, one_not (Ne.symm e), Nat.add_zero]
    rwa [hextra] at h3
  · rw [leaves_plant hz hroot]
    rw [← h.leaves_handOut true q, ← leaves_setRef (p := p) 1#16]
    exact total_congr (fun r hr => h1.view_withMem hoff hr) q

end JosVmm
