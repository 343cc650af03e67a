import JosVmm.Envs.Setup

/-!
# Environments — address spaces

User environments from `env_alloc` on, and the pages that are mapped into them.  `env_setup_vm`
gives an environment a root table of its own, with one entry copied from the kernel's table
(entry 1) and one that points back to the root (entry 2).  The tables below entry 0 belong to the
environment; those below entry 1 are the kernel's, and are shared.

* `Spaces b E k`: the users' roots `E` and the kernel's root `b` are one forest of counted tables.
* `Spaces.lookup_other`: an address space does not see what is done below entry 0 of another one.
* `Spaces.step`, `Spaces.reach`: operations below entry 0 keep the forest.
-/

namespace JosVmm
open Support Support.Radix Support.Prog Support.Counting List Kernel

/-! ### Operations -/

/-- What is done to address spaces.  The pages that `page_alloc` hands out are inserted later. -/
inductive SpaceOp where
  | alloc (parentId : EnvId)
  | pageAlloc (allocZero : Bool)
  | insert (e : EnvIx) (pp : Nat) (va : Word) (perm : BitVec 32)
  | remove (e : EnvIx) (va : Word)

namespace SpaceOp

def exec : SpaceOp → Km Unit
  | alloc parentId => do
    let _ ← envAlloc parentId
  | pageAlloc allocZero => do
    let _ ← onPmap (JosVmm.pageAlloc allocZero)
  | insert e pp va perm => do
    let v ← getEnv e
    let _ ← onPmap (pageInsert v.envPml4e (some pp) va perm)
  | remove e va => do
    let v ← getEnv e
    onPmap (pageRemove v.envPml4e va)

/-- The environment whose address space is changed, and the address. -/
def target : SpaceOp → Option (EnvIx × Word)
  | insert e _ va _ => some (e, va)
  | remove e va => some (e, va)
  | _ => none

/-- An insertion is of an allocated page, with 12 bits of permissions, and its count has room unless
the page is mapped there already. -/
def Legal (k : Kernel) : SpaceOp → Prop
  | insert e pp va perm => pp < k.pm.npages ∧ perm.toNat < 4096 ∧
      (¬ OnFreeList k.pm pp ∧ (k.pm.ppRef pp).toNat < 65535 ∨
        ∃ pte, lookupAt k.pm (k.envs e).envPml4e va = .ok (some (pp, pte)))
  | _ => True

/-- The operation is on a live environment, at an address whose entry of the root is `D`. -/
def Within (D : Fin 512 → Prop) (k : Kernel) (op : SpaceOp) : Prop :=
  ∀ e va, op.target = some (e, va) → (k.envs e).envStatus ≠ .free ∧ D (pml4 va)

end SpaceOp

/-! ### The forest -/

/-- The tables of the users with the roots `E`, and of the kernel, with the root `b`. -/
def spaces (b : Nat) (E : Finset Nat) : Layout 512 :=
  ⟨3, insert b E, fun r i => i = if r = b then 1 else 0⟩

/-- The kernel's mappings are not counted. -/
def spaceReading (b : Nat) : Reading Nat where
  read r e := if r = b then none else dec e
  zero r := by rw [dec_zero, ite_self]

/-- Before the first environment: the kernel's root is `b`, and its entry 1 leads to tables that are
counted and not free. -/
structure KernelTables (b : Nat) (k : Kernel) : Prop where
  root : k.bootPml4e = b * 512
  wf : ∃ L, Wf (single (· = 1) b) k.pm L
  present : dec (k.pm.mem (slot b (1 : Fin 512))) ≠ none
  counted : ∀ t, (single (· = 1) b).IsTable dec k.pm.mem t → k.pm.ppRef t ≠ 0#16
  unused : ∀ e, (k.envs e).envStatus = .free
  free : ∃ l, Chain (fun e => (k.envs e).envLink) k.envFreeList l

/-- The address spaces with the roots `E`. -/
structure Spaces (b : Nat) (E : Finset Nat) (k : Kernel) : Prop where
  boot : k.bootPml4e = b * 512
  acct : ∃ A extra L, Acct (spaceReading b) (spaces b E) A extra k.pm L ∧
    Held (spaceReading b) (spaces b E) A k.pm
  apart : b ∉ E
  root : ∀ e, (k.envs e).envStatus ≠ .free → ∃ p ∈ E, (k.envs e).envPml4e = some (p * 512)
  inj : ∀ e e', (k.envs e).envStatus ≠ .free → (k.envs e').envStatus ≠ .free →
    (k.envs e).envPml4e = (k.envs e').envPml4e → e = e'
  shared : ∀ p ∈ E, dec (k.pm.mem (slot p (1 : Fin 512))) = dec (k.pm.mem (slot b (1 : Fin 512)))
  present : dec (k.pm.mem (slot b (1 : Fin 512))) ≠ none
  free : ∃ l, Chain (fun e => (k.envs e).envLink) k.envFreeList l ∧
    ∀ e ∈ l, (k.envs e).envStatus = .free

variable {b p r : Nat} {E A : Finset Nat} {extra : Nat → Nat} {k k' : Kernel} {s s' : Pmap}
  {L : List Nat} {e f : EnvIx} {va : Word} {D : Fin 512 → Prop} {F : Layout 512}
  {π : List (Fin 512)}

theorem spaces_user (h : b ∉ E) (hp : p ∈ E) (i : Fin 512) : (spaces b E).dom p i ↔ i = 0 := by
  have hne : p ≠ b := fun e => h (e ▸ hp)
  show i = (if p = b then 1 else 0) ↔ _
  rw [if_neg hne]

theorem spaces_kernel (i : Fin 512) : (spaces b E).dom b i ↔ i = 1 := by
  show i = (if b = b then 1 else 0) ↔ _
  rw [if_pos rfl]

theorem user_mem (hp : p ∈ E) : p ∈ (spaces b E).roots := Finset.mem_insert_of_mem hp

theorem kernel_mem : b ∈ (spaces b E).roots := Finset.mem_insert_self ..

/-! ### One environment and another -/

section other

variable (h : Spaces b E k) {q c : Nat} {ρ : List (Fin 512)}
include h

theorem Spaces.ne_kernel (hr : r ∈ E) : r ≠ b := fun e => h.apart (e ▸ hr)

/-- What a user's root leads to are its own tables, and the kernel's below entry 1. -/
theorem Spaces.table_user (hq : q ∈ E) (hlen : ρ.length ≤ 3)
    (hhead : ∀ i, ρ.head? = some i → i = 0 ∨ i = 1) (hc : tab k.pm q ρ = some c) :
    ρ.head? ≠ some 1 ∧ (spaces b E).Table dec k.pm.mem q ρ c ∨
      ρ.head? = some 1 ∧ (spaces b E).Table dec k.pm.mem b ρ c := by
  cases ρ with
  | nil => exact .inl ⟨nofun, Layout.node_nil (user_mem hq), hc⟩
  | cons i ρ =>
    rcases hhead i rfl with rfl | rfl
    · refine .inl ⟨fun e => absurd (Option.some.inj e) (by decide), ⟨user_mem hq, hlen,
        fun j hj => ?_⟩, hc⟩
      rw [head?_cons, Option.some.injEq] at hj
      exact (spaces_user h.apart hq j).mpr hj.symm
    · refine .inr ⟨rfl, ⟨kernel_mem, hlen, fun j hj => ?_⟩, ?_⟩
      · rw [head?_cons, Option.some.injEq] at hj
        exact (spaces_kernel j).mpr hj.symm
      · rw [tab, tableAt, h.shared q hq] at hc
        exact hc

section

variable (hq : q ∈ E) (hva : va < utop) (hρ : ρ <+: (vpn va).path) (hc : tab k.pm q ρ = some c)
include hq hva hρ hc

theorem Spaces.table_of_prefix :
    (spaces b E).Table dec k.pm.mem q ρ c ∨ (spaces b E).Table dec k.pm.mem b ρ c := by
  have hhead : ∀ i, ρ.head? = some i → i = 0 ∨ i = 1 := fun i hi => by
    cases ρ with
    | nil => cases hi
    | cons j ρ =>
      obtain rfl := Option.some.inj hi
      rw [(List.cons_prefix_cons.mp hρ).1]
      exact pml4_of_lt_utop hva
  exact (h.table_user hq hρ.length_le hhead hc).imp And.right And.right

theorem Spaces.prefix_lt : c < k.pm.npages := by
  obtain ⟨A, extra, L, hA, -⟩ := h.acct
  rcases h.table_of_prefix hq hva hρ hc with ht | ht
  · exact hA.table_lt c ht.isTable
  · exact hA.table_lt c ht.isTable

end

theorem Spaces.root_lt (hq : q ∈ E) : q < k.pm.npages := by
  obtain ⟨A, extra, L, hA, -⟩ := h.acct
  exact hA.table_lt q (Layout.isTable_root (user_mem hq))

section

variable (hr : r ∈ E) (hA : Acct (spaceReading b) (spaces b E) A extra k.pm L)
  (hC : Confined (single (· = 0) r) L k.pm s')
include hr hA hC

/-- A change below entry 0 of the root `r` keeps the tables of every other root. -/
theorem Spaces.keeps {i : Fin 512} (hc : (spaces b E).Table dec k.pm.mem q π c) (hne : q ≠ r) :
    s'.mem (slot c i) = k.pm.mem (slot c i) := by
  refine hC.frame _ ?_ ?_
  · rw [slot_div]
    exact hA.table_not_free c hc.isTable
  · rw [slot_div]
    rintro ⟨r', π', ⟨hr', hlen, hdom⟩, ht⟩
    obtain rfl := Finset.mem_singleton.mp hr'
    have hn : (spaces b E).Node r' π' := ⟨user_mem hr, hlen, fun j hj =>
      (spaces_user h.apart hr j).mpr (hdom j hj)⟩
    exact hne (hA.tree _ _ _ _ _ hc ⟨hn, ht⟩).1

/-- **An address space does not see what is done below entry 0 of another one.** -/
theorem Spaces.lookup_other (hq : q ∈ E) (hne : q ≠ r) (hva : va < utop) :
    lookupAt s' (some (q * 512)) va = lookupAt k.pm (some (q * 512)) va := by
  refine lookupAt_agree hC.npages (h.root_lt hq)
    (fun ρ c hρ hc => h.prefix_lt hq hva hρ hc) fun ρ c hρ hc i => ?_
  rcases h.table_of_prefix hq hva hρ hc with ht | ht
  · exact h.keeps hr hA hC ht hne
  · exact h.keeps hr hA hC ht (h.ne_kernel hr).symm

end

section

variable (hr : r ∈ E)
include hr

/-- Below entry 1 two address spaces are the same. -/
theorem Spaces.lookup_shared (hq : q ∈ E) (hva : pml4 va = 1) :
    lookupAt k.pm (some (r * 512)) va = lookupAt k.pm (some (q * 512)) va := by
  refine lookupAt_shared (h.root_lt hr) (h.root_lt hq) ?_
  rw [hva, h.shared r hr, h.shared q hq]

/-- Entry 1 of every root stays what it is. -/
theorem Spaces.change {A' : Finset Nat} {extra' : Nat → Nat} {L' : List Nat}
    (hA : Acct (spaceReading b) (spaces b E) A extra k.pm L)
    (hC : Confined (single (· = 0) r) L k.pm s')
    (hA' : Acct (spaceReading b) (spaces b E) A' extra' s' L')
    (hH : Held (spaceReading b) (spaces b E) A' s') : Spaces b E (k.withPm s') := by
  have hb : s'.mem (slot b (1 : Fin 512)) = k.pm.mem (slot b (1 : Fin 512)) :=
    h.keeps hr hA hC ⟨Layout.node_nil kernel_mem, rfl⟩ (h.ne_kernel hr).symm
  refine ⟨h.boot, ⟨A', extra', L', hA', hH⟩, h.apart, h.root, h.inj, fun p hp => ?_,
    by rw [withPm_pm, hb]; exact h.present, h.free⟩
  have hp' : s'.mem (slot p (1 : Fin 512)) = k.pm.mem (slot p (1 : Fin 512)) := by
    by_cases hpr : p = r
    · rw [hpr]
      exact hC.outer r (Finset.mem_singleton_self r) 1 (show ¬ (1 : Fin 512) = 0 by decide)
    · exact h.keeps hr hA hC ⟨Layout.node_nil (user_mem hp), rfl⟩ hpr
  show dec (s'.mem _) = dec (s'.mem _)
  rw [hp', hb]
  exact h.shared p hp

theorem Spaces.user_node (hva : pml4 va = 0) : (spaces b E).Node r (vpn va).path := by
  refine ⟨user_mem hr, Nat.le_refl 3, fun i hi => ?_⟩
  rw [vpn_path, head?_cons, Option.some.injEq, hva] at hi
  exact (spaces_user h.apart hr i).mpr hi.symm

theorem Spaces.user_read : (spaceReading b).read r = dec :=
  funext fun _ => if_neg (h.ne_kernel hr)

/-- **The tree of one user**, below entries 0 and 1 or one of them. -/
theorem Spaces.tree (hA : Acct (spaceReading b) (spaces b E) A extra k.pm L)
    (hD : ∀ i, D i → i = 0 ∨ i = 1) : Wf (single D r) k.pm L := by
  have htab : ∀ {r' π t}, (single D r).Table dec k.pm.mem r' π t → r' = r ∧
      (π.head? ≠ some 1 ∧ (spaces b E).Table dec k.pm.mem r π t ∨
        π.head? = some 1 ∧ (spaces b E).Table dec k.pm.mem b π t) := by
    rintro r' π t ⟨⟨h1, h2, h3⟩, ht⟩
    obtain rfl := Finset.mem_singleton.mp h1
    exact ⟨rfl, h.table_user hr h2 (fun i hi => hD i (h3 i hi)) ht⟩
  have hT : ∀ {t}, (single D r).IsTable dec k.pm.mem t → (spaces b E).IsTable dec k.pm.mem t :=
    fun ⟨r', π, ht⟩ => (htab ht).2.elim (fun h => h.2.isTable) fun h => h.2.isTable
  refine ⟨hA.toFreeList, rfl, fun r1 π1 r2 π2 t h1 h2 => ?_, fun t ht => hA.table_lt t (hT ht),
    fun t ht => hA.table_not_free t (hT ht), fun r' π i t hn ht hd => ?_⟩
  · obtain ⟨rfl, h1⟩ := htab h1
    obtain ⟨rfl, h2⟩ := htab h2
    refine ⟨rfl, ?_⟩
    rcases h1 with ⟨-, h1⟩ | ⟨-, h1⟩ <;> rcases h2 with ⟨-, h2⟩ | ⟨-, h2⟩ <;>
      exact (hA.tree _ _ _ _ _ h1 h2).2
  · obtain ⟨rfl, ht'⟩ := htab ⟨hn.of_append, ht⟩
    cases π with
    | nil =>
      obtain rfl : t = r' := (Option.some.inj ht).symm
      rcases hD i (hn.2.2 i rfl) with rfl | rfl
      · refine hA.absent t [] 0 t ⟨user_mem hr, hn.2.1, fun j hj => ?_⟩ rfl hd
        exact (spaces_user h.apart hr j).mpr (Option.some.inj hj).symm
      · rw [h.shared _ hr] at hd
        exact absurd hd h.present
    | cons j π =>
      -- the first entry says whose table it is
      rcases ht' with ⟨-, ht'⟩ | ⟨-, ht'⟩
      · exact hA.absent r' (j :: π) i t ⟨user_mem hr, hn.2.1, ht'.1.2.2⟩ ht'.2 hd
      · exact hA.absent b (j :: π) i t ⟨kernel_mem, hn.2.1, ht'.1.2.2⟩ ht'.2 hd

/-- A page that is found at `va` is mapped there. -/
theorem Spaces.view_of_lookup {pp : Nat} {pte : Ptr} (hva : pml4 va = 0)
    (hlook : lookupAt k.pm (some (r * 512)) va = .ok (some (pp, pte))) :
    view (spaceReading b) (spaces b E) k.pm r (vpn va) = some pp := by
  obtain ⟨A, extra, L, hA, -⟩ := h.acct
  exact hA.toWf.view_of_lookupAt (h.user_node hr hva) (h.user_read hr) hlook

/-- **An insertion below entry 0.** -/
theorem Spaces.inserted {pp : Nat} {perm : BitVec 32} {res : Except Err Unit} 
    (hva : pml4 va = 0) (hpp : pp < k.pm.npages) (hperm : perm.toNat < 4096)
    (hcount : ¬ OnFreeList k.pm pp ∧ (k.pm.ppRef pp).toNat < 65535 ∨
      ∃ pte, lookupAt k.pm (some (r * 512)) va = .ok (some (pp, pte)))
    (hrun : (pageInsert (some (r * 512)) (some pp) va perm).run k.pm = .ok (res, s')) :
    Spaces b E (k.withPm s') := by
  obtain ⟨A, extra, L, hA, hH⟩ := h.acct
  have hn := h.user_node hr hva
  have hC : Confined (single (· = 0) r) L k.pm s' :=
    pageInsert_confined (h.tree hr hA fun _ => .inl) (single_node hva) hperm hrun
  have hmax : pp ∉ L ∧ (view (spaceReading b) (spaces b E) k.pm r (vpn va) = some pp ∨
      (k.pm.ppRef pp).toNat < 65535) := by
    rcases hcount with ⟨hfree, hlt⟩ | ⟨pte, hlook⟩
    · exact ⟨fun hL => hfree (hA.chain.reaches_of_mem hL), .inr hlt⟩
    · have hv := h.view_of_lookup hr hva hlook
      exact ⟨fun hL => hA.not_mapped hL hn.1 hv, .inl hv⟩
  rcases Nat.lt_or_ge L.length (missing dec k.pm.mem r (vpn va).path) with hlt | hle
  · obtain ⟨m, hrun', hm⟩ := pageInsert_noMem pp perm hA.toWf hn hlt
    cases hrun'.symm.trans hrun
    have hoff : ∀ t, (spaces b E).IsTable dec k.pm.mem t → ∀ i : Fin 512,
        m (slot t i) = k.pm.mem (slot t i) := fun t ht i =>
      hm _ (by rw [slot_div]; exact hA.table_not_free t ht)
    refine h.change hr hA hC (hA.withMem hoff) fun p hp => ?_
    exact (total_congr (fun r hr => hA.view_withMem hoff hr) p).trans (hH p hp)
  · obtain ⟨s1, L', hrun', hA', hu, -⟩ := hA.pageInsert hn (h.user_read hr) hH hpp hmax.1 hperm
      hmax.2 hle
    cases hrun'.symm.trans hrun
    refine h.change hr hA hC hA' (hu.held hn.1 ?_ hH)
    rw [h.user_read hr]
    exact dec_pteLeaf (Pmap.lt_two_pow_52 hpp) hperm

/-- **A removal below entry 0.** -/
theorem Spaces.removed (hva : pml4 va = 0)
    (hrun : (pageRemove (some (r * 512)) va).run k.pm = .ok ((), s')) :
    Spaces b E (k.withPm s') := by
  obtain ⟨A, extra, L, hA, hH⟩ := h.acct
  have hC : Confined (single (· = 0) r) L k.pm s' :=
    pageRemove_confined (h.tree hr hA fun _ => .inl) (single_node hva) hrun
  obtain ⟨s1, L', hrun', hA', hH', -⟩ := hA.pageRemove (h.user_node hr hva) (h.user_read hr) hH
  cases hrun'.symm.trans hrun
  exact h.change hr hA hC hA' hH'

end

/-- A page is handed out. -/
theorem Spaces.handedOut {z : Bool} {o : Option Nat}
    (hrun : (pageAlloc z).run k.pm = .ok (o, s')) : Spaces b E (k.withPm s') := by
  obtain ⟨A, extra, L, hA, hH⟩ := h.acct
  cases L with
  | nil =>
    cases (pageAlloc_none hA.nil z).symm.trans hrun
    exact h
  | cons p L =>
    cases (hA.toFreeList.pageAlloc z).symm.trans hrun
    have hroot : ∀ q ∈ (spaces b E).roots, ∀ i : Fin 512,
        (k.pm.handOut z p).mem (slot q i) = k.pm.mem (slot q i) := fun q hq i =>
      Pmap.handOut_mem z (by
        rw [slot_div]
        rintro rfl
        exact hA.table_not_free q (Layout.isTable_root hq) (mem_cons_self ..))
    refine ⟨h.boot, ⟨_, extra, L, (hA.handOut z).1, fun q hq => ?_⟩, h.apart, h.root, h.inj,
      fun q hq => ?_, by rw [withPm_pm, hroot b kernel_mem]; exact h.present, h.free⟩
    · rw [withPm_pm, hA.leaves_handOut]
      rcases Finset.mem_insert.mp hq with rfl | hq
      · exact (hA.ref_of_free (mem_cons_self ..)).1
      · exact hH q hq
    · rw [withPm_pm, hroot q (user_mem hq), hroot b kernel_mem]
      exact h.shared q hq

/-- A page that is counted is not free. -/
theorem Spaces.not_onFreeList (hp : k.pm.ppRef p ≠ 0#16) : ¬ OnFreeList k.pm p := fun hfree => by
  obtain ⟨A, extra, L, hA, -⟩ := h.acct
  exact hp (hA.ref p (hA.chain.mem_of_reaches hfree))

/-- The entry of the kernel's root that `env_setup_vm` copies. -/
theorem Spaces.boot_div (hA : Acct (spaceReading b) (spaces b E) A extra k.pm L) :
    (k.bootPml4e + 1) / 512 = b ∧ b ∉ L := by
  refine ⟨?_, hA.table_not_free b (Layout.isTable_root kernel_mem)⟩
  have hdiv : ∀ n : Nat, (n * 512 + 1) / 512 = n := fun n => by omega
  rw [h.boot]
  exact hdiv b

/-- The head `e` of the list of environments gets the new root `p`. -/
theorem Spaces.adopt {w : Word} {l : List EnvIx}
    (hA : Acct (spaceReading b) (spaces b E) A extra k.pm (p :: L))
    (hH : Held (spaceReading b) (spaces b E) A k.pm) (hw : w = k.pm.mem (slot b (1 : Fin 512)))
    (hl : Chain (fun e => (k.envs e).envLink) k.envFreeList (e :: l))
    (hfree : ∀ g ∈ e :: l, (k.envs g).envStatus = .free) (hpm : k'.pm = k.pm.newRoot p w)
    (hboot : k'.bootPml4e = k.bootPml4e) (hself : (k'.envs e).envPml4e = some (p * 512))
    (hother : ∀ g, g ≠ e → k'.envs g = k.envs g) (hlist : k'.envFreeList = (k.envs e).envLink) :
    Spaces b (insert p E) k' := by
  have hb : b ∉ p :: L := hA.table_not_free b (Layout.isTable_root kernel_mem)
  have hbp : b ≠ p := fun e => hb (e ▸ mem_cons_self ..)
  have hdom : ∀ i, (spaces b E).dom p i → i = 0 := fun i hi => by
    have hi' : i = if p = b then 1 else 0 := hi
    rwa [if_neg hbp.symm] at hi'
  obtain ⟨hroot, hA', hleaves⟩ := hA.newRoot (w := w) hdom
  have hplant : (spaces b E).plant p = spaces b (insert p E) := by
    rw [spaces, spaces, Layout.plant, Finset.insert_comm]
  rw [hplant, ← hpm] at hA' hleaves
  have hpE : p ∉ E := fun hp => hroot (user_mem hp)
  have hel : e ∉ l := (List.nodup_cons.mp hl.nodup).1
  -- the environments that were live before are others, with other roots
  have hold : ∀ g, g ≠ e → (k'.envs g).envStatus ≠ .free →
      ∃ q ∈ E, (k'.envs g).envPml4e = some (q * 512) := fun g hg hlive => by
    rw [hother g hg] at hlive ⊢
    exact h.root g hlive
  have hnew : ∀ g, g ≠ e → (k'.envs g).envStatus ≠ .free →
      (k'.envs g).envPml4e ≠ (k'.envs e).envPml4e := fun g hg hlive heq => by
    obtain ⟨q, hq, hgq⟩ := hold g hg hlive
    rw [hself, hgq, Option.some.injEq] at heq
    exact hpE (Nat.eq_of_mul_eq_mul_right (by decide) heq ▸ hq)
  have hmem : ∀ q ≠ p, k'.pm.mem (slot q (1 : Fin 512)) = k.pm.mem (slot q (1 : Fin 512)) :=
    fun q hq => by
      rw [hpm]
      exact Pmap.newRoot_mem (by rw [slot_div]; exact hq)
  refine ⟨hboot.trans h.boot, ⟨A, extra, L, hA', fun q hq => (hleaves q).trans (hH q hq)⟩, ?_,
    fun g hlive => ?_, fun g g' hg hg' heq => ?_, fun q hq => ?_,
    by rw [hmem b hbp]; exact h.present, l, ?_, fun g hg => ?_⟩
  · rw [Finset.mem_insert, not_or]
    exact ⟨hbp, h.apart⟩
  · by_cases hge : g = e
    · exact ⟨p, Finset.mem_insert_self .., hge ▸ hself⟩
    · obtain ⟨q, hq, hgq⟩ := hold g hge hlive
      exact ⟨q, Finset.mem_insert_of_mem hq, hgq⟩
  · by_cases h1 : g = e
    · by_cases h2 : g' = e
      · rw [h1, h2]
      · exact absurd heq.symm (h1 ▸ hnew g' h2 hg')
    · by_cases h2 : g' = e
      · exact absurd heq (h2 ▸ hnew g h1 hg)
      · rw [hother g h1] at hg heq
        rw [hother g' h2] at hg' heq
        exact h.inj g g' hg hg' heq
  · rw [hmem b hbp]
    rcases Finset.mem_insert.mp hq with rfl | hq
    · rw [hpm, Pmap.newRoot_one, hw]
    · rw [hmem q fun e => hpE (e ▸ hq)]
      exact h.shared q hq
  · rw [hlist]
    refine Chain.congr (fun g hg => ?_) hl.2
    rw [hother g fun e => hel (e ▸ hg)]
  · rw [hother g fun e => hel (e ▸ hg)]
    exact hfree g (mem_cons_of_mem _ hg)

/-- **`env_alloc`** adds an address space, whose root was no table and has the kernel's entry 1. -/
theorem Spaces.newEnv {parentId : EnvId} (hrun : (envAlloc parentId).run k = .ok (.ok e, k')) :
    ∃ p, Spaces b (insert p E) k' ∧ ¬ (spaces b E).IsTable dec k.pm.mem p ∧
      k' = k.newEnv e parentId p (k.pm.mem (slot b (1 : Fin 512))) := by
  obtain ⟨A, extra, L, hA, hH⟩ := h.acct
  obtain ⟨l, hchain, hfree⟩ := h.free
  obtain ⟨⟨er, her⟩, -⟩ | ⟨e', p, L', w, heq, he, rfl, hw, rfl⟩ := envAlloc_cases hA.toFreeList hrun
  · cases her
  obtain rfl := Except.ok.inj heq
  cases l with
  | nil =>
    rw [show k.envFreeList = none from hchain] at he
    cases he
  | cons g l =>
    obtain rfl : g = e := Option.some.inj (hchain.1.symm.trans he)
    obtain ⟨hbdiv, hbL⟩ := h.boot_div hA
    have hbp : b ≠ p := fun e => hbL (e ▸ mem_cons_self ..)
    rw [hbdiv, h.boot] at hw
    obtain rfl : w = k.pm.mem (slot b (1 : Fin 512)) := hw hbp
    refine ⟨p, h.adopt hA hH rfl hchain hfree rfl rfl ?_ (fun _ => newEnv_other) rfl,
      fun hT => hA.table_not_free p hT (mem_cons_self ..), rfl⟩
    rw [newEnv_self]
    rfl

/-- **`env_alloc`** adds an address space, or changes nothing of them. -/
theorem Spaces.alloc {parentId : EnvId} {res : Except Err EnvIx}
    (hrun : (envAlloc parentId).run k = .ok (res, k')) : ∃ E', Spaces b E' k' := by
  obtain ⟨A, extra, L, hA, -⟩ := h.acct
  obtain ⟨-, rfl⟩ | ⟨e, p, L', w, rfl, -⟩ := envAlloc_cases hA.toFreeList hrun
  · exact ⟨E, h⟩
  · obtain ⟨p, h', -⟩ := h.newEnv hrun
    exact ⟨_, h'⟩

end other

/-! ### Runs -/

/-- Before the first environment. -/
theorem KernelTables.spaces (h : KernelTables b k) : Spaces b ∅ k := by
  obtain ⟨L, hL⟩ := h.wf
  obtain ⟨l, hl⟩ := h.free
  have hnode : ∀ r π, (JosVmm.spaces b ∅).Node r π → (single (· = 1) b).Node r π :=
    fun r π ⟨h1, h2, h3⟩ => by
      obtain rfl | h1 := Finset.mem_insert.mp h1
      · exact ⟨Finset.mem_singleton_self r, h2, fun i hi => (spaces_kernel i).mp (h3 i hi)⟩
      · exact absurd h1 (Finset.notMem_empty r)
  have hleaves : ∀ p, leaves (spaceReading b) (JosVmm.spaces b ∅) k.pm p = 0 := fun p =>
    Nat.eq_zero_of_not_pos fun hpos => by
      obtain ⟨r, hr, v, hv⟩ := leaves_pos_iff.mp hpos
      obtain ⟨-, u, -, hread⟩ := exists_tab_of_view hv
      obtain rfl | hr := Finset.mem_insert.mp hr
      · rw [show (spaceReading r).read r _ = none from if_pos rfl] at hread
        cases hread
      · exact absurd hr (Finset.notMem_empty r)
  have hA := (hL.part rfl hnode).acct hleaves fun t ⟨r, π, hn, ht⟩ =>
    h.counted t ⟨r, π, hnode r π hn, ht⟩
  exact ⟨h.root, ⟨_, _, L, hA, fun p _ => hleaves p⟩, Finset.notMem_empty b,
    fun e he => absurd (h.unused e) he, fun e _ he => absurd (h.unused e) he,
    fun p hp => absurd hp (Finset.notMem_empty p), h.present, l, hl, fun e _ => h.unused e⟩

/-- One step below entry 0. -/
theorem Spaces.step {op : SpaceOp} (h : Spaces b E k) (hlegal : op.Legal k)
    (hin : op.Within (· = 0) k) (hrun : op.exec.run k = .ok ((), k')) : ∃ E', Spaces b E' k' := by
  cases op with
  | alloc parentId =>
    obtain ⟨res, k₁, hk1, hrest⟩ := bind_inv hrun
    cases hrest
    exact h.alloc hk1
  | pageAlloc z =>
    obtain ⟨o, k₁, hk1, hrest⟩ := bind_inv hrun
    cases hrest
    obtain ⟨s', hs', rfl⟩ := onPmap_eq_ok hk1
    exact ⟨E, h.handedOut hs'⟩
  | insert e pp va perm =>
    obtain ⟨hlive, hva⟩ := hin e va rfl
    obtain ⟨r, hr, hroot⟩ := h.root e hlive
    obtain ⟨hpp, hperm, hcount⟩ := hlegal
    rw [SpaceOp.exec, bind_ok getEnv_run] at hrun
    obtain ⟨res, k₁, hk1, hrest⟩ := bind_inv hrun
    cases hrest
    obtain ⟨s', hs', rfl⟩ := onPmap_eq_ok hk1
    rw [hroot] at hs' hcount
    exact ⟨E, h.inserted hr hva hpp hperm hcount hs'⟩
  | remove e va =>
    obtain ⟨hlive, hva⟩ := hin e va rfl
    obtain ⟨r, hr, hroot⟩ := h.root e hlive
    rw [SpaceOp.exec, bind_ok getEnv_run] at hrun
    obtain ⟨s', hs', rfl⟩ := onPmap_eq_ok hrun
    rw [hroot] at hs'
    exact ⟨E, h.removed hr hva hs'⟩

theorem Spaces.reach (h : Spaces b E k)
    (hr : Reach SpaceOp.exec (fun k op => op.Legal k ∧ op.Within (· = 0) k) k k') :
    ∃ E', Spaces b E' k' :=
  invariant (P := fun k => ∃ E, Spaces b E k)
    (fun _ _ ⟨_, h⟩ ⟨_, hC, hrun⟩ => h.step hC.1 hC.2 hrun) ⟨E, h⟩ hr

end JosVmm
