import JosVmm.Machine.Boot
import JosVmm.Pmap.HostMap

/-!
# Page maps — exact reference counts

The page allocator and the kernel's page table from `page_init` on, under clients that call
`page_alloc`, `page_insert`, `page_remove` and `page_free`.  `ClientReach b root s H` says that
`s` is reached when clients insert only pages they hold or that are mapped, free only pages they
hold, and never map a page more than 65535 times; `H` is the set of pages they hold and have not
inserted.

`pageRefs_exact` is the invariant: counts are exact, and the free list holds exactly the pages
with count zero that no client holds.
-/

namespace JosVmm
open Support Support.Radix Support.Prog Support.Counting

/-- The kernel's page table: all entries of `boot_pml4e`. -/
abbrev bootTree (root : Nat) : Layout 512 := single (fun _ => True) root

/-- The machine when `page_init` is called: the `pages` array and the root table are zeroed, and
the root lies between the base memory and `nextfree`. -/
structure BootState (b : BootInfo) (root : Nat) (s : Pmap) : Prop where
  ref : ∀ p, s.ppRef p = 0#16
  link : ∀ p, s.ppLink p = none
  free : s.pageFreeList = none
  lt : root < s.npages
  above : b.npagesBasemem ≤ root
  below : root < b.nextfree
  zero : ∀ i : Fin 512, s.mem (slot root i) = 0

/-- The references of pages that stay in use from boot on. -/
def bootExtra (b : BootInfo) (root n p : Nat) : Nat :=
  if p < n ∧ b.inuse p ∧ p ≠ root then 1 else 0

noncomputable section

/-- Mapping `pp` at `va` leaves it with at most 65535 references. -/
def Room (root : Nat) (s : Pmap) (pp : Nat) (va : Word) : Prop :=
  view hostReading (bootTree root) s root (vpn va) = some pp ∨
    leaves hostReading (bootTree root) s pp + tables (bootTree root) s pp < 65535

/-- A client's `page_insert`: of a page it holds or that is mapped, with 12 bits of permissions. -/
structure Client (root : Nat) (s : Pmap) (H : Finset Nat) (pp : Nat) (va : Word)
    (perm : BitVec 32) : Prop where
  has : pp ∈ H ∨ ∃ v, view hostReading (bootTree root) s root v = some pp
  perm : perm.toNat < 4096
  room : Room root s pp va

/-- The states reached from boot, with the pages clients hold. -/
inductive ClientReach (b : BootInfo) (root : Nat) : Pmap → Finset Nat → Prop
  | boot {s : Pmap} : BootState b root s → ClientReach b root (pageInit b s) ∅
  | alloc {s s' : Pmap} {H : Finset Nat} {z : Bool} {p : Nat} : ClientReach b root s H →
      (pageAlloc z).run s = .ok (some p, s') → ClientReach b root s' (insert p H)
  | allocNone {s s' : Pmap} {H : Finset Nat} {z : Bool} : ClientReach b root s H →
      (pageAlloc z).run s = .ok (none, s') → ClientReach b root s' H
  | insert {s s' : Pmap} {H : Finset Nat} {pp : Nat} {va : Word} {perm : BitVec 32} :
      ClientReach b root s H → Client root s H pp va perm →
      (pageInsert (some (root * 512)) (some pp) va perm).run s = .ok (.ok (), s') →
      ClientReach b root s' (H.erase pp)
  | insertFail {s s' : Pmap} {H : Finset Nat} {pp : Nat} {va : Word} {perm : BitVec 32} {e : Err} :
      ClientReach b root s H → Client root s H pp va perm →
      (pageInsert (some (root * 512)) (some pp) va perm).run s = .ok (.error e, s') →
      ClientReach b root s' H
  | remove {s s' : Pmap} {H : Finset Nat} {va : Word} : ClientReach b root s H →
      (pageRemove (some (root * 512)) va).run s = .ok ((), s') → ClientReach b root s' H
  | free {s s' : Pmap} {H : Finset Nat} {pp : Nat} : ClientReach b root s H → pp ∈ H →
      (pageFree pp).run s = .ok ((), s') → ClientReach b root s' (H.erase pp)

variable {b : BootInfo} {root : Nat} {s s' : Pmap} {H A : Finset Nat} {L : List Nat} {p pp : Nat}
  {va : Word} {perm : BitVec 32} {R : Reading Nat} {F : Layout 512} {extra : Nat → Nat}

/-! ### Boot -/

theorem BootState.inuse (h : BootState b root s) : b.inuse root = true := by
  have h1 : ¬ (root ≠ 0 ∧ root < b.npagesBasemem) := fun hc => by have := h.above; omega
  have h2 : ¬ b.nextfree ≤ root := by have := h.below; omega
  simp only [BootInfo.inuse, if_neg h1, if_neg h2]
  split <;> split <;> rfl

theorem leaves_zeroed {D : Fin 512 → Prop} (hz : ∀ i : Fin 512, s.mem (slot root i) = 0) (p : Nat) :
    leaves R (single D root) s p = 0 := by
  refine Nat.eq_zero_of_not_pos fun hpos => ?_
  rw [leaves_single] at hpos
  obtain ⟨v, hv⟩ := fibre_pos_iff.mp hpos
  obtain ⟨hd, u, ht, -⟩ := exists_tab_of_view hv
  obtain ⟨-, hπ, -⟩ := table_zeroed hz ⟨single_node hd, ht⟩
  simp [Vpn.path] at hπ

theorem tables_zeroed {D : Fin 512 → Prop} (hz : ∀ i : Fin 512, s.mem (slot root i) = 0) (p : Nat) :
    tables (single D root) s p = one (p = root) := by
  by_cases e : p = root
  · subst e
    rw [one_of rfl]
    exact tables_eq_one (Layout.isTable_root (Finset.mem_singleton_self p))
  · rw [one_not e, tables_eq_zero]
    rintro ⟨_, _, h⟩
    exact e (table_zeroed hz h).2.2

/-- After `page_init` every count is exact. -/
theorem BootState.acct (h : BootState b root s) :
    Acct hostReading (bootTree root) ∅ (bootExtra b root s.npages) (pageInit b s)
      (b.free s.npages) := by
  obtain ⟨last, hi⟩ := pageInit_spec (b := b) h.ref h.link h.free
  have hz : ∀ i : Fin 512, (pageInit b s).mem (slot root i) = 0 := fun i => by
    rw [show (pageInit b s).mem = s.mem from hi.mem]
    exact h.zero i
  have hnp : (pageInit b s).npages = s.npages := hi.npages
  have hfree : FreeList (pageInit b s) (b.free s.npages) :=
    { chain := hi.chain
      unlinked := hi.unlinked
      lt := fun p hp => hnp ▸ (BootInfo.mem_free.mp hp).1
      ref := fun p hp => by
        rw [show (pageInit b s).ppRef p = _ from hi.ref p, if_neg]
        rw [(BootInfo.mem_free.mp hp).2]
        simp }
  have hroot : root ∉ b.free s.npages := fun hc => by
    have := (BootInfo.mem_free.mp hc).2
    rw [h.inuse] at this
    cases this
  exact
    { toWf := Wf.zeroed hfree (hnp ▸ h.lt) hroot hz
      exact := fun p _ => by
        rw [leaves_zeroed hz, tables_zeroed hz, show (pageInit b s).ppRef p = _ from hi.ref p]
        by_cases e : p = root
        · subst e
          rw [if_pos ⟨h.lt, h.inuse⟩, one_of rfl, bootExtra, if_neg fun hc => hc.2.2 rfl]
          rfl
        · rw [one_not e, bootExtra]
          by_cases hu : p < s.npages ∧ b.inuse p = true
          · rw [if_pos hu, if_pos ⟨hu.1, hu.2, e⟩]
            rfl
          · rw [if_neg hu, if_neg fun hc => hu ⟨hc.1, hc.2.1⟩]
            rfl
      anon := nofun
      anon_lt := nofun
      zero := fun p hp h0 => by
        rw [show (pageInit b s).ppRef p = _ from hi.ref p] at h0
        refine .inl (BootInfo.mem_free.mpr ⟨hnp ▸ hp, ?_⟩)
        by_contra hc
        rw [if_pos ⟨hnp ▸ hp, by simpa using hc⟩] at h0
        cases h0
      mapped_lt := fun p hp => by
        rw [leaves_zeroed hz] at hp
        omega }

/-! ### One call -/

/-- What holds in every state that clients reach. -/
structure ClientInv (b : BootInfo) (root n : Nat) (s : Pmap) (H : Finset Nat) (L : List Nat) :
    Prop where
  acct : Acct hostReading (bootTree root) H (bootExtra b root n) s L
  held : Held hostReading (bootTree root) H s
  mapped : ∀ p, 0 < leaves hostReading (bootTree root) s p → bootExtra b root n p = 0

variable {n : Nat}

namespace ClientInv

theorem boot (h : BootState b root s) :
    ClientInv b root s.npages (pageInit b s) ∅ (b.free s.npages) := by
  have hz : ∀ i : Fin 512, (pageInit b s).mem (slot root i) = 0 := by
    obtain ⟨last, hi⟩ := pageInit_spec (b := b) h.ref h.link h.free
    intro i
    rw [show (pageInit b s).mem = s.mem from hi.mem]
    exact h.zero i
  refine ⟨h.acct, nofun, fun p hp => ?_⟩
  rw [leaves_zeroed hz] at hp
  omega

section

variable (h : ClientInv b root n s H L)
include h

theorem alloc {z : Bool} (hrun : (pageAlloc z).run s = .ok (some p, s')) :
    ∃ L', ClientInv b root n s' (insert p H) L' := by
  cases L with
  | nil => cases (pageAlloc_none h.acct.nil z).symm.trans hrun
  | cons q L =>
    cases (h.acct.toFreeList.pageAlloc z).symm.trans hrun
    refine ⟨L, (h.acct.handOut z).1, fun q hq => ?_, fun q hq => ?_⟩
    · rw [h.acct.leaves_handOut]
      rcases Finset.mem_insert.mp hq with rfl | hq
      · exact (h.acct.ref_of_free (List.mem_cons_self ..)).1
      · exact h.held q hq
    · rw [h.acct.leaves_handOut] at hq
      exact h.mapped q hq

theorem allocNone {z : Bool} (hrun : (pageAlloc z).run s = .ok (none, s')) : s' = s := by
  cases L with
  | nil => cases (pageAlloc_none h.acct.nil z).symm.trans hrun; rfl
  | cons q L => cases (h.acct.toFreeList.pageAlloc z).symm.trans hrun

/-- A page a client may insert: it is not free, it is not kept from boot, and its count has room
when it has fewer than 65535 references. -/
theorem has (hp : p ∈ H ∨ ∃ v, view hostReading (bootTree root) s root v = some p) :
    p < s.npages ∧ p ∉ L ∧ bootExtra b root n p = 0 ∧
      (leaves hostReading (bootTree root) s p + tables (bootTree root) s p < 65535 →
        (s.ppRef p).toNat < 65535) := by
  have hroot : root ∈ (bootTree root).roots := Finset.mem_singleton_self root
  rcases hp with hp | ⟨v, hv⟩
  · obtain ⟨hL, href, -, -, hex⟩ := h.acct.anon p hp
    refine ⟨h.acct.anon_lt p hp, hL, hex, fun _ => ?_⟩
    rw [href]
    decide
  · have hpos := leaves_pos_iff.mpr ⟨root, hroot, v, hv⟩
    have hex := h.mapped p hpos
    refine ⟨h.acct.mapped_lt p hpos, fun hL => h.acct.not_mapped hL hroot hv, hex, fun hlt => ?_⟩
    rw [h.acct.exact p fun hH => by rw [h.held p hH] at hpos; omega, hex, Nat.add_zero]
    exact hlt

/-- A client's insertion, when it succeeds and when it does not. -/
theorem insert (hc : Client root s H pp va perm) :
    (∃ s' L', (pageInsert (some (root * 512)) (some pp) va perm).run s = .ok (.ok (), s') ∧
      ClientInv b root n s' (H.erase pp) L') ∨
    (∃ s', (pageInsert (some (root * 512)) (some pp) va perm).run s = .ok (.error .noMem, s') ∧
      ClientInv b root n s' H L) := by
  have hn : (bootTree root).Node root (vpn va).path := single_node trivial
  obtain ⟨hlt, hL, hex, hroom⟩ := h.has hc.has
  rcases Nat.lt_or_ge L.length (missing dec s.mem root (vpn va).path) with hlt' | hle
  · right
    obtain ⟨m, hrun, hm⟩ := pageInsert_noMem pp perm h.acct.toWf hn hlt'
    have hoff : ∀ t, (bootTree root).IsTable dec s.mem t → ∀ i : Fin 512,
        m (slot t i) = s.mem (slot t i) := fun t ht i =>
      hm _ (by rw [slot_div]; exact h.acct.table_not_free t ht)
    have hleaves : ∀ p, leaves hostReading (bootTree root) (s.withMem m) p =
        leaves hostReading (bootTree root) s p := fun p =>
      total_congr (fun r hr => h.acct.view_withMem hoff hr) p
    exact ⟨_, hrun, h.acct.withMem hoff, fun p hp => (hleaves p).trans (h.held p hp),
      fun p hp => h.mapped p (hleaves p ▸ hp)⟩
  · left
    obtain ⟨s', L', hrun, h', hu, -⟩ := h.acct.pageInsert hn rfl h.held hlt hL hc.perm
      (hc.room.imp_right hroom) hle
    have hread : hostReading.read root (pteLeaf pp perm) = some pp :=
      dec_pteLeaf (Pmap.lt_two_pow_52 hlt) hc.perm
    refine ⟨s', L', hrun, h', hu.held hn.1 hread h.held, fun p hp => ?_⟩
    by_cases e : p = pp
    · exact e ▸ hex
    · have := hu.leaves (R := hostReading) hn.1 p
      rw [hread, one_not fun hc => e (Option.some.inj hc).symm] at this
      exact h.mapped p (by omega)

theorem remove (hrun : (pageRemove (some (root * 512)) va).run s = .ok ((), s')) :
    ∃ L', ClientInv b root n s' H L' := by
  have hn : (bootTree root).Node root (vpn va).path := single_node trivial
  obtain ⟨s1, L', hrun', h', hH, hcase⟩ := h.acct.pageRemove hn rfl h.held
  cases hrun'.symm.trans hrun
  refine ⟨L', h', hH, fun p hp => ?_⟩
  rcases hcase with ⟨rfl, -⟩ | ⟨u, q, ht, hv, rfl, -⟩
  · exact h.mapped p hp
  · rw [leaves_decref] at hp
    have := (h.acct.updated hn ht 0).leaves (R := hostReading) hn.1 p
    rw [hostReading.zero, one_not (c := none = some p) (by simp), vpn_last] at this
    exact h.mapped p (by omega)

theorem free (hp : pp ∈ H) (hrun : (pageFree pp).run s = .ok ((), s')) :
    ∃ L', ClientInv b root n s' (H.erase pp) L' := by
  obtain ⟨hL, href, -, htab, hex⟩ := h.acct.anon pp hp
  have hgive : (pageFree pp).run s = .ok ((), s.give pp) := by
    simp only [pageFree]
    rw [bind_get, if_neg (by simp [href, h.acct.unlinked pp hL])]
    rfl
  cases hgive.symm.trans hrun
  have h' := h.acct.give hL (h.acct.anon_lt pp hp) (h.held pp hp) htab
  rw [show Function.update (bootExtra b root n) pp 0 = bootExtra b root n from
    Function.update_eq_self_iff.mpr hex.symm] at h'
  refine ⟨_, h', fun p hp => ?_, fun p hp => ?_⟩
  · rw [leaves_give]
    exact h.held p (Finset.mem_of_mem_erase hp)
  · rw [leaves_give] at hp
    exact h.mapped p hp

end

end ClientInv

/-- Along every run of the clients. -/
theorem ClientReach.inv (h : ClientReach b root s H) : ∃ n L, ClientInv b root n s H L := by
  induction h with
  | boot h => exact ⟨_, _, .boot h⟩
  | alloc _ hrun ih =>
    obtain ⟨n, L, h⟩ := ih
    exact ⟨n, h.alloc hrun⟩
  | allocNone _ hrun ih =>
    obtain ⟨n, L, h⟩ := ih
    exact ⟨n, L, h.allocNone hrun ▸ h⟩
  | insert _ hc hrun ih =>
    obtain ⟨n, L, h⟩ := ih
    rcases h.insert hc with ⟨s', L', hrun', h'⟩ | ⟨s', hrun', -⟩
    · cases hrun'.symm.trans hrun
      exact ⟨n, L', h'⟩
    · cases hrun'.symm.trans hrun
  | insertFail _ hc hrun ih =>
    obtain ⟨n, L, h⟩ := ih
    rcases h.insert hc with ⟨s', L', hrun', -⟩ | ⟨s', hrun', h'⟩
    · cases hrun'.symm.trans hrun
    · cases hrun'.symm.trans hrun
      exact ⟨n, L, h'⟩
  | remove _ hrun ih =>
    obtain ⟨n, L, h⟩ := ih
    exact ⟨n, h.remove hrun⟩
  | free _ hp hrun ih =>
    obtain ⟨n, L, h⟩ := ih
    exact ⟨n, h.free hp hrun⟩

/-- **Counts are exact.**  In every state that clients reach, the free list is a chain without
repetition of pages that have count zero and are mapped nowhere; every page with count zero that
no client holds is on it; and the count of every allocated page is the number of present
last-level entries that map it, plus one if it is a page-table page. -/
theorem pageRefs_exact (h : ClientReach b root s H) : ∃ L,
    Chain s.ppLink s.pageFreeList L ∧ L.Nodup ∧
    (∀ p ∈ L, s.ppRef p = 0#16 ∧ ∀ v, view hostReading (bootTree root) s root v ≠ some p) ∧
    (∀ p < s.npages, s.ppRef p = 0#16 → p ∉ H → p ∈ L) ∧
    (∀ p, b.inuse p = false → p ∉ L → (s.ppRef p).toNat =
      fibre (view hostReading (bootTree root) s root) p + tables (bootTree root) s p) := by
  obtain ⟨n, L, h⟩ := h.inv
  refine ⟨L, h.acct.chain, h.acct.nodup, fun p hp => ⟨h.acct.ref p hp, fun v =>
    h.acct.not_mapped hp (Finset.mem_singleton_self root)⟩, fun p hlt h0 hH =>
    (h.acct.zero p hlt h0).resolve_right hH, fun p hu _ => ?_⟩
  rw [← leaves_single]
  by_cases hH : p ∈ H
  · obtain ⟨-, href, -, htab, -⟩ := h.acct.anon p hH
    rw [href, h.held p hH, htab]
    rfl
  · rw [h.acct.exact p hH, bootExtra, if_neg (by simp [hu]), Nat.add_zero]

end

/-- Sixteen pages: pages 1 to 3 and 10 to 15 are free after `page_init`, and page 9 is the root. -/
def sixteenPages : Pmap where
  npages := 16
  npages_le := sixteen_le_maxNpages
  mem _ := 0
  ppRef _ := 0#16
  ppLink _ := none
  pageFreeList := none

/-- The invariant on a machine of sixteen pages after `page_init`. -/
theorem pageRefs_exact_boot : ∃ L, Chain (pageInit ⟨4, 10, 5⟩ sixteenPages).ppLink
    (pageInit ⟨4, 10, 5⟩ sixteenPages).pageFreeList L ∧ L.Nodup := by
  have hboot : ClientReach ⟨4, 10, 5⟩ 9 (pageInit ⟨4, 10, 5⟩ sixteenPages) ∅ :=
    .boot ⟨fun _ => rfl, fun _ => rfl, rfl, by decide, by decide, by decide, fun _ => rfl⟩
  obtain ⟨L, hchain, hnodup, -⟩ := pageRefs_exact hboot
  exact ⟨L, hchain, hnodup⟩

end JosVmm
