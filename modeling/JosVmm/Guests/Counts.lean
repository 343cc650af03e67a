import JosVmm.Guests.Runs
import JosVmm.Pmap.Crowded

/-!
# Guests — counts of 16 bits

Host address spaces and guests that share pages: any sequence of `page_insert`, `page_remove` and
`sys_ept_map` calls, on the page tables of `H` and the EPTs of the live guests.  A page may be
mapped any number of times.  As long as no call counts a page whose count is 65535, no page that
is mapped by a present leaf is on the free list (`freePages_not_mapped`).  One mapping more, and
a page is freed under all the others (`mappedPage_freed`).
-/

namespace JosVmm
open Support Support.Radix Support.Prog Support.Counting Finset

/-- The calls that map and unmap pages; `r` is the page of the root table. -/
inductive MapOp where
  | insert (r pp : Nat) (va : Word) (perm : BitVec 32)
  | remove (r : Nat) (va : Word)
  | eptMap (srcenvid : EnvId) (srcva : Word) (guest : EnvId) (guestPa : Word) (perm : BitVec 32)
  /-- Another environment makes the next call. -/
  | switch (e : EnvIx)

def MapOp.exec : MapOp → Km Unit
  | insert r pp va perm => do
    let _ ← onPmap (pageInsert (some (r * 512)) (some pp) va perm)
    return ()
  | remove r va => onPmap (pageRemove (some (r * 512)) va)
  | eptMap srcenvid srcva guest guestPa perm => do
    let _ ← sysEptMap srcenvid srcva guest guestPa perm
    return ()
  | switch e => modify fun k => { k with curenv := some e }

/-- The calls that fit into the counts: the page is in use and can be counted once more, unless
it is mapped there already. -/
def Fits (H : Layout 512) (k : Kernel) : MapOp → Prop
  | .insert r pp va perm => r ∈ H.roots ∧ H.dom r (pml4 va) ∧ pp < k.pm.npages ∧
      perm.toNat < 4096 ∧ (¬ OnFreeList k.pm pp ∧ (k.pm.ppRef pp).toNat < 65535 ∨
        ∃ pte, (pageLookup (some (r * 512)) va).run k.pm = .ok (some (pp, pte), k.pm))
  | .remove r va => r ∈ H.roots ∧ H.dom r (pml4 va)
  | .eptMap srcenvid srcva guest guestPa perm =>
    Tame H k (.eptMap srcenvid srcva guest guestPa perm)
  | .switch e => (k.envs e).envStatus ≠ .free

/-- **Every count is exact**: a page that is mapped is counted for each of its mappings. -/
structure KExact (H : Layout 512) (k : Kernel) : Prop extends KInv H k where
  counts : ∃ A extra L, Acct (forestReading H) (forest H (guestRoots k)) A extra k.pm L ∧
    (∀ p, structs k p ≤ extra p) ∧ Held (forestReading H) (forest H (guestRoots k)) A k.pm

variable {H : Layout 512} {G : Finset Nat} {k k' : Kernel} {r : Nat} {va : Word}
  {R : Reading Nat} {F : Layout 512} {A : Finset Nat} {extra : Nat → Nat} {s : Pmap} {L : List Nat}

theorem forestReading_host (hr : r ∈ H.roots) : (forestReading H).read r = dec := by
  funext e
  exact if_pos hr

theorem forest_node (h : Wf (forest H G) s L) (hr : r ∈ H.roots) (hd : H.dom r (pml4 va)) :
    (forest H G).Node r (vpn va).path :=
  node_path h (mem_union_left G hr) fun _ => hd

/-- What `page_lookup` finds is in the view. -/
theorem Acct.view_of_lookup {p : Nat} {pte : Ptr} (h : Acct R F A extra s L)
    (hn : F.Node r (vpn va).path) (hR : R.read r = dec)
    (hlook : (pageLookup (some (r * 512)) va).run s = .ok (some (p, pte), s)) :
    view R F s r (vpn va) = some p := by
  have hlt : ∀ x, found s r va = some x → x.1 < s.npages := fun x hx =>
    h.mapped_lt x.1 (leaves_pos_iff.mpr ⟨r, hn.1, vpn va, by rw [← found_eq hR hn, hx]; rfl⟩)
  rw [pageLookup_run h.toWf hn hlt] at hlook
  rw [← found_eq hR hn, (Prod.mk.inj (Except.ok.inj hlook)).1]
  rfl

/-- Steps that change memory only. -/
theorem KExact.withPm {s' : Pmap} (h : KExact H k) (hnp : s'.npages = k.pm.npages)
    (hacct : ∃ A extra L, Acct (forestReading H) (forest H (guestRoots k)) A extra s' L ∧
      (∀ p, structs k p ≤ extra p) ∧ Held (forestReading H) (forest H (guestRoots k)) A s') :
    KExact H (k.withPm s') := by
  obtain ⟨A, extra, L, h', hm, hheld⟩ := hacct
  exact ⟨h.toKInv.withPm hnp ⟨A, extra, L, h', hm⟩, A, extra, L, h', hm, hheld⟩

/-- **An insertion** that fits. -/
theorem KExact.insert {pp : Nat} {perm : BitVec 32} {res : Except Err Unit} {s' : Pmap}
    (h : KExact H k) (hf : Fits H k (.insert r pp va perm))
    (hrun : (pageInsert (some (r * 512)) (some pp) va perm).run k.pm = .ok (res, s')) :
    KExact H (k.withPm s') := by
  obtain ⟨A, extra, L, hA, hm, hheld⟩ := h.counts
  obtain ⟨hr, hd, hpp, hperm, hfit⟩ := hf
  have hn := forest_node hA.toWf hr hd
  have hR := forestReading_host hr
  rcases Nat.lt_or_ge L.length (missing dec k.pm.mem r (vpn va).path) with hlt | hle
  · -- no page for a table
    obtain ⟨m, hrun', hag⟩ := pageInsert_noMem pp perm hA.toWf hn hlt
    cases hrun'.symm.trans hrun
    have hoff : ∀ t, (forest H (guestRoots k)).IsTable dec k.pm.mem t → ∀ i : Fin 512,
        m (slot t i) = k.pm.mem (slot t i) := fun t ht i =>
      hag _ (by rw [slot_div]; exact hA.table_not_free t ht)
    refine h.withPm rfl ⟨A, extra, L, hA.withMem hoff, hm, fun p hp => ?_⟩
    exact (total_congr (fun r hr => hA.view_withMem hoff hr) p).trans (hheld p hp)
  · have hcase : view (forestReading H) (forest H (guestRoots k)) k.pm r (vpn va) = some pp ∨
        pp ∉ L ∧ (k.pm.ppRef pp).toNat < 65535 := by
      rcases hfit with ⟨hfree, hmax⟩ | ⟨pte, hl⟩
      · exact .inr ⟨fun hp => hfree (hA.chain.reaches_of_mem hp), hmax⟩
      · exact .inl (hA.view_of_lookup hn hR hl)
    have hpL : pp ∉ L := hcase.elim (fun hv hp => hA.not_mapped hp hn.1 hv) And.left
    obtain ⟨s1, L', hrun', h', hu, -, hnp, -⟩ := hA.pageInsert hn hR hheld hpp hpL hperm
      (hcase.imp_right And.right) hle
    cases hrun'.symm.trans hrun
    refine h.withPm hnp ⟨A.erase pp, extra, L', h', hm, hu.held hn.1 ?_ hheld⟩
    rw [hR]
    exact dec_pteLeaf (Pmap.lt_two_pow_52 hpp) hperm

/-- **One step keeps every count exact.** -/
theorem KExact.step {op : MapOp} (h : KExact H k) (hf : Fits H k op)
    (hrun : op.exec.run k = .ok ((), k')) : KExact H k' := by
  have hinv := h.toKInv
  obtain ⟨A, extra, L, hA, hm, hheld⟩ := h.counts
  cases op with
  | insert r pp va perm =>
    obtain ⟨res, k₁, hk1, hrun1⟩ := bind_inv hrun
    cases hrun1
    obtain ⟨s', hs', rfl⟩ := onPmap_eq_ok hk1
    exact h.insert hf hs'
  | remove r va =>
    obtain ⟨s', hs', rfl⟩ := onPmap_eq_ok hrun
    obtain ⟨s1, L', hrun', h', hheld', hcase⟩ :=
      hA.pageRemove (forest_node hA.toWf hf.1 hf.2) (forestReading_host hf.1) hheld
    cases hrun'.symm.trans hs'
    refine h.withPm ?_ ⟨A, extra, L', h', hm, hheld'⟩
    obtain ⟨rfl, -⟩ | ⟨u, q, -, -, rfl, -⟩ := hcase
    · rfl
    · exact Pmap.decref_npages
  | eptMap srcenvid srcva guest guestPa perm =>
    obtain ⟨res, k₁, hk1, hrun1⟩ := bind_inv hrun
    cases hrun1
    obtain ⟨rfl, -⟩ | ⟨src, g, s', hsrc, htgt, hchk, rfl, hs'⟩ := sysEptMap_eq_ok hk1
    · exact h
    · have hg := hinv.eptMap_target htgt fun hsz => hchk (.inr (.inr (.inr hsz)))
      obtain ⟨extra', L', h', hm', hnp, hleaf⟩ := hA.eptMap (hinv.eptRoot hg)
        (hinv.guest g hg).pml4e hm hf.1 (fun map pte => hf.2 src map pte hsrc) hs'
      exact h.withPm hnp ⟨A, extra', L', h', hm', fun p hp =>
        Nat.eq_zero_of_le_zero (hheld p hp ▸ hleaf p hp)⟩
  | switch e =>
    cases hrun
    exact ⟨hinv.resume hf k.cpu, A, extra, L, hA, hm, hheld⟩

/-- **No mapped page is free.**  In every run of calls that fit into the counts, no page that a
host page table or the EPT of a live guest maps by a present leaf is on the free list. -/
theorem freePages_not_mapped {k₀ : Kernel} (h₀ : KExact H k₀)
    (hr : Reach MapOp.exec (Fits H) k₀ k) {p : Nat} (hp : OnFreeList k.pm p) :
    (∀ r va pte, r ∈ H.roots → H.dom r (pml4 va) →
      (pageLookup (some (r * 512)) va).run k.pm ≠ .ok (some (p, pte), k.pm)) ∧
    ∀ e ∈ liveGuests k, ∀ gpa w, eptTranslate k.pm (k.envs e).root gpa = some w →
      ppn (epteAddr w) ≠ p := by
  obtain ⟨hinv, A, extra, L, hA, -, -⟩ :=
    invariant (P := KExact H) (fun _ _ h ⟨_, hf, hrun⟩ => h.step hf hrun) h₀ hr
  have hpL := hA.chain.mem_of_reaches hp
  refine ⟨fun r va pte hr hd hlook => ?_, fun e he gpa w hw hwp => ?_⟩
  · have hn := forest_node hA.toWf hr hd
    exact hA.not_mapped hpL hn.1 (hA.view_of_lookup hn (forestReading_host hr) hlook)
  · refine hA.not_mapped hpL (hinv.eptRoot he).root (v := vpn gpa) ?_
    rw [hinv.view_of_translate he hw, hwp]

/-! ### A page at its last count -/

/-- The crowded page table, in a kernel without guests. -/
def crowdedKernel : Kernel := (smallMachine (faultAt 2 0)).withPm crowded

theorem crowdedKernel_quiet : Quiet crowdedKernel :=
  (smallMachine_quiet _).withPm crowded_freeList

theorem crowdedKernel_exact : KExact crowdedLayout crowdedKernel := by
  have hforest : forest crowdedLayout ∅ = crowdedLayout := by
    simp [forest, single]
  have hacct : Acct (forestReading crowdedLayout) (forest crowdedLayout ∅) ∅ crowdedExtra
      crowdedKernel.pm [140, 141, 142, 143, 144] := by
    rw [hforest]
    exact crowded_acct.reading fun r hr => forestReading_host hr
  have hno := crowdedKernel_quiet.no_guests
  have hroots : guestRoots crowdedKernel = ∅ := by rw [guestRoots, hno, image_empty]
  refine ⟨crowdedKernel_quiet.kInv_of hacct, ∅, crowdedExtra, [140, 141, 142, 143, 144], ?_,
    fun p => ?_, fun _ hp => absurd hp (notMem_empty _)⟩
  · rw [hroots]
    exact hacct
  · rw [structs, hno, sum_empty]
    exact Nat.zero_le _

theorem crowdedKernel_remove : Returns ((MapOp.remove 1 0).exec.run crowdedKernel) fun _ k =>
    k.pm.pageFreeList = some 140 := by
  decide +kernel

/-- The theorem after a removal from the crowded table: the first free page is not mapped. -/
theorem freePages_not_mapped_crowded : ∃ k, Reach MapOp.exec (Fits crowdedLayout) crowdedKernel k ∧
    OnFreeList k.pm 140 ∧
    ∀ va pte, (pageLookup (some (1 * 512)) va).run k.pm ≠ .ok (some (140, pte), k.pm) := by
  obtain ⟨_, k, hrun, hfree⟩ := crowdedKernel_remove.exists_ok
  have hon : OnFreeList k.pm 140 := by
    rw [OnFreeList, hfree]
    exact .here _
  have hr : Reach MapOp.exec (Fits crowdedLayout) crowdedKernel k :=
    .single ⟨.remove 1 0, ⟨mem_singleton_self 1, trivial⟩, hrun⟩
  exact ⟨k, hr, hon, fun va pte =>
    (freePages_not_mapped crowdedKernel_exact hr hon).1 1 va pte (mem_singleton_self 1) trivial⟩

/-- **A mapped page is freed**: two more mappings take the count of page 150 through 0 to 1, and
the removal of one mapping frees it. -/
theorem mappedPage_freed : KExact crowdedLayout crowdedKernel ∧
    ∃ k, Reach MapOp.exec (fun _ _ => True) crowdedKernel k ∧ OnFreeList k.pm 150 ∧
      ∃ pte, (pageLookup (some (1 * 512)) 0x1000#64).run k.pm = .ok (some (150, pte), k.pm) := by
  refine ⟨crowdedKernel_exact, ?_⟩
  have hrun : Follows MapOp.exec (fun _ _ => True)
      (fun k => k.pm.pageFreeList = some 150 ∧
        Returns ((pageLookup (some (1 * 512)) 0x1000#64).run k.pm) fun o _ =>
          o.map Prod.fst = some 150)
      [.insert 1 150 0xFFFF000#64 6#32, .insert 1 150 0x10000000#64 6#32, .remove 1 0]
      crowdedKernel := by
    decide +kernel
  obtain ⟨k, hr, hfree, hlook⟩ := hrun.reach
  obtain ⟨o, s', hs', ho⟩ := hlook.exists_ok
  obtain ⟨rfl, -⟩ := pageLookup_eq_ok hs'
  obtain ⟨⟨p, pte⟩, rfl, rfl⟩ := Option.map_eq_some_iff.mp ho
  refine ⟨k, hr, ?_, pte, hs'⟩
  rw [OnFreeList, hfree]
  exact .here _

end JosVmm
