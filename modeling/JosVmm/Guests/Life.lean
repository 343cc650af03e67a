import JosVmm.Guests.Inv

/-!
# Guests — creation and destruction

`env_guest_alloc` and `env_guest_free` keep the invariant (`KInv.alloc`, `KInv.free_guest`).  Of the two
references to a VMCS that the first makes, the second gives up one (`KInv.release`).
-/

namespace JosVmm
open Support Support.Radix Support.Prog Support.Counting Finset Pmap Kernel

variable {H : Layout 512} {k k' : Kernel} {e : EnvIx} {s s' : Pmap} {v : Env}

/-! ### Creation -/

theorem KInv.not_live (h : (k.envs e).envStatus = .free) : e ∉ liveGuests k := fun he =>
  (mem_liveGuests.mp he).1 h

/-- A free environment may change as long as it stays free. -/
theorem KInv.scratch (h : KInv H k) (he : (k.envs e).envStatus = .free)
    (hv : v.envStatus = .free) (hl : v.envLink = (k.envs e).envLink) : KInv H (k.setEnv e v) := by
  have hnv : ¬ v.IsLiveGuest := fun hg => hg.1 hv
  have hlive : liveGuests (k.setEnv e v) = liveGuests k := by
    rw [liveGuests_setEnv_of_not hnv, erase_eq_of_notMem (not_live he)]
  have hother : ∀ e' ∈ liveGuests k, (k.setEnv e v).envs e' = k.envs e' := fun e' he' =>
    setEnv_of_ne (by rintro rfl; exact not_live he he')
  have hstatus := setEnv_congr Env.envStatus (hv.trans he.symm)
  have hroots : guestRoots (k.setEnv e v) = guestRoots k := by
    rw [guestRoots, hlive]
    exact image_congr fun e' he' => congrArg Env.root (hother e' he')
  have hstructs : structs (k.setEnv e v) = structs k := by
    funext p
    rw [structs, hlive]
    exact sum_congr rfl fun e' he' => congrArg (fun v => v.owed p) (hother e' he')
  exact
    { acct := by rw [hroots, hstructs]; exact h.acct
      guest := fun e' he' => by
        rw [hlive] at he'
        rw [hother e' he']
        exact h.guest e' he'
      apart := fun e' he' => by
        rw [hlive] at he'
        rw [hother e' he']
        exact h.apart e' he'
      inj := fun e1 h1 e2 h2 => by
        rw [hlive] at h1 h2
        rw [hother e1 h1, hother e2 h2]
        exact h.inj e1 h1 e2 h2
      sized := fun e' hs => by
        rw [hstatus] at hs
        rw [setEnv_of_ne (by rintro rfl; exact hs he)]
        exact h.sized e' hs
      cur := fun e' he' => by
        rw [hstatus]
        exact h.cur e' he'
      free := by
        simp only [hstatus, links_setEnv, hl, Function.update_eq_self]
        exact h.free }

/-- The head of the environment list becomes a guest. -/
def Kernel.adopt (k : Kernel) (e : EnvIx) (v : Env) (n : BitVec 32) : Kernel :=
  { k.setEnv e v with envFreeList := v.envLink, vcpuCount := n }

theorem Kernel.adopt_eq {n : BitVec 32} :
    { k.setEnv e v with
      vcpuCount := n
      envFreeList := ((k.setEnv e v).envs e).envLink } = k.adopt e v n := by
  rw [setEnv_self]
  rfl

/-- **The first free environment becomes a guest** with the new root of the layout. -/
theorem KInv.adopt (h : KInv H k) (hfree : k.envFreeList = some e) (hv : v.IsLiveGuest)
    (hl : v.envLink = (k.envs e).envLink) (hnp : s'.npages = k.pm.npages)
    (hg : GuestEnv v k.pm.npages) (hroot : v.root ∉ (forest H (guestRoots k)).roots)
    (hacct : ∃ A extra L, Acct (forestReading H) ((forest H (guestRoots k)).plant v.root) A extra
      s' L ∧ ∀ p, v.owed p + structs k p ≤ extra p) (n : BitVec 32) :
    KInv H ((k.withPm s').adopt e v n) := by
  obtain ⟨l, hchain, hlfree⟩ := h.free
  obtain ⟨l', rfl⟩ : ∃ l', l = e :: l' := by
    cases l with
    | nil => rw [Chain, hfree] at hchain; cases hchain
    | cons e' l' => exact ⟨l', by rw [Option.some.inj (hchain.1.symm.trans hfree)]⟩
  have he : e ∉ liveGuests k := not_live (hlfree e (List.mem_cons_self ..))
  have hel : e ∉ l' := (List.nodup_cons.mp hchain.nodup).1
  have hlive : liveGuests ((k.withPm s').adopt e v n) = insert e (liveGuests k) :=
    liveGuests_setEnv (k := k.withPm s') hv
  have hat : ((k.withPm s').adopt e v n).envs e = v := setEnv_self
  have hoff : ∀ {e'}, e' ≠ e → ((k.withPm s').adopt e v n).envs e' = k.envs e' := setEnv_of_ne
  have hne : ∀ e' ∈ liveGuests k, e' ≠ e := fun e' he' => by rintro rfl; exact he he'
  have hapart : v.root ∉ H.roots := fun hr => hroot (mem_union_left (guestRoots k) hr)
  -- the new root is none of the old ones
  have hnew : ∀ e' ∈ liveGuests k, v.root ≠ (k.envs e').root := fun e' he' hr =>
    hroot (mem_union_right _ (hr ▸ mem_image_of_mem _ he'))
  exact
    { acct := by
        obtain ⟨A, extra, L, hA, hm⟩ := hacct
        refine ⟨A, extra, L, ?_, fun p => ?_⟩
        · rw [show guestRoots ((k.withPm s').adopt e v n) = insert v.root (guestRoots k) from
            guestRoots_insert (k := k.withPm s') he hv, ← forest_plant]
          exact hA
        · rw [show structs ((k.withPm s').adopt e v n) p = v.owed p + structs k p from
            structs_insert (k := k.withPm s') he hv p]
          exact hm p
      guest := fun e' he' => by
        show GuestEnv _ s'.npages
        rw [hnp]
        rcases Finset.mem_insert.mp (hlive ▸ he') with rfl | he'
        · rwa [hat]
        · rw [hoff (hne e' he')]
          exact h.guest e' he'
      apart := fun e' he' => by
        rcases Finset.mem_insert.mp (hlive ▸ he') with rfl | he'
        · rwa [hat]
        · rw [hoff (hne e' he')]
          exact h.apart e' he'
      inj := fun e1 h1 e2 h2 => by
        rcases Finset.mem_insert.mp (hlive ▸ h1) with rfl | l₁ <;>
          rcases Finset.mem_insert.mp (hlive ▸ h2) with rfl | l₂
        · exact fun _ => rfl
        · rw [hat, hoff (hne e2 l₂)]
          exact fun hr => absurd hr (hnew e2 l₂)
        · rw [hat, hoff (hne e1 l₁)]
          exact fun hr => absurd hr.symm (hnew e1 l₁)
        · rw [hoff (hne e1 l₁), hoff (hne e2 l₂)]
          exact h.inj e1 l₁ e2 l₂
      sized := fun e' hs ht => by
        have hne : e' ≠ e := by
          rintro rfl
          rw [hat] at ht
          exact ht hv.2
        rw [hoff hne] at hs ht ⊢
        exact h.sized e' hs ht
      cur := fun e' he' => by
        by_cases hne : e' = e
        · subst hne
          rw [hat]
          exact hv.1
        · rw [hoff hne]
          exact h.cur e' he'
      free := by
        refine ⟨l', ?_, fun e' he' => ?_⟩
        · show Chain (fun e' => (((k.withPm s').setEnv e v).envs e').envLink) v.envLink l'
          rw [links_setEnv, hl]
          exact (Function.update_eq_self e (fun e' => (k.envs e').envLink)).symm ▸ hchain.2
        · rw [hoff (by rintro rfl; exact hel he')]
          exact hlfree e' (List.mem_cons_of_mem e he') }

/-- The environment that `env_guest_alloc` completes. -/
def Env.asGuest (v : Env) (e : EnvIx) (parentId : EnvId) (vcpu : BitVec 32) : Env :=
  { v with
    envId := newEnvId v.envId e
    envParentId := parentId
    envType := .guest
    envStatus := .runnable
    envRuns := 0
    envVmxinfo.vcpunum := vcpu
    envTf := {}
    envPgfaultUpcall := 0
    envIpcRecving := false }

/-- The pages of a new guest, as its environment records them. -/
theorem withGuestPages_spec (v : Env) (e : EnvIx) (parentId : EnvId) (vcpu : BitVec 32) (p : Nat)
    {n q r a b : Nat} (hlt : ∀ x ∈ [q, r, a, b], x < n) :
    GuestEnv (((v.withGuestPages p q r a b)).asGuest e parentId vcpu) n ∧
    ((v.withGuestPages p q r a b).asGuest e parentId vcpu).root = p ∧
    ((v.withGuestPages p q r a b).asGuest e parentId vcpu).vmcsPage = q ∧
    ((v.withGuestPages p q r a b).asGuest e parentId vcpu).held = [q, r, a, b] := by
  have hroot : ((v.withGuestPages p q r a b).asGuest e parentId vcpu).root = p := pageOf_some p
  have hheld : ((v.withGuestPages p q r a b).asGuest e parentId vcpu).held = [q, r, a, b] := by
    show [pageOf (some (q * 512)), pageOf (some (r * 512)), pageOf (some (a * 512)),
      pageOf (some (b * 512))] = _
    simp only [pageOf_some]
  refine ⟨⟨by rw [hroot]; rfl, by rw [hroot]; rfl, fun o ho => ?_, by rwa [hheld]⟩, hroot,
    pageOf_some q, hheld⟩
  have ho' : o ∈ [some (q * 512), some (r * 512), some (a * 512), some (b * 512)] := ho
  simp only [List.mem_cons, List.not_mem_nil, or_false] at ho'
  rcases ho' with rfl | rfl | rfl | rfl <;> rw [pageOf_some]

theorem KInv.head_free (h : KInv H k) (hfree : k.envFreeList = some e) :
    (k.envs e).envStatus = .free := by
  obtain ⟨l, hl, hl'⟩ := h.free
  cases l with
  | nil => rw [Chain, hfree] at hl; cases hl
  | cons e' l' =>
    obtain rfl : e = e' := Option.some.inj (hfree.symm.trans hl.1)
    exact hl' e (List.mem_cons_self ..)

/-- **What `env_guest_alloc` does**: it fails, with the pages it had released again, or makes the
first free environment a guest.  The pages of the guest come off the free list in order, and the
page of its VMCS is counted twice. -/
theorem envGuestAlloc_spec {parentId : EnvId} {res : Except Err EnvIx} {R : Reading Nat}
    {F : Layout 512} {A : Finset Nat} {extra m : Nat → Nat} {L : List Nat}
    (h : Acct R F A extra k.pm L) (hm : ∀ p, m p ≤ extra p)
    (hrun : (envGuestAlloc parentId).run k = .ok (res, k')) :
    (∃ err, res = .error err ∧ (k' = k ∨ ∃ e v, k.envFreeList = some e ∧
      v.envStatus = (k.envs e).envStatus ∧ v.envLink = (k.envs e).envLink ∧
      GaveUp R F m k k' k.pm e v)) ∨
    ∃ e v r a b n s' extra' L', res = .ok e ∧ k.envFreeList = some e ∧
      k' = (k.withPm s').adopt e v n ∧ v.IsLiveGuest ∧ v.envLink = (k.envs e).envLink ∧
      GuestEnv v k.pm.npages ∧ v.held = [v.vmcsPage, r, a, b] ∧
      L = v.root :: v.vmcsPage :: r :: a :: b :: L' ∧ s'.npages = k.pm.npages ∧
      v.root ∉ F.roots ∧ s'.ppRef v.vmcsPage = 2#16 ∧ Acct R (F.plant v.root) A extra' s' L' ∧
      ∀ p, v.owed p + m p ≤ extra' p := by
  rw [envGuestAlloc, bind_get] at hrun
  cases hfree : k.envFreeList with
  | none =>
    rw [hfree] at hrun
    cases hrun
    exact .inl ⟨_, rfl, .inl rfl⟩
  | some e =>
    rw [hfree] at hrun
    dsimp only at hrun
    rw [bind_ok (modifyEnv_run _)] at hrun
    -- the old `env_vmxinfo` is cleared
    obtain ⟨k₀, hk0⟩ : ∃ k₀, k.setEnv e { k.envs e with envVmxinfo := {} } = k₀ := ⟨_, rfl⟩
    have hset : ∀ s v, (k₀.withPm s).setEnv e v = (k.withPm s).setEnv e v := fun s v => by
      rw [← hk0, setEnv_withPm, setEnv_setEnv]
    have hat : k₀.envs e = { k.envs e with envVmxinfo := {} } := hk0 ▸ setEnv_self
    have h0 : Acct R F A extra k₀.pm L := hk0 ▸ h
    have hnp0 : k₀.pm.npages = k.pm.npages := hk0 ▸ rfl
    rw [hk0] at hrun
    obtain ⟨r, k₁, hk1, hrun1⟩ := bind_inv hrun
    obtain ⟨rfl, pml4e, cr3, info, s', A', extra', L', rfl, hnp, h', hm'⟩ |
      ⟨rfl, p, q, r, a, b, s', extra', L', rfl, rfl, hnp, hp, href, h', hm'⟩ :=
      guestPages_spec h0 hm hk1
    · -- out of pages
      cases hrun1
      exact .inl ⟨_, rfl, .inr ⟨e, _, rfl, by rw [hat], by rw [hat], s', A', extra', L',
        hset s' _, hnp.trans hnp0, h', hm'⟩⟩
    · dsimp only at hrun1
      rw [bind_ok (a := (k₀.withPm s').setEnv e _) (u := (k₀.withPm s').setEnv e _) rfl,
        bind_ok (modifyEnv_run _), setEnv_setEnv, setEnv_self, hset] at hrun1
      obtain ⟨hg, hroot, hvmcs, hheld⟩ := withGuestPages_spec (k₀.envs e) e parentId
        ((k₀.withPm s').setEnv e ((k₀.envs e).withGuestPages p q r a b)).vcpuCount p
        (n := k.pm.npages) fun x hx => hnp0 ▸ h0.lt x (List.mem_cons_of_mem p
          (List.mem_append_left L' hx))
      cases hrun1
      refine .inr ⟨e, ((k₀.envs e).withGuestPages p q r a b).asGuest e parentId _, r, a, b,
        k.vcpuCount + 1, s', extra', L', rfl, rfl, ?_, ⟨nofun, rfl⟩, ?_, hg, ?_⟩
      · exact adopt_eq
      · show (k₀.envs e).envLink = _
        rw [hat]
      · rw [hroot, hvmcs]
        refine ⟨hheld, rfl, hnp.trans hnp0, hp, href, h', fun x => ?_⟩
        rw [Env.owed, hheld, hvmcs]
        exact hm' x

/-- **`env_guest_alloc`** keeps the invariant. -/
theorem KInv.alloc {parentId : EnvId} {res : Except Err EnvIx} (h : KInv H k)
    (hrun : (envGuestAlloc parentId).run k = .ok (res, k')) : KInv H k' := by
  obtain ⟨A, extra, L, hA, hm⟩ := h.acct
  obtain ⟨err, -, rfl | ⟨e, v, hfree, hstat, hl, s', A', extra', L', rfl, hnp, h', hm'⟩⟩ |
    ⟨e, v, r, a, b, n, s', extra', L', -, hfree, rfl, hv, hl, hg, -, -, hnp, hroot, -, h', hm'⟩ :=
    envGuestAlloc_spec hA hm hrun
  · exact h
  · exact (h.withPm hnp ⟨A', extra', L', h', hm'⟩).scratch (h.head_free hfree)
      (hstat.trans (h.head_free hfree)) hl
  · exact h.adopt hfree hv hl hnp hg hroot ⟨A, extra', L', h', hm'⟩ n

/-! ### Destruction -/

theorem ofNat_page {p : Nat} (hp : p < 2 ^ 52) :
    BitVec.ofNat 64 (8 * (p * 512)) = page2pa p := BitVec.eq_of_toNat_eq (by
  rw [page2pa_toNat hp, BitVec.toNat_ofNat]
  omega)

theorem decrefKva_run {p : Nat} (hp : p < s.npages) :
    (decrefKva (some (p * 512))).run s = .ok ((), s.decref p) := by
  have hppn := ppn_page2pa (lt_two_pow_52 hp)
  rw [decrefKva, bind_ok (a := page2pa p) (u := s)
      (by rw [← ofNat_page (lt_two_pow_52 hp)]; rfl),
    bind_ok (pa2page_run (by rwa [hppn])), hppn, pageDecref_run]

/-- **The pages of a guest are released** one reference after the other. -/
theorem releaseGuest_run (hv : GuestEnv v s.npages) (hf : Freeable s.mem s.npages 3 v.root) :
    (releaseGuest v).run s = .ok ((), s.decrefAll
      (v.held ++ (visited 512 dec eptDec s.mem 3 v.root ++ [v.root]))) := by
  have hroot : v.root < s.npages := hf.table_lt [] _ (Nat.zero_le _) rfl
  have hppn := ppn_page2pa (lt_two_pow_52 hroot)
  have one_page : ∀ {o : Option Ptr} {s1 : Pmap}, o ∈ v.heldPtrs → s1.npages = s.npages →
      (decrefKva o).run s1 = .ok ((), s1.decref (pageOf o)) := fun {o s1} ho hnp => by
    conv_lhs => rw [hv.ptrs o ho]
    exact decrefKva_run (hnp ▸ hv.lt _ (List.mem_map_of_mem ho))
  have hfree : ∀ {s1 : Pmap}, s1.mem = s.mem → s1.npages = s.npages →
      (freeGuestMem (v.root * 512)).run s1 =
        .ok ((), s1.decrefAll (visited 512 dec eptDec s.mem 3 v.root)) := fun hm hn =>
    freeEptLevel_run hf hm hn
  have hheld : s.decrefAll v.held = (((s.decref (pageOf v.envVmxinfo.vmcs)).decref
      (pageOf v.envVmxinfo.msrHostArea)).decref (pageOf v.envVmxinfo.ioBmapA)).decref
      (pageOf v.envVmxinfo.ioBmapB) := rfl
  rw [releaseGuest, bind_ok (one_page (by simp [Env.heldPtrs]) rfl),
    bind_ok (one_page (by simp [Env.heldPtrs]) (by simp)),
    bind_ok (one_page (by simp [Env.heldPtrs]) (by simp)),
    bind_ok (one_page (by simp [Env.heldPtrs]) (by simp)), hv.pml4e,
    bind_ok (a := v.root * 512) rfl, bind_ok (hfree (by simp) (by simp)), hv.cr3,
    bind_ok (pa2page_run (by simpa [hppn] using hroot)), hppn, pageDecref_run,
    decrefAll_append, decrefAll_append, decrefAll_singleton, hheld]

/-- The environment of a guest that has been freed. -/
def Env.freed (v : Env) (link : Option EnvIx) : Env :=
  { v with envPml4e := none, envCr3 := 0, envStatus := .free, envLink := link }

/-- The kernel after a guest has been freed, with memory `s'`. -/
def Kernel.released (k : Kernel) (e : EnvIx) (s' : Pmap) : Kernel :=
  { (k.withPm s').setEnv e ((k.envs e).freed k.envFreeList) with envFreeList := some e }

theorem envGuestFree_run (h : (releaseGuest (k.envs e)).run k.pm = .ok ((), s')) :
    (envGuestFree e).run k = .ok ((), k.released e s') := by
  rw [envGuestFree, bind_ok getEnv_run, bind_ok (onPmap_ok h), bind_ok (modifyEnv_run _),
    releaseEnv, bind_get, bind_ok (modifyEnv_run _), setEnv_setEnv, setEnv_self]
  rfl

/-- **`env_guest_free`** gives up every reference the guest holds, but for one to its VMCS. -/
theorem KInv.release (h : KInv H k) (he : e ∈ liveGuests k) :
    ∃ s' A' extra' L', (envGuestFree e).run k = .ok ((), k.released e s') ∧
      s'.npages = k.pm.npages ∧
      Acct (forestReading H) (forest H (guestRoots (k.released e s'))) A' extra' s' L' ∧
      ∀ p, structs (k.released e s') p + one ((k.envs e).vmcsPage = p) ≤ extra' p := by
  have hnv : ¬ ((k.envs e).freed k.envFreeList).IsLiveGuest := fun hg => hg.1 rfl
  obtain ⟨A, extra, L, hA, hm⟩ := h.acct
  have hG := h.eptRoot he
  have hrun := releaseGuest_run (h.guest e he) (hA.freeable hG)
  obtain ⟨A', extra', L', h', hm'⟩ := hA.teardown (k.envs e).held
    (m := fun p => structs (k.setEnv e ((k.envs e).freed k.envFreeList)) p +
      one ((k.envs e).vmcsPage = p)) hG (h.guest e he).lt fun p => by
    have h1 := hm p
    rw [structs_erase he hnv, Env.owed] at h1
    omega
  have hnp : (k.pm.decrefAll ((k.envs e).held ++
      (visited 512 dec eptDec k.pm.mem 3 (k.envs e).root ++ [(k.envs e).root]))).npages =
      k.pm.npages := decrefAll_npages
  generalize k.pm.decrefAll _ = s' at hrun h' hnp
  refine ⟨s', A', extra', L', envGuestFree_run hrun, hnp, ?_, hm'⟩
  rw [show guestRoots (k.released e s') = (guestRoots k).erase (k.envs e).root from
    h.guestRoots_erase he hnv, ← forest_prune (h.apart e he)]
  exact h'

theorem Kernel.leave_envs (k : Kernel) (e : EnvIx) : (k.leave e).envs = k.envs := by
  unfold leave; split <;> rfl

theorem Kernel.leave_pm (k : Kernel) (e : EnvIx) : (k.leave e).pm = k.pm := by
  unfold leave; split <;> rfl

theorem Kernel.leave_envFreeList (k : Kernel) (e : EnvIx) :
    (k.leave e).envFreeList = k.envFreeList := by
  unfold leave; split <;> rfl

theorem Kernel.leave_curenv {k : Kernel} {e e' : EnvIx} (h : (k.leave e).curenv = some e') :
    e' ≠ e ∧ k.curenv = some e' := by
  unfold leave at h
  split at h
  · cases h
  · rename_i hc
    exact ⟨by rintro rfl; exact hc h, h⟩

/-- **A guest is freed**, and is no longer the current environment. -/
theorem KInv.free_guest (h : KInv H k) (he : e ∈ liveGuests k)
    (hrun : (envGuestFree e).run k = .ok ((), k')) : KInv H (k'.leave e) := by
  obtain ⟨s', A', extra', L', hrun', hnp, hA, hm⟩ := h.release he
  cases hrun'.symm.trans hrun
  have hnv : ¬ ((k.envs e).freed k.envFreeList).IsLiveGuest := fun hg => hg.1 rfl
  have hat : (k.released e s').envs e = (k.envs e).freed k.envFreeList := setEnv_self
  have hoff : ∀ {e'}, e' ≠ e → (k.released e s').envs e' = k.envs e' := setEnv_of_ne
  have hlive : liveGuests ((k.released e s').leave e) = (liveGuests k).erase e := by
    rw [← show liveGuests (k.released e s') = (liveGuests k).erase e from
      liveGuests_setEnv_of_not hnv]
    unfold liveGuests
    rw [leave_envs]
  have hstructs : structs ((k.released e s').leave e) = structs (k.released e s') := by
    unfold structs liveGuests
    rw [leave_envs]
  have hroots : guestRoots ((k.released e s').leave e) = guestRoots (k.released e s') := by
    unfold guestRoots liveGuests
    rw [leave_envs]
  exact
    { acct := by
        rw [leave_pm, hroots, hstructs]
        exact ⟨A', extra', L', hA, fun p => Nat.le_trans (Nat.le_add_right ..) (hm p)⟩
      guest := fun e' he' => by
        obtain ⟨hne, he'⟩ := Finset.mem_erase.mp (hlive ▸ he')
        rw [leave_pm, leave_envs, hoff hne]
        show GuestEnv _ s'.npages
        rw [hnp]
        exact h.guest e' he'
      apart := fun e' he' => by
        obtain ⟨hne, he'⟩ := Finset.mem_erase.mp (hlive ▸ he')
        rw [leave_envs, hoff hne]
        exact h.apart e' he'
      inj := fun e1 h1 e2 h2 => by
        obtain ⟨n1, h1⟩ := Finset.mem_erase.mp (hlive ▸ h1)
        obtain ⟨n2, h2⟩ := Finset.mem_erase.mp (hlive ▸ h2)
        rw [leave_envs, hoff n1, hoff n2]
        exact h.inj e1 h1 e2 h2
      sized := fun e' hs => by
        rw [leave_envs] at hs ⊢
        have hne : e' ≠ e := by
          rintro rfl
          rw [hat] at hs
          exact hs rfl
        rw [hoff hne] at hs ⊢
        exact h.sized e' hs
      cur := fun e' he' => by
        obtain ⟨hne, he'⟩ := leave_curenv he'
        rw [leave_envs, hoff hne]
        exact h.cur e' he'
      free := by
        obtain ⟨l, hl, hlf⟩ := h.free
        have hel : e ∉ l := fun hel => (mem_liveGuests.mp he).1 (hlf e hel)
        refine ⟨e :: l, ?_, fun e' he' => ?_⟩
        · rw [leave_envFreeList, leave_envs]
          show Chain (fun e' => (((k.withPm s').setEnv e _).envs e').envLink) (some e) _
          rw [links_setEnv]
          exact hl.push hel
        · rw [leave_envs]
          rcases List.mem_cons.mp he' with rfl | hl'
          · rw [hat]
            rfl
          · rw [hoff (by rintro rfl; exact hel hl')]
            exact hlf e' hl' }

end JosVmm
