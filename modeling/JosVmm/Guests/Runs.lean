import JosVmm.Guests.Life
import JosVmm.Machine.Boot

/-!
# Guests — runs

The kernel as it creates, serves and destroys guests: any number of them, in any order, with
whatever the guests do in between.  A step is one operation (`GuestOp`); `GuestReach C` are the
runs whose steps all meet the condition `C`.

Runs are `Tame` when every insertion stays in its own tables, when the CGA page is mapped only
with a reference to spare, and when `sys_ept_map` shares pages that are counted.  Tame runs keep
the invariant (`KInv.step`), so no page that a live guest can reach is free
(`guestPages_not_free`), none of its tables is (`guestTables_not_free`), and a page that two guests
have is counted twice (`guestPages_exclusive`).  Without the second condition a guest's page may be
free (`cgaPage_freed`).
-/

namespace JosVmm
open Support Support.Radix Support.Prog Support.Counting

/-- What the kernel does for guests. -/
inductive GuestOp where
  | alloc (parentId : EnvId)
  /-- The rest of `sys_env_mkguest`. -/
  | configure (e : EnvIx) (gphysz gRIP : Word)
  /-- An EPT violation of the guest `e`, at the address the current VMCS gives. -/
  | eptViolation (e : EnvIx)
  | mbmap (e : EnvIx) (stack : Fin 13 → BitVec 32)
  | eptMap (srcenvid : EnvId) (srcva : Word) (guest : EnvId) (guestPa : Word) (perm : BitVec 32)
  | free (e : EnvIx)
  /-- The environment `e` runs for a while, and leaves the processor in the state `cpu`. -/
  | resume (e : EnvIx) (cpu : Cpu)

namespace GuestOp

def exec : GuestOp → Km Unit
  | alloc parentId => do
    let _ ← envGuestAlloc parentId
    return ()
  | configure e gphysz gRIP => configureGuest e gphysz gRIP
  | eptViolation e => do
    let v ← getEnv e
    let _ ← handleEptviolation v.envPml4e v.envVmxinfo
    return ()
  | mbmap e stack => do
    let _ ← vmcallMbmap stack e
    return ()
  | eptMap srcenvid srcva guest guestPa perm => do
    let _ ← sysEptMap srcenvid srcva guest guestPa perm
    return ()
  | free e => do
    envGuestFree e
    modify fun k => k.leave e
  | resume e cpu => modify fun k => { k with curenv := some e, cpu := cpu }

/-- Exits come from live guests, and live environments run. -/
def Enabled (k : Kernel) : GuestOp → Prop
  | alloc _ => True
  | configure e _ _ => e ∈ liveGuests k
  | eptViolation e => e ∈ liveGuests k
  | mbmap e _ => e ∈ liveGuests k
  | eptMap .. => True
  | free e => e ∈ liveGuests k
  | resume e _ => (k.envs e).envStatus ≠ .free

instance (k : Kernel) : ∀ op : GuestOp, Decidable (op.Enabled k)
  | alloc _ => inferInstanceAs (Decidable True)
  | configure .. => decidable_of_iff _ mem_liveGuests.symm
  | eptViolation _ => decidable_of_iff _ mem_liveGuests.symm
  | mbmap _ _ => decidable_of_iff _ mem_liveGuests.symm
  | eptMap .. => inferInstanceAs (Decidable True)
  | free _ => decidable_of_iff _ mem_liveGuests.symm
  | resume _ _ => inferInstanceAs (Decidable (_ ≠ _))

end GuestOp

/-- Runs whose operations all meet the condition `C`. -/
def GuestReach (C : Kernel → GuestOp → Prop) : Kernel → Kernel → Prop :=
  Reach GuestOp.exec fun k op => op.Enabled k ∧ C k op

noncomputable section

/-- How many references to the page `p` are in use. -/
def uses (H : Layout 512) (k : Kernel) (p : Nat) : Nat :=
  leaves (forestReading H) (forest H (guestRoots k)) k.pm p +
    tables (forest H (guestRoots k)) k.pm p + structs k p

/-- The guest `e` may map the CGA page: it maps it already, or a reference to it is to spare. -/
def CgaSpare (H : Layout 512) (k : Kernel) (e : EnvIx) : Prop :=
  view (forestReading H) (forest H (guestRoots k)) k.pm (k.envs e).root (doubled cgaBuf) =
    some cgaPage ∨ uses H k cgaPage < (k.pm.ppRef cgaPage).toNat

/-- The condition under which an operation keeps the account. -/
def Tame (H : Layout 512) (k : Kernel) : GuestOp → Prop
  | .eptViolation e => ∀ gpa, (vmcsRead64 .guestPhysicalAddr).run k = .ok (gpa, k) →
      InTables gpa ∧ (cgaBuf ≤ gpa → gpa < cgaBuf + 4096#64 → CgaSpare H k e)
  | .eptMap srcenvid srcva _ guestPa perm => InTables guestPa ∧
      ∀ e map pte, (envid2env srcenvid true).run k = .ok (.ok (some e), k) →
        (pageLookup (k.envs e).envPml4e srcva).run k.pm = .ok (some (map, pte), k.pm) →
        Shareable k.pm map perm
  | _ => True

end

variable {H : Layout 512} {k k' : Kernel} {e : EnvIx} {L : List Nat} {s : Pmap}

/-! ### Steps -/

/-- **`sys_ept_map`** finds its target alive, and the target is a guest. -/
theorem KInv.eptMap_target {guest : EnvId} {guestPa : Word} {g : EnvIx} (h : KInv H k)
    (hg : (envid2env guest true).run k = .ok (.ok (some g), k))
    (hsz : ¬ (k.envs g).envVmxinfo.physSz ≤ guestPa) : g ∈ liveGuests k := by
  have hlive : (k.envs g).envStatus ≠ .free :=
    ((envid2env_eq_ok hg).2 g rfl).elim (h.cur g) id
  refine mem_liveGuests.mpr ⟨hlive, ?_⟩
  by_contra ht
  rw [h.sized g hlive ht] at hsz
  exact hsz (BitVec.le_def.mpr (Nat.zero_le _))

/-- A reference to spare is one held elsewhere. -/
theorem spare_of_uses {A : Finset Nat} {extra : Nat → Nat} {p : Nat}
    (h : Acct (forestReading H) (forest H (guestRoots k)) A extra k.pm L)
    (hp : uses H k p < (k.pm.ppRef p).toNat) : p ∉ A ∧ structs k p < extra p := by
  have hA : p ∉ A := fun hA => by
    rw [(h.anon p hA).2.1] at hp
    exact Nat.not_lt_zero _ hp
  have := h.exact p hA
  rw [uses] at hp
  exact ⟨hA, by omega⟩

section

variable (h : KInv H k)
include h

theorem KInv.resume (he : (k.envs e).envStatus ≠ .free) (cpu : Cpu) :
    KInv H { k with curenv := some e, cpu := cpu } :=
  { h with cur := fun e' he' => by cases he'; exact he }

theorem KInv.eptViolation (he : e ∈ liveGuests k) (ht : Tame H k (.eptViolation e)) {b : Bool}
    (hrun : (handleEptviolation (k.envs e).envPml4e (k.envs e).envVmxinfo).run k = .ok (b, k')) :
    KInv H k' := by
  obtain ⟨A, extra, L, hA, hm⟩ := h.acct
  rw [handleEptviolation] at hrun
  obtain ⟨gpa, k₁, hgpa, hrun1⟩ := bind_inv hrun
  obtain rfl := vmcsRead64_eq_ok hgpa
  obtain ⟨hx, hcga⟩ := ht gpa hgpa
  obtain ⟨s', hs', rfl⟩ := onPmap_eq_ok hrun1
  rw [(h.guest e he).pml4e] at hs'
  obtain ⟨A', extra', L', h', hm', hnp⟩ := hA.eptFault (h.eptRoot he) hm hx
    (fun h1 h2 => (hcga h1 h2).imp_right (spare_of_uses hA)) hs'
  exact h.withPm hnp ⟨A', extra', L', h', hm'⟩

theorem KInv.mbmap (he : e ∈ liveGuests k) {stack : Fin 13 → BitVec 32} {b : Bool}
    (hrun : (vmcallMbmap stack e).run k = .ok (b, k')) : KInv H k' := by
  obtain ⟨A, extra, L, hA, hm⟩ := h.acct
  rw [vmcallMbmap, bind_ok getEnv_run] at hrun
  obtain ⟨handled, k₁, hk1, hrun1⟩ := bind_inv hrun
  obtain ⟨s', hs', rfl⟩ := onPmap_eq_ok hk1
  rw [(h.guest e he).pml4e] at hs'
  obtain ⟨A', extra', L', h', hm', hnp⟩ := hA.mbmap (h.eptRoot he) hm hs'
  have h1 := h.withPm hnp ⟨A', extra', L', h', hm'⟩
  cases handled with
  | false =>
    cases hrun1
    exact h1
  | true =>
    cases hrun1
    exact h1.touch he ⟨mem_liveGuests.mp he, rfl, rfl, rfl, rfl⟩

theorem KInv.eptMap {srcenvid guest : EnvId} {srcva guestPa : Word} {perm : BitVec 32}
    {res : Except Err Unit} (ht : Tame H k (.eptMap srcenvid srcva guest guestPa perm))
    (hrun : (sysEptMap srcenvid srcva guest guestPa perm).run k = .ok (res, k')) : KInv H k' := by
  obtain ⟨A, extra, L, hA, hm⟩ := h.acct
  obtain ⟨rfl, -⟩ | ⟨src, g, s', hsrc, htgt, hchk, rfl, hs'⟩ := sysEptMap_eq_ok hrun
  · exact h
  · have hg := h.eptMap_target htgt fun hsz => hchk (.inr (.inr (.inr hsz)))
    obtain ⟨extra', L', h', hm', hnp, -⟩ := hA.eptMap (h.eptRoot hg) (h.guest g hg).pml4e hm ht.1
      (fun map pte => ht.2 src map pte hsrc) hs'
    exact h.withPm hnp ⟨A, extra', L', h', hm'⟩

/-- **One step keeps the invariant.** -/
theorem KInv.step {op : GuestOp} (hen : op.Enabled k) (ht : Tame H k op)
    (hrun : op.exec.run k = .ok ((), k')) : KInv H k' := by
  cases op with
  | alloc parentId =>
    obtain ⟨res, k₁, hk1, hrun1⟩ := bind_inv hrun
    cases hrun1
    exact h.alloc hk1
  | configure e gphysz gRIP =>
    cases hrun
    exact h.touch hen ⟨⟨nofun, (mem_liveGuests.mp hen).2⟩, rfl, rfl, rfl, rfl⟩
  | eptViolation e =>
    rw [GuestOp.exec, bind_ok getEnv_run] at hrun
    obtain ⟨b, k₁, hk1, hrun1⟩ := bind_inv hrun
    cases hrun1
    exact h.eptViolation hen ht hk1
  | mbmap e stack =>
    obtain ⟨b, k₁, hk1, hrun1⟩ := bind_inv hrun
    cases hrun1
    exact h.mbmap hen hk1
  | eptMap srcenvid srcva guest guestPa perm =>
    obtain ⟨res, k₁, hk1, hrun1⟩ := bind_inv hrun
    cases hrun1
    exact h.eptMap ht hk1
  | free e =>
    obtain ⟨_, k₁, hk1, hrun1⟩ := bind_inv hrun
    cases hrun1
    exact h.free_guest hen hk1
  | resume e cpu =>
    cases hrun
    exact h.resume hen cpu

theorem KInv.reach (hr : GuestReach (Tame H) k k') : KInv H k' :=
  invariant (fun _ _ h ⟨_, hC, hrun⟩ => h.step hC.1 hC.2 hrun) h hr

end

/-! ### Guest memory is not free -/

/-- A state without guests: every environment that is not free is another one's. -/
structure Quiet (k : Kernel) : Prop where
  pages : ∃ L, FreeList k.pm L
  users : ∀ e, (k.envs e).envStatus ≠ .free → (k.envs e).envType ≠ .guest
  sized : ∀ e, (k.envs e).envStatus ≠ .free → (k.envs e).envVmxinfo.physSz = 0
  cur : ∀ e, k.curenv = some e → (k.envs e).envStatus ≠ .free
  free : ∃ l, Chain (fun e => (k.envs e).envLink) k.envFreeList l ∧
    ∀ e ∈ l, (k.envs e).envStatus = .free

/-- No host tables: their entries count as references held elsewhere. -/
def noHost : Layout 512 := ⟨3, ∅, fun _ _ => True⟩

theorem Quiet.no_guests (h : Quiet k) : liveGuests k = ∅ :=
  Finset.filter_eq_empty_iff.mpr fun e _ hl => h.users e hl.1 hl.2

/-- Where no tables are looked at, every count is held elsewhere. -/
theorem FreeList.acct (hL : FreeList s L) :
    ∃ A extra, Acct (forestReading noHost) (forest noHost ∅) A extra s L := by
  have hF : (forest noHost ∅).roots = ∅ := by simp [forest, noHost]
  exact ⟨_, _, (hL.acct_empty rfl hF).2⟩

/-- Without guests, an account of the host tables is one of all tables. -/
theorem Quiet.kInv_of {A : Finset Nat} {extra : Nat → Nat} (h : Quiet k)
    (hA : Acct (forestReading H) (forest H ∅) A extra k.pm L) : KInv H k := by
  have hroots : guestRoots k = ∅ := by rw [guestRoots, h.no_guests, Finset.image_empty]
  refine ⟨⟨A, extra, L, hroots ▸ hA, fun p => ?_⟩, ?_, ?_, ?_, fun e he _ => h.sized e he, h.cur,
    h.free⟩
  · rw [structs, h.no_guests, Finset.sum_empty]
    exact Nat.zero_le _
  all_goals
    rw [h.no_guests]
    intro e he
    exact absurd he (Finset.notMem_empty e)

theorem Quiet.kInv (h : Quiet k) : KInv noHost k := by
  obtain ⟨L, hL⟩ := h.pages
  obtain ⟨A, extra, hA⟩ := hL.acct
  exact h.kInv_of hA

theorem Quiet.withPm (h : Quiet k) (hL : FreeList s L) : Quiet (k.withPm s) :=
  { h with pages := ⟨L, hL⟩ }

/-- The page `p` is on `page_free_list`. -/
def OnFreeList (s : Pmap) (p : Nat) : Prop := Reaches s.ppLink s.pageFreeList p

/-- What a guest address translates to is an entry of the guest's view. -/
theorem KInv.view_of_translate (h : KInv H k) (he : e ∈ liveGuests k) {gpa w : Word}
    (hw : eptTranslate k.pm (k.envs e).root gpa = some w) :
    view (forestReading H) (forest H (guestRoots k)) k.pm (k.envs e).root (vpn gpa) =
      some (ppn (epteAddr w)) := by
  obtain ⟨A, extra, L, hA, -⟩ := h.acct
  have hroot := h.eptRoot he
  have hn := hroot.node hA.toWf (vpn gpa).path_length.le
  rw [eptTranslate_eq hA.toWf hn] at hw
  obtain ⟨u, hu, hp⟩ := Option.bind_eq_some_iff.mp hw
  rw [view_of_tab hn hu, hroot.read]
  show eptDec (k.pm.mem (slot u (ptx gpa))) = _
  rw [eptDec, hp]
  rfl

/-- **No use after free.**  In every tame run from a state without guests, no page that a live
guest's EPT maps is on the free list. -/
theorem guestPages_not_free {k₀ : Kernel} {gpa w : Word} (h₀ : Quiet k₀)
    (hr : GuestReach (Tame noHost) k₀ k) (he : e ∈ liveGuests k)
    (hw : eptTranslate k.pm (k.envs e).root gpa = some w) :
    ¬ OnFreeList k.pm (ppn (epteAddr w)) := by
  have h := h₀.kInv.reach hr
  obtain ⟨A, extra, L, hA, -⟩ := h.acct
  intro hfree
  exact hA.not_mapped (hA.chain.mem_of_reaches hfree) (h.eptRoot he).root
    (h.view_of_translate he hw)

/-! ### From boot -/

/-- The kernel once `page_init` and `env_init` have run. -/
def bootKernel (b : BootInfo) (s : Pmap) (cpu : Cpu) : Kernel := envInit
  { pm := pageInit b s
    envs := fun _ => zeroEnv
    envFreeList := none
    curenv := none
    bootPml4e := b.nextfree * 512
    vcpuCount := 0
    vmdiskNumber := 0
    hostVector := 0
    portIortc := 0
    cpu := cpu }

/-- The links that `env_init` makes visit the slots in order. -/
theorem envInit_chain (k : Kernel) :
    ∃ l, Chain (fun e => ((envInit k).envs e).envLink) (envInit k).envFreeList l ∧
      l = List.finRange 1024 :=
  Chain.finRange (fun e => ((envInit k).envs e).envLink) (fun _ => rfl) (by decide)

section

variable (cpu : Cpu) (href : ∀ p, s.ppRef p = 0#16) (hlink : ∀ p, s.ppLink p = none)
  (hfree : s.pageFreeList = none)
include cpu href hlink hfree

theorem bootKernel_freeList {b : BootInfo} :
    FreeList (bootKernel b s cpu).pm (b.free s.npages) := by
  obtain ⟨last, h⟩ := pageInit_spec (b := b) href hlink hfree
  refine ⟨h.chain, h.unlinked, fun p hp => ?_, fun p hp => ?_⟩
  · exact h.npages ▸ (BootInfo.mem_free.mp hp).1
  · refine (h.ref p).trans (if_neg fun hc => ?_)
    rw [(BootInfo.mem_free.mp hp).2] at hc
    cases hc.2

theorem bootKernel_quiet {b : BootInfo} : Quiet (bootKernel b s cpu) := by
  obtain ⟨l, hl, -⟩ := envInit_chain (bootKernel b s cpu)
  have hstat : ∀ e, ((bootKernel b s cpu).envs e).envStatus = .free := fun _ => rfl
  exact ⟨⟨_, bootKernel_freeList cpu href hlink hfree⟩, fun e he => absurd (hstat e) he,
    fun e he => absurd (hstat e) he, nofun, ⟨l, hl, fun e _ => hstat e⟩⟩

end

/-- A machine with 512 pages: base memory ends at page 160, the kernel at page 320. -/
def smallMachine (cpu : Cpu) : Kernel := bootKernel ⟨160, 320, 300⟩
  { npages := 512
    npages_le := by decide
    mem := fun _ => 0
    ppRef := fun _ => 0
    ppLink := fun _ => none
    pageFreeList := none } cpu

theorem smallMachine_freeList (cpu : Cpu) :
    FreeList (smallMachine cpu).pm (BootInfo.free ⟨160, 320, 300⟩ 512) :=
  bootKernel_freeList cpu (fun _ => rfl) (fun _ => rfl) rfl

theorem smallMachine_mem (cpu : Cpu) : (smallMachine cpu).pm.mem = fun _ => 0 := by
  obtain ⟨last, h⟩ := pageInit_spec (b := ⟨160, 320, 300⟩) (s := ⟨512, by decide, fun _ => 0,
    fun _ => 0, fun _ => none, none⟩) (fun _ => rfl) (fun _ => rfl) rfl
  exact h.mem

theorem smallMachine_quiet (cpu : Cpu) : Quiet (smallMachine cpu) :=
  bootKernel_quiet cpu (fun _ => rfl) (fun _ => rfl) rfl

/-- A processor whose current VMCS, on page `p`, reports a fault at `gpa`. -/
def faultAt (p : Nat) (gpa : Word) : Cpu where
  cpuid _ := ⟨0, 0, 0x20#32, 0⟩
  msr _ := 0
  vmptr := some p
  vmcs _ := ⟨fun f => if f = .guestPhysicalAddr then gpa else 0, .launched⟩
  vmwrites := []

/-- Operations that share no page; a case of `Tame` that can be evaluated. -/
def Unshared (k : Kernel) : GuestOp → Prop
  | .eptViolation _ => Returns ((vmcsRead64 .guestPhysicalAddr).run k) fun gpa _ =>
    InTables gpa ∧ ¬ (cgaBuf ≤ gpa ∧ gpa < cgaBuf + 4096#64)
  | .eptMap .. => False
  | _ => True

instance (k : Kernel) : DecidablePred (Unshared k)
  | .alloc _ => inferInstanceAs (Decidable True)
  | .configure .. => inferInstanceAs (Decidable True)
  | .eptViolation _ => inferInstanceAs (Decidable (Returns _ _))
  | .mbmap _ _ => inferInstanceAs (Decidable True)
  | .eptMap .. => inferInstanceAs (Decidable False)
  | .free _ => inferInstanceAs (Decidable True)
  | .resume _ _ => inferInstanceAs (Decidable True)

theorem Unshared.tame {op : GuestOp} (h : Unshared k op) : Tame H k op := by
  cases op with
  | eptViolation e =>
    intro gpa hgpa
    rw [Unshared, hgpa] at h
    exact ⟨h.1, fun h1 h2 => absurd ⟨h1, h2⟩ h.2⟩
  | eptMap => exact h.elim
  | _ => trivial

/-- A guest whose only exit is a fault at address zero: its page is not free. -/
theorem guestPages_not_free_first : ∃ k, GuestReach (Tame noHost) (smallMachine (faultAt 2 0)) k ∧
    ∃ w, eptTranslate k.pm (k.envs 0).root 0 = some w ∧ ¬ OnFreeList k.pm (ppn (epteAddr w)) := by
  obtain ⟨k, hr, he, w, hw⟩ : ∃ k, GuestReach (Tame noHost) (smallMachine (faultAt 2 0)) k ∧
      0 ∈ liveGuests k ∧ ∃ w, eptTranslate k.pm (k.envs 0).root 0 = some w := by
    have hrun : Follows GuestOp.exec (fun k op => op.Enabled k ∧ Unshared k op)
        (fun k => (k.envs 0).IsLiveGuest ∧
          eptTranslate k.pm (k.envs 0).root 0 = some (eptLeaf 6 7#32))
        [.alloc 0, .eptViolation 0] (smallMachine (faultAt 2 0)) := by
      decide +kernel
    obtain ⟨k, hr, hlive, hw⟩ := hrun.reach
    exact ⟨k, hr.mono fun _ _ h => ⟨h.1, h.2.tame⟩, mem_liveGuests.mpr hlive, _, hw⟩
  exact ⟨k, hr, w, hw, guestPages_not_free (smallMachine_quiet _) hr he hw⟩

/-- **Two guests map the CGA page, and the teardown of the first frees it.** -/
theorem cgaPage_freed : Quiet (smallMachine (faultAt 2 cgaBuf)) ∧
    ∃ k, GuestReach (fun _ _ => True) (smallMachine (faultAt 2 cgaBuf)) k ∧ 1 ∈ liveGuests k ∧
      ∃ gpa w, eptTranslate k.pm (k.envs 1).root gpa = some w ∧
        OnFreeList k.pm (ppn (epteAddr w)) := by
  refine ⟨smallMachine_quiet _, ?_⟩
  have hrun : Follows GuestOp.exec (fun k op => op.Enabled k ∧ True)
      (fun k => (k.envs 1).IsLiveGuest ∧
        eptTranslate k.pm (k.envs 1).root 0x170000#64 = some (eptLeaf cgaPage 7#32) ∧
        k.pm.pageFreeList = some 1 ∧ k.pm.ppLink 1 = some 12 ∧ k.pm.ppLink 12 = some 13 ∧
        k.pm.ppLink 13 = some 14 ∧ k.pm.ppLink 14 = some cgaPage)
      [.alloc 0, .alloc 0, .eptViolation 0, .resume 1 (faultAt 8 cgaBuf), .eptViolation 1, .free 0]
      (smallMachine (faultAt 2 cgaBuf)) := by
    decide +kernel
  obtain ⟨k, hr, hlive, hw, h₀, h₁, h₁₂, h₁₃, h₁₄⟩ := hrun.reach
  have hfree : OnFreeList k.pm cgaPage := by
    rw [OnFreeList, h₀]
    refine .next ?_
    rw [h₁]
    refine .next ?_
    rw [h₁₂]
    refine .next ?_
    rw [h₁₃]
    refine .next ?_
    rw [h₁₄]
    exact .here _
  exact ⟨k, hr, mem_liveGuests.mpr hlive, 0x170000#64, _, hw, hfree⟩

/-! ### Pages of one guest only -/

section

variable {k₀ : Kernel} {e' : EnvIx} (h₀ : Quiet k₀) (hr : GuestReach (Tame noHost) k₀ k)
  (he : e ∈ liveGuests k)
include h₀ hr he

/-- **Guests share no memory that is not counted.**  In every tame run from a state without guests,
a page with less than two references is at one address of one guest only. -/
theorem guestPages_exclusive {gpa gpa' w w' : Word} (he' : e' ∈ liveGuests k)
    (hw : eptTranslate k.pm (k.envs e).root gpa = some w)
    (hw' : eptTranslate k.pm (k.envs e').root gpa' = some w')
    (hone : (k.pm.ppRef (ppn (epteAddr w))).toNat < 2) (hne : e' ≠ e ∨ vpn gpa' ≠ vpn gpa) :
    ppn (epteAddr w') ≠ ppn (epteAddr w) := by
  have h := h₀.kInv.reach hr
  obtain ⟨A, extra, L, hA, -⟩ := h.acct
  intro hpage
  have hv := h.view_of_translate he hw
  have hv' := h.view_of_translate he' hw'
  rw [hpage] at hv'
  have htwo : 2 ≤ leaves _ _ k.pm _ :=
    two_le_total (h.eptRoot he).root (h.eptRoot he').root hv hv' fun hsame =>
      hne.elim (fun hn => hn (h.inj e' he' e he hsame.1)) fun hn => hn hsame.2
  by_cases hmem : ppn (epteAddr w) ∈ A
  · exact absurd ((hA.anon _ hmem).2.2.1) (by omega)
  · have hexact := hA.exact _ hmem
    omega

/-- **What the processor reads for a guest is not free**: the tables of its EPT, which are no
tables of another guest, its VMCS, MSR area and I/O bitmaps. -/
theorem guestTables_not_free :
    (∀ p ∈ (k.envs e).held, ¬ OnFreeList k.pm p) ∧
    ∀ π t, π.length ≤ 3 → tab k.pm (k.envs e).root π = some t → ¬ OnFreeList k.pm t ∧
      ∀ e' ∈ liveGuests k, ∀ π', π'.length ≤ 3 → tab k.pm (k.envs e').root π' = some t →
        e' = e ∧ π' = π := by
  have h := h₀.kInv.reach hr
  obtain ⟨A, extra, L, hA, hm⟩ := h.acct
  refine ⟨fun p hp hfree => ?_, fun π t hπ ht => ?_⟩
  · have hzero := (hA.ref_of_free (hA.chain.mem_of_reaches hfree)).2.2
    have hcount : 0 < (k.envs e).held.count p := List.count_pos_iff.mpr hp
    have howed : (k.envs e).owed p ≤ structs k p :=
      Finset.single_le_sum (f := fun e => (k.envs e).owed p) (fun _ _ => Nat.zero_le _) he
    have hle := hm p
    rw [Env.owed] at howed
    omega
  · have hn := (h.eptRoot he).node hA.toWf hπ
    refine ⟨fun hfree => ?_, fun e' he' π' hπ' ht' => ?_⟩
    · exact hA.table_not_free t ⟨_, π, hn, ht⟩ (hA.chain.mem_of_reaches hfree)
    · have hn' := (h.eptRoot he').node hA.toWf hπ'
      obtain ⟨hroot, hpath⟩ := hA.tree _ _ _ _ _ ⟨hn', ht'⟩ ⟨hn, ht⟩
      exact ⟨h.inj e' he' e he hroot, hpath⟩

end

/-- Two guests have faulted at address zero. -/
abbrev TwoFaulted (k : Kernel) : Prop :=
  (k.envs 0).IsLiveGuest ∧ (k.envs 1).IsLiveGuest ∧ k.pm.ppRef 12 = 0#16 ∧
    eptTranslate k.pm (k.envs 0).root 0 = some (eptLeaf 12 7#32) ∧
    eptTranslate k.pm (k.envs 1).root 0 = some (eptLeaf 16 7#32)

theorem twoFaulted_reach : ∃ k, GuestReach (Tame noHost) (smallMachine (faultAt 2 0)) k ∧
    TwoFaulted k := by
  have hrun : Follows GuestOp.exec (fun k op => op.Enabled k ∧ Unshared k op) TwoFaulted
      [.alloc 0, .alloc 0, .eptViolation 0, .resume 1 (faultAt 8 0), .eptViolation 1]
      (smallMachine (faultAt 2 0)) := by
    decide +kernel
  obtain ⟨k, hr, hk⟩ := hrun.reach
  exact ⟨k, hr.mono fun _ _ h => ⟨h.1, h.2.tame⟩, hk⟩

/-- Their pages are two. -/
theorem guestPages_exclusive_two : ∃ k, GuestReach (Tame noHost) (smallMachine (faultAt 2 0)) k ∧
    ∃ w w', eptTranslate k.pm (k.envs 0).root 0 = some w ∧
      eptTranslate k.pm (k.envs 1).root 0 = some w' ∧ ppn (epteAddr w') ≠ ppn (epteAddr w) := by
  obtain ⟨k, hr, h0, h1, href, hw, hw'⟩ := twoFaulted_reach
  have hone : (k.pm.ppRef (ppn (epteAddr (eptLeaf 12 7#32)))).toNat < 2 := by
    rw [show ppn (epteAddr (eptLeaf 12 7#32)) = 12 by decide, href]
    decide
  exact ⟨k, hr, _, _, hw, hw', guestPages_exclusive (smallMachine_quiet _) hr
    (mem_liveGuests.mpr h0) (mem_liveGuests.mpr h1) hw hw' hone (.inl (by decide))⟩

/-- The root of the first is not free, and is not the root of the second. -/
theorem guestTables_not_free_two : ∃ k, GuestReach (Tame noHost) (smallMachine (faultAt 2 0)) k ∧
    ¬ OnFreeList k.pm (k.envs 0).root ∧ (k.envs 1).root ≠ (k.envs 0).root := by
  obtain ⟨k, hr, h0, h1, -⟩ := twoFaulted_reach
  have h := (guestTables_not_free (smallMachine_quiet _) hr (mem_liveGuests.mpr h0)).2 [] _
    (by decide) rfl
  refine ⟨k, hr, h.1, fun hroot => ?_⟩
  exact absurd (h.2 1 (mem_liveGuests.mpr h1) [] (by decide) (congrArg some hroot)).1 (by decide)

end JosVmm
