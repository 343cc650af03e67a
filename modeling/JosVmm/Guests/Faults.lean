import JosVmm.Ept.Update
import JosVmm.Guests.Share

/-!
# Guests — EPT violations are resolved

An EPT violation of guest memory is answered with a new page, which `ept_page_insert` maps without
overwriting; `handle_eptviolation` asserts that the insertion succeeds.  In runs in which every
violation that it takes on is `Resolvable`, whatever else the kernel does for guests meanwhile, the
assertion holds, and the guest may access the address afterwards (`eptFaults_resolved`).  A write to
a page that `sys_ept_map` has mapped for reading makes the host panic (`readOnly_write_panics`).
-/

namespace JosVmm
open Support Support.Radix Support.Prog

/-! ### Accesses -/

/-- The kinds of access that an EPT entry permits. -/
inductive Access where
  | read | write | exec
  deriving DecidableEq, Repr

def Access.bit : Access → Word
  | read => epteRead
  | write => epteWrite
  | exec => epteExec

/-- The EPT with the root `r` permits the access: the walk ends, and every entry on the way has
the bit. -/
def Permits (s : Pmap) (r : Nat) (gpa : Word) (a : Access) : Prop :=
  ∃ w ∈ eptWalk s.mem gpa (eptLevels - 1) r, ∀ x ∈ w.2 :: w.1, x &&& a.bit ≠ 0

/-- The addresses that `handle_eptviolation` backs with a new page. -/
def GuestRam (physSz gpa : Word) : Prop := gpa < iophysmem ∨ (extphysmem ≤ gpa ∧ gpa < physSz)

/-- The addresses at which it maps the CGA buffer. -/
def InCga (gpa : Word) : Prop := cgaBuf ≤ gpa ∧ gpa < cgaBuf + 4096#64

instance (physSz : Word) : DecidablePred (GuestRam physSz) := fun _ =>
  inferInstanceAs (Decidable (_ ∨ _))
instance : DecidablePred InCga := fun _ => inferInstanceAs (Decidable (_ ∧ _))

/-- A violation of the guest `e` at `gpa` is not taken on; or it is, but no page is free; or the
doubled indexes of the address are its own, it has no entry yet, and there are pages for it and
for the tables it lacks. -/
def Resolvable (k : Kernel) (e : EnvIx) (gpa : Word) : Prop :=
  ¬ (GuestRam (k.envs e).envVmxinfo.physSz gpa ∨ InCga gpa) ∨
  (GuestRam (k.envs e).envVmxinfo.physSz gpa ∧ k.pm.pageFreeList = none) ∨
  (AtStart gpa ∧ (∀ a ∈ entryAt k.pm (k.envs e).root (vpn gpa), k.pm.mem a = 0) ∧
    AtLeast k.pm.ppLink k.pm.pageFreeList
      (missing dec k.pm.mem (k.envs e).root (vpn gpa).path + 1))

instance (k : Kernel) (e : EnvIx) (gpa : Word) : Decidable (Resolvable k e gpa) :=
  inferInstanceAs (Decidable (_ ∨ _ ∨ _))

/-- The violations are resolvable, and the other operations tame. -/
def Serviced (k : Kernel) : GuestOp → Prop
  | .eptViolation e => ∀ gpa, (vmcsRead64 .guestPhysicalAddr).run k = .ok (gpa, k) →
      Resolvable k e gpa
  | op => Tame noHost k op

/-! ### One violation -/

section resolve

variable {F : Layout 512} {s : Pmap} {L : List Nat} {r : Nat} {gpa gpa' physSz : Word}

/-- The walk looks at the index fields only. -/
theorem eptWalk_vpn {mem : Nat → Word} (h : vpn gpa' = vpn gpa) (r : Nat) :
    eptWalk mem gpa' (eptLevels - 1) r = eptWalk mem gpa (eptLevels - 1) r := by
  obtain ⟨h3, h2, h1, h0⟩ : addrToIdx gpa' 3 = addrToIdx gpa 3 ∧ addrToIdx gpa' 2 = addrToIdx gpa 2 ∧
      addrToIdx gpa' 1 = addrToIdx gpa 1 ∧ addrToIdx gpa' 0 = addrToIdx gpa 0 := by
    simpa only [← addrToIdx_eq, Prod.mk.injEq] using h
  simp only [eptLevels, eptWalk, h3, h2, h1, h0]

/-- A page with full permissions behind full permissions permits every access. -/
theorem permits_full {up : List Word} {pp : Nat}
    (hw : eptWalk s.mem gpa (eptLevels - 1) r = some (up, eptLeaf pp (epteFull.setWidth 32)))
    (hup : ∀ x ∈ up, x &&& epteFull = epteFull) (a : Access) : Permits s r gpa a := by
  have hbit : ∀ x : Word, x &&& epteFull = epteFull → x &&& a.bit ≠ 0 := fun x hx h0 => by
    have hsub : epteFull &&& a.bit = 0 := by
      rw [← hx, BitVec.and_assoc, BitVec.and_comm epteFull, ← BitVec.and_assoc, h0]
      rfl
    revert hsub
    cases a <;> decide
  refine ⟨_, hw, fun x hx => hbit x ?_⟩
  rcases List.mem_cons.mp hx with rfl | hx
  · exact (and_eptLeaf (by decide)).trans (by decide)
  · exact hup x hx

theorem atStart_roundDownPg (h : AtStart gpa) : AtStart (roundDownPg gpa) := by
  obtain ⟨-, h1, -, h2⟩ : _ ∧ _ ∧ _ ∧ _ := by
    simpa only [vpn, Prod.mk.injEq] using vpn_roundDownPg gpa
  rwa [AtStart, h1, h2]

/-- **A violation of guest memory is resolved.** -/
theorem Wf.eptFault_resolves {p : Nat} (h : Wf F s (p :: L)) (hn : F.Node r (vpn gpa).path)
    (hram : GuestRam physSz gpa) (hC : AtStart gpa)
    (hempty : ∀ a ∈ entryAt s r (vpn gpa), s.mem a = 0)
    (hroom : missing dec s.mem r (vpn gpa).path ≤ L.length) : ∃ s',
    (eptFault (some (r * 512)) physSz gpa).run s = .ok (true, s') ∧ ∀ a, Permits s' r gpa a := by
  have hv := vpn_roundDownPg gpa
  obtain ⟨s1, new, L', t₁, t₂, u, s', -, -, -, -, hrun, -, up, hwalk, hup⟩ :=
    h.take.eptPageInsert_atStart p (epteFull.setWidth 32) false
      (show F.Node r (vpn (roundDownPg gpa)).path by rwa [hv]) (h.lt p (List.mem_cons_self ..))
      (atStart_roundDownPg hC) (by decide) (by decide) (by rw [hv]; exact hroom)
      (.inr fun a ha => hempty a (by rw [hv] at ha; exact ha))
  rw [eptWalk_vpn hv] at hwalk
  refine ⟨s', ?_, permits_full hwalk hup⟩
  rw [GuestRam] at hram
  rw [eptFault, if_pos hram, bind_ok (pageAlloc_some_raw h.head)]
  dsimp only
  rw [bind_ok hrun]
  rfl

/-- Addresses that are not taken on change nothing. -/
theorem eptFault_refused {eptrt : Option Ptr} (h : ¬ (GuestRam physSz gpa ∨ InCga gpa)) :
    (eptFault eptrt physSz gpa).run s = .ok (false, s) := by
  rw [GuestRam, InCga, not_or] at h
  rw [eptFault, if_neg h.1, if_neg h.2]
  rfl

/-- Without a free page guest memory is refused. -/
theorem eptFault_noMem {eptrt : Option Ptr} (h : GuestRam physSz gpa)
    (h0 : s.pageFreeList = none) : (eptFault eptrt physSz gpa).run s = .ok (false, s) := by
  rw [GuestRam] at h
  rw [eptFault, if_pos h, bind_ok (pageAlloc_none h0 _)]
  rfl

/-- The buffer's doubled index is not its own. -/
theorem AtStart.not_inCga (h : AtStart gpa) : ¬ InCga gpa := fun hc => by
  have hx := congrArg Fin.val h.2
  rw [ptx, field_val] at hx
  have h1 := BitVec.le_def.mp hc.1
  have h2 := BitVec.lt_def.mp hc.2
  rw [show cgaBuf.toNat = 0xB8000 from rfl] at h1
  rw [show (cgaBuf + 4096#64).toNat = 0xB9000 from rfl] at h2
  simp only [Fin.val_zero] at hx
  omega

end resolve

/-! ### Runs -/

variable {H : Layout 512} {k k' k₀ : Kernel} {e : EnvIx} {gpa : Word}

/-- **`handle_eptviolation`** of a resolvable violation does not panic, keeps the invariant, and
resolves what it does not refuse. -/
theorem KInv.resolve (h : KInv H k) (he : e ∈ liveGuests k)
    (hgpa : (vmcsRead64 .guestPhysicalAddr).run k = .ok (gpa, k)) (hC : Resolvable k e gpa) :
    ∃ b k', (handleEptviolation (k.envs e).envPml4e (k.envs e).envVmxinfo).run k = .ok (b, k') ∧
      KInv H k' ∧ (b = true → ∀ a, Permits k'.pm (k'.envs e).root gpa a) := by
  rw [handleEptviolation, bind_ok hgpa]
  obtain hno | ⟨hram, h0⟩ | ⟨hstart, hempty, hroom⟩ := hC
  · exact ⟨false, k, onPmap_ok (eptFault_refused hno), h, fun hb => by cases hb⟩
  · exact ⟨false, k, onPmap_ok (eptFault_noMem hram h0), h, fun hb => by cases hb⟩
  · by_cases hram : GuestRam (k.envs e).envVmxinfo.physSz gpa
    · obtain ⟨A, extra, L, hA, hm⟩ := h.acct
      have hn := (h.eptRoot he).node hA.toWf (vpn gpa).path_length.le
      rw [hA.chain.atLeast_iff] at hroom
      cases L with
      | nil => exact absurd hroom (Nat.not_succ_le_zero _)
      | cons p L =>
        obtain ⟨s', hrun, hper⟩ := hA.toWf.eptFault_resolves hn hram hstart hempty
          (Nat.le_of_succ_le_succ hroom)
        obtain ⟨A', extra', L', h', hm', hnp⟩ := hA.eptFault (h.eptRoot he) hm
          ⟨hstart.1, by rw [hstart.2]; decide⟩
          (fun h1 h2 => absurd ⟨h1, h2⟩ hstart.not_inCga) hrun
        rw [(h.guest e he).pml4e]
        exact ⟨true, _, onPmap_ok hrun, h.withPm hnp ⟨A', extra', L', h', hm'⟩, fun _ => hper⟩
    · have hno : ¬ (GuestRam (k.envs e).envVmxinfo.physSz gpa ∨ InCga gpa) :=
        not_or.mpr ⟨hram, hstart.not_inCga⟩
      exact ⟨false, k, onPmap_ok (eptFault_refused hno), h, fun hb => by cases hb⟩

theorem KInv.serviced (h : KInv noHost k) (hr : GuestReach Serviced k k') : KInv noHost k' := by
  refine invariant (fun k₁ k₂ h ⟨op, hC, hrun⟩ => ?_) h hr
  cases op with
  | eptViolation e =>
    rw [GuestOp.exec, bind_ok getEnv_run] at hrun
    obtain ⟨b, k₃, hk3, hrun1⟩ := bind_inv hrun
    cases hrun1
    obtain ⟨gpa, k₄, hgpa, -⟩ := bind_inv hk3
    obtain rfl := vmcsRead64_eq_ok hgpa
    obtain ⟨b', k', hrun', h', -⟩ := h.resolve hC.1 hgpa (hC.2 gpa hgpa)
    cases hrun'.symm.trans hk3
    exact h'
  | _ => exact h.step hC.1 hC.2 hrun

/-- **No violation makes the host panic.**  In every serviced run from a state without guests, a
resolvable violation of a live guest is refused, or the guest may access the address
afterwards. -/
theorem eptFaults_resolved (h₀ : Quiet k₀) (hr : GuestReach Serviced k₀ k) (he : e ∈ liveGuests k)
    (hgpa : (vmcsRead64 .guestPhysicalAddr).run k = .ok (gpa, k)) (hC : Resolvable k e gpa) :
    ∃ b k', (handleEptviolation (k.envs e).envPml4e (k.envs e).envVmxinfo).run k = .ok (b, k') ∧
      (b = true → ∀ a, Permits k'.pm (k'.envs e).root gpa a) := by
  obtain ⟨b, k', hrun, -, hper⟩ := (h₀.kInv.serviced hr).resolve he hgpa hC
  exact ⟨b, k', hrun, hper⟩

/-- A guest is made. -/
def IsSetup : GuestOp → Prop
  | .alloc _ | .configure .. => True
  | _ => False

instance : DecidablePred IsSetup
  | .alloc _ | .configure .. => inferInstanceAs (Decidable True)
  | .eptViolation _ | .mbmap .. | .eptMap .. | .free _ | .resume .. =>
    inferInstanceAs (Decidable False)

/-- The first violation of a new guest, at address zero. -/
theorem eptFaults_resolved_first : ∃ k k', GuestReach Serviced (smallMachine (faultAt 2 0)) k ∧
    (handleEptviolation (k.envs 0).envPml4e (k.envs 0).envVmxinfo).run k = .ok (true, k') ∧
    ∀ a, Permits k'.pm (k'.envs 0).root 0 a := by
  have hrun : Follows GuestOp.exec (fun k op => op.Enabled k ∧ IsSetup op)
      (fun k => (k.envs 0).IsLiveGuest ∧ k.cpu.vmptr = some 2 ∧
        (k.cpu.vmcs 2).field .guestPhysicalAddr = 0 ∧ Resolvable k 0 0 ∧
        Returns ((handleEptviolation (k.envs 0).envPml4e (k.envs 0).envVmxinfo).run k)
          fun b _ => b = true)
      [.alloc 0, .configure 0 0x200000#64 0] (smallMachine (faultAt 2 0)) := by
    decide +kernel
  obtain ⟨k, hr, hlive, hptr, hgpa, hC, hret⟩ := hrun.reach
  have hr' : GuestReach Serviced (smallMachine (faultAt 2 0)) k := hr.mono fun k op h => by
    refine ⟨h.1, ?_⟩
    cases op with
    | alloc _ => trivial
    | configure _ _ _ => trivial
    | _ => exact h.2.elim
  obtain ⟨_, k₁, hrun₁, rfl⟩ := hret.exists_ok
  obtain ⟨b, k', hrun', hper⟩ := eptFaults_resolved (smallMachine_quiet _) hr'
    (mem_liveGuests.mpr hlive) (show (vmcsRead64 .guestPhysicalAddr).run k = .ok (0, k) by
      rw [vmcsRead64_run hptr, hgpa]) hC
  cases hrun'.symm.trans hrun₁
  exact ⟨k, k₁, hr', hrun', hper rfl⟩

/-- **A guest panics the host**: it writes to a page that `sys_ept_map` has mapped for reading, and
the assertion fails. -/
theorem readOnly_write_panics : ∃ k₀ k, EnvReach (fun _ _ => True) (smallMachine capable) k₀ ∧
    GuestReach (fun _ _ => True) k₀ k ∧ 1 ∈ liveGuests k ∧
    (vmcsRead64 .guestPhysicalAddr).run k = .ok (0, k) ∧
    Permits k.pm (k.envs 1).root 0 .read ∧ ¬ Permits k.pm (k.envs 1).root 0 .write ∧
    (handleEptviolation (k.envs 1).envPml4e (k.envs 1).envVmxinfo).run k = .error .assertFailed := by
  have hrun : Follows EnvOp.exec (fun k op => op.Enabled k ∧ True)
      (Follows GuestOp.exec (fun k op => op.Enabled k ∧ True)
        (fun k => (k.envs 1).IsLiveGuest ∧ k.cpu.vmptr = some 2 ∧
          (k.cpu.vmcs 2).field .guestPhysicalAddr = 0 ∧
          eptWalk k.pm.mem 0 (eptLevels - 1) (k.envs 1).root =
            some ([0xC007#64, 0xD007#64, 0xE007#64], 0x2071#64) ∧
          Fails ((handleEptviolation (k.envs 1).envPml4e (k.envs 1).envVmxinfo).run k) .assertFailed)
        [.eptMap 0 0x1000#64 0x1001#32 0 1#32, .resume 1 (faultAt 2 0)])
      makeGuest (smallMachine capable) := by
    decide +kernel
  obtain ⟨k₀, hr₀, h₀⟩ := hrun.reach
  obtain ⟨k, hr, hlive, hptr, hgpa, hwalk, hfail⟩ := h₀.reach
  refine ⟨k₀, k, hr₀, hr, mem_liveGuests.mpr hlive, by rw [vmcsRead64_run hptr, hgpa],
    ⟨_, hwalk, fun x hx => ?_⟩, ?_, hfail.eq_error⟩
  · simp only [List.mem_cons, List.not_mem_nil, or_false] at hx
    obtain rfl | rfl | rfl | rfl := hx <;> decide
  · rintro ⟨w, hw, hall⟩
    obtain rfl := Option.some.inj (hwalk.symm.trans hw)
    exact hall 0x2071#64 (List.mem_cons_self ..) (by decide)

end JosVmm
