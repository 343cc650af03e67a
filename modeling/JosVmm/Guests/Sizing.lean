import JosVmm.Guests.MemoryMap
import JosVmm.Machine.Detect
import JosVmm.Vmx.Rtc

/-!
# Guests — two ways to size memory

A guest kernel that runs `i386_detect_memory` finds the size of its memory in the map that
`VMX_VMCALL_MBMAP` lays out, or else in the registers that `handle_ioinstr` emulates.  The map has
64 bits for a length (`detect_map`), and the two registers 16 bits for a number of kilobytes
(`detect_cmos`).  So the two agree below 65 megabytes, and nowhere above (`detect_agrees`): a guest
of that size finds no extended memory at all in the registers (`detect_differs`).
-/

namespace JosVmm
open Support Support.Prog Support.Radix Function BitVec Detect

/-! ### The guest's clock -/

/-- What can end a guest while it executes an instruction. -/
inductive GuestStop where
  | panic (p : Panic)
  /-- The exit is not handled, and the guest is destroyed. -/
  | destroyed

/-- The guest `e` executes an I/O instruction, and goes on with the value in `rax`. -/
def guestIo (stack : Fin 13 → BitVec 32) (userSh : Image) (e : EnvIx) (qualification rax : Word) :
    StateT Kernel (Except GuestStop) Word := fun k =>
  match (vmexit stack userSh).run (k.atIo e qualification rax) with
  | .error p => .error (.panic p)
  | .ok (_, k') =>
    if k'.curenv = some e then .ok ((k'.envs e).envTf.tfRegs.regRax, k') else .error .destroyed

/-- `mc146818_read(reg)`, in the guest `e`; what `rax` holds before the `in` does not matter. -/
def mc146818Read (stack : Fin 13 → BitVec 32) (userSh : Image) (e : EnvIx) (reg : BitVec 32) :
    StateT Kernel (Except GuestStop) (BitVec 32) := do
  let _ ← guestIo stack userSh e outIndex ((reg.setWidth 8).setWidth 64)
  let rax ← guestIo stack userSh e inData 0
  return (rax.setWidth 8).setWidth 32

variable {stack : Fin 13 → BitVec 32} {userSh : Image} {e : EnvIx} {k k' : Kernel}
  {q rax physSz : Word}

theorem guestIo_handled {k₁ : Kernel} (hrun : (handleIoinstr e).run (k.atIo e q rax) = .ok (true, k₁))
    (hcur : k₁.curenv = some e) :
    (guestIo stack userSh e q rax).run k = .ok ((k₁.envs e).envTf.tfRegs.regRax, k₁) := by
  have hio : (RtcOp.exec stack userSh (.io e 0 q rax)).run k = .ok ((), k₁) := by
    rw [io_run, bind_ok hrun]
    rfl
  have hexit : (vmexit stack userSh).run (k.atIo e q rax) = .ok ((), k₁) := hio
  show guestIo stack userSh e q rax k = _
  rw [guestIo, hexit]
  exact if_pos hcur

theorem guestIo_index (stack : Fin 13 → BitVec 32) (userSh : Image) (k : Kernel) (e : EnvIx)
    (rax : Word) : ∃ v k', (guestIo stack userSh e outIndex rax).run k = .ok (v, k') ∧
      k'.portIortc = rax.setWidth 32 ∧ (k'.envs e).envVmxinfo = (k.envs e).envVmxinfo := by
  have hq : IndexWrite outIndex := by decide
  obtain ⟨rip, hrun⟩ := handleIoinstr_index (k := k.atIo e outIndex rax) (e := e)
    (p := (k.envs e).vmcsPage) rfl (atIo_qualification ▸ hq)
  refine ⟨_, _, guestIo_handled hrun rfl, ?_, ?_⟩
  · rw [atIo_env]
    rfl
  · rw [Kernel.setEnv_envs, update_self, atIo_env]

theorem guestIo_data (stack : Fin 13 → BitVec 32) (userSh : Image) {v : Word}
    (hv : nvramRead (k.envs e).envVmxinfo.physSz k.portIortc = some v) :
    ∃ k', (guestIo stack userSh e inData 0).run k = .ok (v, k') ∧
      (k'.envs e).envVmxinfo = (k.envs e).envVmxinfo := by
  have hq : DataRead inData := by decide
  obtain ⟨rip, hrun⟩ := handleIoinstr_read (k := k.atIo e inData 0) (e := e)
    (p := (k.envs e).vmcsPage) rfl (atIo_qualification ▸ hq)
  have hv' : nvramRead ((k.atIo e inData 0).envs e).envVmxinfo.physSz
      (k.atIo e inData 0).portIortc = some v := by
    rw [atIo_env]
    exact hv
  rw [hv'] at hrun
  have h : (guestIo stack userSh e inData 0).run k = _ := guestIo_handled hrun rfl
  rw [Kernel.setEnv_envs, update_self] at h
  refine ⟨_, h, ?_⟩
  rw [Kernel.setEnv_envs, update_self, atIo_env]

/-- **A register of the guest's clock** that `handle_ioinstr` knows. -/
theorem mc146818Read_run (stack : Fin 13 → BitVec 32) (userSh : Image) {reg : BitVec 32} {v : Word}
    (hv : nvramRead (k.envs e).envVmxinfo.physSz ((reg.setWidth 8).setWidth 32) = some v) :
    ∃ k', (mc146818Read stack userSh e reg).run k = .ok ((v.setWidth 8).setWidth 32, k') ∧
      (k'.envs e).envVmxinfo = (k.envs e).envVmxinfo := by
  obtain ⟨_, k₁, h1, hport, hinfo1⟩ := guestIo_index stack userSh k e ((reg.setWidth 8).setWidth 64)
  rw [setWidth_setWidth_of_le _ (by decide)] at hport
  rw [← hport, ← hinfo1] at hv
  obtain ⟨k₂, h2, hinfo2⟩ := guestIo_data stack userSh hv
  refine ⟨k₂, ?_, hinfo2.trans hinfo1⟩
  rw [mc146818Read, bind_ok h1, bind_ok h2]
  rfl

/-! ### Sixteen bits of kilobytes -/

/-- The kilobytes of extended memory, as `handle_ioinstr` computes them. -/
def extKilobytes (physSz : Word) : Word := physSz.sdiv 1024#64 - 1024#64

/-- Two bytes of a word make up its lower half. -/
theorem bytes_or (w : Word) : ((w &&& 0xFF#64).setWidth 8).setWidth 32 |||
    (((w.sshiftRight 8 &&& 0xFF#64).setWidth 8).setWidth 32 <<< 8) =
      ((w.setWidth 16).setWidth 32 : BitVec 32) := by
  refine eq_of_getLsbD_eq fun i hi => ?_
  have hmask : ∀ j, (0xFF#64).getLsbD j = decide (j < 8) := fun j => by
    rw [show 0xFF#64 = BitVec.ofNat 64 (2 ^ 8 - 1) from rfl, getLsbD_ofNat,
      Nat.testBit_two_pow_sub_one]
    by_cases h : j < 8 <;> simp [h]
    omega
  simp only [getLsbD_or, getLsbD_setWidth, getLsbD_and, hmask,
    getLsbD_shiftLeft, getLsbD_sshiftRight]
  by_cases h1 : i < 8
  · simp [h1, hi, show i < 16 by omega]
  · by_cases h2 : i < 16
    · simp [h1, h2, hi, show i - 8 < 8 by omega, show i - 8 < 32 by omega,
        show i - 8 < 64 by omega, show 8 + (i - 8) = i by omega, show i < 64 by omega]
    · simp [h1, h2, show ¬ i - 8 < 8 by omega]

/-- A pair of registers. -/
theorem nvramRead_run (stack : Fin 13 → BitVec 32) (userSh : Image) {r : BitVec 32} {lo hi : Word}
    (hlo : nvramRead (k.envs e).envVmxinfo.physSz ((r.setWidth 8).setWidth 32) = some lo)
    (hhi : nvramRead (k.envs e).envVmxinfo.physSz (((r + 1#32).setWidth 8).setWidth 32) = some hi) :
    ∃ k', (Detect.nvramRead (mc146818Read stack userSh e) r).run k =
        .ok ((lo.setWidth 8).setWidth 32 ||| ((hi.setWidth 8).setWidth 32 <<< 8), k') ∧
      (k'.envs e).envVmxinfo = (k.envs e).envVmxinfo := by
  obtain ⟨k₁, h1, hinfo1⟩ := mc146818Read_run stack userSh hlo
  rw [← hinfo1] at hhi
  obtain ⟨k₂, h2, hinfo2⟩ := mc146818Read_run stack userSh hhi
  refine ⟨k₂, ?_, hinfo2.trans hinfo1⟩
  rw [Detect.nvramRead, bind_ok h1, bind_ok h2]
  rfl

theorem nvramRead_base (stack : Fin 13 → BitVec 32) (userSh : Image) (k : Kernel) (e : EnvIx) :
    ∃ k', (Detect.nvramRead (mc146818Read stack userSh e) nvramBaselo).run k = .ok (640#32, k') ∧
      (k'.envs e).envVmxinfo = (k.envs e).envVmxinfo := by
  have h := nvramRead_run (k := k) (e := e) (r := nvramBaselo) stack userSh rfl rfl
  exact h

/-- **The registers of extended memory** give 16 bits. -/
theorem nvramRead_ext (stack : Fin 13 → BitVec 32) (userSh : Image) (k : Kernel) (e : EnvIx) :
    ∃ k', (Detect.nvramRead (mc146818Read stack userSh e) nvramExtlo).run k =
        .ok (((extKilobytes (k.envs e).envVmxinfo.physSz).setWidth 16).setWidth 32, k') ∧
      (k'.envs e).envVmxinfo = (k.envs e).envVmxinfo := by
  rw [← bytes_or]
  exact nvramRead_run stack userSh rfl rfl

/-- A size that is worth detecting: whole pages, and at least a megabyte. -/
structure Sizeable (physSz : Word) : Prop where
  page : 4096 ∣ physSz.toNat
  least : 2 ^ 20 ≤ physSz.toInt

section

variable (h : Sizeable physSz)
include h

theorem Sizeable.bounds : 2 ^ 20 ≤ physSz.toNat ∧ physSz.toNat < 2 ^ 63 := by
  have hle := h.least
  have hlt := physSz.isLt
  rw [toInt_eq_toNat_cond] at hle
  split at hle <;> omega

theorem Sizeable.extKilobytes :
    (JosVmm.extKilobytes physSz).toNat = physSz.toNat / 1024 - 1024 := by
  obtain ⟨h1, h2⟩ := h.bounds
  have hmsb : physSz.msb = false := by
    rw [msb_eq_false_iff_two_mul_lt]
    omega
  have hdiv : physSz.sdiv 1024#64 = physSz / 1024#64 := by
    rw [sdiv_eq, hmsb]
    rfl
  rw [JosVmm.extKilobytes, hdiv, toNat_sub, toNat_udiv]
  simp only [toNat_ofNat, Nat.reducePow, Nat.reduceMod]
  omega

/-- What the registers hold. -/
theorem Sizeable.registers :
    (((JosVmm.extKilobytes physSz).setWidth 16).setWidth 32 : BitVec 32).toNat =
      (physSz.toNat / 1024 - 1024) % 65536 := by
  rw [toNat_setWidth, toNat_setWidth, h.extKilobytes]
  omega

theorem Sizeable.registers_ne :
    (((JosVmm.extKilobytes physSz).setWidth 16).setWidth 32 : BitVec 32) ≠ 0xffff#32 := fun heq => by
  obtain ⟨n, hn⟩ := h.page
  have hv := h.registers
  rw [heq, hn] at hv
  simp only [toNat_ofNat] at hv
  omega

end

/-! ### Detection -/

/-- `npages`, if there are 640 kilobytes of base memory. -/
theorem countPages_toNat {x : Word} (hx : x.toNat < 2 ^ 63) :
    (countPages (0xA0000#64 / 4096#64) x).toNat = if x.toNat = 0 then 160
      else if 3276800 < 256 + x.toNat then 3275776 else 256 + x.toNat := by
  have hmax : Detect.maxNpages = 3276800#64 := by decide
  have hzero : x = 0 ↔ x.toNat = 0 := by
    rw [toNat_eq]
    rfl
  have hadd : (0x100000#64 / 4096#64 + x).toNat = 256 + x.toNat := by
    rw [toNat_add, show (0x100000#64 / 4096#64).toNat = 256 from rfl]
    omega
  rw [countPages, hmax]
  by_cases h : x = 0
  · rw [if_neg (not_not.mpr h), if_pos (hzero.mp h)]
    rfl
  · have hlt : 3276800#64 < 0x100000#64 / 4096#64 + x ↔ 3276800 < 256 + x.toNat := by
      rw [lt_def, hadd]
      rfl
    rw [if_pos h, if_neg (mt hzero.mpr h)]
    by_cases hover : 3276800 < 256 + x.toNat
    · rw [if_pos (hlt.mpr hover), if_pos hover]
      rfl
    · rw [if_neg (mt hlt.mp hover), if_neg hover, hadd]

variable {mem : Bytes} {list : Nat → Nat} {mbinfo : Nat} {basemem extmem : Word}
  {filler : Fin 13 → BitVec 32}

/-- **`i386_detect_memory` after the two totals.** -/
theorem detect_run (hz : Sizeable (k.envs e).envVmxinfo.physSz) (hb : basemem ≠ 0) {k₁ : Kernel}
    (htot : (totals (mc146818Read stack userSh e) mem list mbinfo).run k =
      .ok (.ok (basemem, extmem), k₁)) (hinfo : (k₁.envs e).envVmxinfo = (k.envs e).envVmxinfo) :
    ∃ k', (i386DetectMemory (mc146818Read stack userSh e) mem list mbinfo).run k =
      .ok (.ok ⟨basemem / 4096#64, countPages (basemem / 4096#64) (extmem / 4096#64)⟩, k') := by
  obtain ⟨k₂, h2, -⟩ := nvramRead_ext stack userSh k₁ e
  rw [hinfo] at h2
  rw [i386DetectMemory, bind_ok htot]
  dsimp only
  rw [if_neg hb, bind_ok h2, if_neg hz.registers_ne]
  exact ⟨k₂, rfl⟩

/-- **From the map**, the length of extended memory is exact. -/
theorem detect_map (stack : Fin 13 → BitVec 32) (userSh : Image) (list : Nat → Nat)
    (hz : Sizeable (k.envs e).envVmxinfo.physSz)
    (hl : LaidOut mem filler (k.envs e).envVmxinfo.physSz) : ∃ z k',
    (i386DetectMemory (mc146818Read stack userSh e) mem list multibootMapAddr.toNat).run k =
      .ok (.ok z, k') ∧ z.npages.toNat =
        let n := ((k.envs e).envVmxinfo.physSz.toNat - 0x100000) / 4096
        if n = 0 then 160 else if 3276800 < 256 + n then 3275776 else 256 + n := by
  rw [show multibootMapAddr.toNat = 0x6000 from rfl]
  obtain ⟨h1, h2⟩ := hz.bounds
  obtain ⟨b, hrun, -, hbase, hext⟩ := LaidOut.multibootRead (b := ⟨mem, 0, list, 0, 0⟩) hl h1 rfl rfl
  have hflag : Detect.HasMap mem 0x6000 := by
    refine ⟨by decide, ?_⟩
    rw [show load32 mem 0x6000 = 0x40#32 from hl 0 _ rfl]
    decide
  have htot : (totals (mc146818Read stack userSh e) mem list 0x6000).run k =
      .ok (.ok (b.basemem, b.extmem), k) := by
    rw [totals, if_pos hflag, multibootTotals, hrun]
    rfl
  have hb : b.basemem = 0xA0000#64 := eq_of_toNat_eq hbase
  rw [hb] at htot
  obtain ⟨k', hdet⟩ := detect_run hz (by decide) htot rfl
  refine ⟨_, k', hdet, ?_⟩
  have hx : (b.extmem / 4096#64).toNat = ((k.envs e).envVmxinfo.physSz.toNat - 0x100000) / 4096 := by
    rw [toNat_udiv, hext]
    rfl
  dsimp only
  rw [countPages_toNat (by omega), hx]

/-- **From the registers**, the length is taken modulo 64 megabytes. -/
theorem detect_cmos (stack : Fin 13 → BitVec 32) (userSh : Image) (list : Nat → Nat)
    (hz : Sizeable (k.envs e).envVmxinfo.physSz) (hmap : ¬ Detect.HasMap mem mbinfo) : ∃ z k',
      (i386DetectMemory (mc146818Read stack userSh e) mem list mbinfo).run k =
        .ok (.ok z, k') ∧ z.npages.toNat =
        let n := ((k.envs e).envVmxinfo.physSz.toNat - 0x100000) / 4096 % 16384
        if n = 0 then 160 else 256 + n := by
  obtain ⟨h1, h2⟩ := hz.bounds
  obtain ⟨k₁, hrun1, hinfo1⟩ := nvramRead_base stack userSh k e
  obtain ⟨k₂, hrun2, hinfo2⟩ := nvramRead_ext stack userSh k₁ e
  rw [hinfo1] at hrun2 hinfo2
  generalize hx : (((extKilobytes (k.envs e).envVmxinfo.physSz).setWidth 16).setWidth 32 :
    BitVec 32) = x at hrun2
  have hreg := hz.registers
  rw [hx] at hreg
  have htot : (totals (mc146818Read stack userSh e) mem list mbinfo).run k =
      .ok (.ok (0xA0000#64, (x * 1024#32).signExtend 64), k₂) := by
    rw [totals, if_neg hmap, bind_ok hrun1, bind_ok hrun2]
    rfl
  obtain ⟨k', hdet⟩ := detect_run hz (by decide) htot hinfo2
  refine ⟨_, k', hdet, ?_⟩
  have hmul : (x * 1024#32).toNat = x.toNat * 1024 := by
    rw [toNat_mul]
    simp only [toNat_ofNat]
    omega
  have hext : ((x * 1024#32).signExtend 64).toNat = x.toNat * 1024 := by
    rw [signExtend_toNat (by rw [hmul]; omega), hmul]
  have hpages : ((x * 1024#32).signExtend 64 / 4096#64).toNat =
      ((k.envs e).envVmxinfo.physSz.toNat - 0x100000) / 4096 % 16384 := by
    obtain ⟨n, hn⟩ := hz.page
    rw [toNat_udiv, hext, hreg, hn]
    simp only [toNat_ofNat, Nat.reducePow, Nat.reduceMod]
    omega
  dsimp only
  rw [countPages_toNat (by omega), hpages]
  split
  · rfl
  · rw [if_neg (by omega)]

variable {F : Layout 512} {s : Pmap} {L : List Nat} {r p : Nat}

/-- **The two sizes agree below 65 megabytes, and only there.**  A guest of a size of whole pages, at
least a megabyte, sees the page of the call at 0x6000; it counts the pages with this map, and without
a map. -/
theorem detect_agrees (h : Wf F s (p :: L)) (hn : F.Node r (vpn multibootMapAddr).path)
    (hpage : 4096 ∣ physSz.toNat) (hsz : 2 ^ 20 ≤ physSz.toInt) : ∃ s',
    (mbmap filler (some (r * 512)) physSz).run s = .ok (true, s') ∧
    ∀ (mem mem' : Bytes) (list list' : Nat → Nat) (mbinfo' : Nat) (k : Kernel) (e : EnvIx),
      (∀ i < 4096, mem (multibootMapAddr.toNat + i) = pageByte s'.mem p i) →
      ¬ Detect.HasMap mem' mbinfo' → (k.envs e).envVmxinfo.physSz = physSz → ∃ z z' k₁ k₂,
        (Detect.i386DetectMemory (mc146818Read stack userSh e) mem list
          multibootMapAddr.toNat).run k = .ok (.ok z, k₁) ∧
        (Detect.i386DetectMemory (mc146818Read stack userSh e) mem' list' mbinfo').run k =
          .ok (.ok z', k₂) ∧
        (z.npages = z'.npages ↔ physSz.toNat < 0x4100000) := by
  obtain ⟨s', hrun, hlaid⟩ := mbmap_laidOut filler physSz h hn
  refine ⟨s', hrun, fun mem mem' list list' mbinfo' k e hmem hmap hk => ?_⟩
  subst hk
  have hz : Sizeable (k.envs e).envVmxinfo.physSz := ⟨hpage, hsz⟩
  obtain ⟨h₁, h₂⟩ := hz.bounds
  obtain ⟨z, k₁, hz₁, hn₁⟩ := detect_map stack userSh list hz (hlaid mem hmem)
  obtain ⟨z', k₂, hz₂, hn₂⟩ := detect_cmos stack userSh list' hz hmap
  refine ⟨z, z', k₁, k₂, hz₁, hz₂, ?_⟩
  rw [← toNat_inj, hn₁, hn₂]
  dsimp only
  split <;> split <;> (try split) <;> omega

/-- A machine whose environment 0 is a guest of the given size. -/
def sizedGuest (physSz : Word) : Kernel :=
  (smallMachine (faultAt 2 0)).setEnv 0
    { (smallMachine (faultAt 2 0)).envs 0 with envVmxinfo.physSz := physSz }

theorem sizedGuest_physSz (physSz : Word) :
    ((sizedGuest physSz).envs 0).envVmxinfo.physSz = physSz := rfl

theorem eightPages_wf : Wf (single (fun _ => True) 7) eightPages [1, 2, 3, 4, 5] :=
  Wf.zeroed eightPages_freeList (by decide) (by decide) fun _ => rfl

/-- A guest of 16 megabytes counts 4096 pages either way. -/
theorem detect_agrees_sixteen : ∃ s',
    (mbmap (fun _ => 0) (some (7 * 512)) 0x1000000#64).run eightPages = .ok (true, s') ∧
    ∀ mem : Bytes, (∀ i < 4096, mem (multibootMapAddr.toNat + i) = pageByte s'.mem 1 i) →
      ∃ z z' k₁ k₂, (Detect.i386DetectMemory (mc146818Read (fun _ => 0) (fun _ => 0) 0) mem
          (fun _ => 0) multibootMapAddr.toNat).run (sizedGuest 0x1000000#64) = .ok (.ok z, k₁) ∧
        (Detect.i386DetectMemory (mc146818Read (fun _ => 0) (fun _ => 0) 0) (fun _ => 0)
          (fun _ => 0) 0).run (sizedGuest 0x1000000#64) = .ok (.ok z', k₂) ∧
        z.npages = z'.npages := by
  obtain ⟨s', hrun, h⟩ := detect_agrees eightPages_wf (single_node trivial)
    (show 4096 ∣ (0x1000000#64 : Word).toNat by decide) (by decide)
  refine ⟨s', hrun, fun mem hmem => ?_⟩
  obtain ⟨z, z', k₁, k₂, h₁, h₂, hiff⟩ := h mem (fun _ => 0) (fun _ => 0) (fun _ => 0) 0
    (sizedGuest 0x1000000#64) 0 hmem (fun hm => hm.1 rfl)
    (sizedGuest_physSz _)
  exact ⟨z, z', k₁, k₂, h₁, h₂, hiff.mpr (by decide)⟩

/-- **A guest of 65 megabytes** counts 16640 pages with the map, and 160 without. -/
theorem detect_differs : ∃ s',
    (mbmap (fun _ => 0) (some (7 * 512)) 0x4100000#64).run eightPages = .ok (true, s') ∧
    ∀ mem : Bytes, (∀ i < 4096, mem (multibootMapAddr.toNat + i) = pageByte s'.mem 1 i) →
      ∃ z z' k₁ k₂, (Detect.i386DetectMemory (mc146818Read (fun _ => 0) (fun _ => 0) 0) mem
          (fun _ => 0) multibootMapAddr.toNat).run (sizedGuest 0x4100000#64) = .ok (.ok z, k₁) ∧
        (Detect.i386DetectMemory (mc146818Read (fun _ => 0) (fun _ => 0) 0) (fun _ => 0)
          (fun _ => 0) 0).run (sizedGuest 0x4100000#64) = .ok (.ok z', k₂) ∧
        z.npages.toNat = 16640 ∧ z'.npages.toNat = 160 := by
  obtain ⟨s', hrun, hlaid⟩ := mbmap_laidOut (fun _ => 0) 0x4100000#64 eightPages_wf
    (single_node trivial)
  refine ⟨s', hrun, fun mem hmem => ?_⟩
  have hz : Sizeable ((sizedGuest 0x4100000#64).envs 0).envVmxinfo.physSz := by
    rw [sizedGuest_physSz]
    exact ⟨by decide, by decide⟩
  obtain ⟨z, k₁, h₁, hn₁⟩ := detect_map (fun _ => 0) (fun _ => 0) (fun _ => 0) hz (hlaid mem hmem)
  obtain ⟨z', k₂, h₂, hn₂⟩ := detect_cmos (fun _ => 0) (fun _ => 0) (fun _ => 0) hz
    (fun hm : Detect.HasMap (fun _ => 0) 0 => hm.1 rfl)
  rw [sizedGuest_physSz] at hn₁ hn₂
  exact ⟨z, z', k₁, k₂, h₁, h₂, hn₁.trans (by decide), hn₂.trans (by decide)⟩

end JosVmm
