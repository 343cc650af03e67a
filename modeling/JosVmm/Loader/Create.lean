import JosVmm.Loader.Image
import JosVmm.Envs.Isolation

/-!
# Loading — a new environment

`env_create` loads a program into an environment that `env_alloc` has just made.  Its address space
is one that `load_icode` can fill (`newEnv_userSpace`): entry 0 of its root is empty, and below
entry 1, which it shares with the kernel, nothing is mapped to the addresses of the user.  So the
program is there when `env_create` returns (`envCreate_loads`).
-/

namespace JosVmm
open Support Support.Radix Support.Prog Support.Paged Pmap

variable {b : Nat} {E : Finset Nat} {k k' : Kernel} {e : EnvIx} {img : Image}

/-- The kernel's tables map no address of the user. -/
def KernelOnly (b : Nat) (s : Pmap) : Prop := ∀ va < utop, pml4 va = 1 → s.walk b va = none

/-- Below entry 1 a new root leads to what the kernel's root leads to. -/
theorem walk_newRoot {s : Pmap} {p : Nat} {va : Word} (hva : pml4 va = 1)
    (hp : ∀ π t, π <+: (vpn va).path → tab s b π = some t → t ≠ p) :
    (s.newRoot p (s.mem (slot b (1 : Fin 512)))).walk p va = s.walk b va := by
  have hmem : ∀ {π t}, π <+: (vpn va).path → tab s b π = some t → ∀ i : Fin 512,
      (s.newRoot p (s.mem (slot b (1 : Fin 512)))).mem (slot t i) = s.mem (slot t i) :=
    fun hπ ht i => newRoot_mem (by rw [slot_div]; exact hp _ _ hπ ht)
  rw [walk, walk]
  rw [hva, newRoot_one]
  refine Option.bind_congr fun t₁ d1 => ?_
  have h1 : tab s b [pml4 va] = some t₁ := by rw [tab, tableAt, hva, d1]; rfl
  rw [hmem ⟨[pdpe va, pdx va], rfl⟩ h1]
  refine Option.bind_congr fun t₂ d2 => ?_
  have h2 : tab s b [pml4 va, pdpe va] = some t₂ := (tableAt_snoc_of h1 _).trans d2
  rw [hmem ⟨[pdx va], rfl⟩ h2]
  refine Option.bind_congr fun u d3 => ?_
  have h3 : tab s b [pml4 va, pdpe va, pdx va] = some u := (tableAt_snoc_of h2 _).trans d3
  rw [hmem ⟨[], rfl⟩ h3]

/-- **A new environment has an address space that can be loaded.** -/
theorem newEnv_userSpace {parentId : EnvId} (h : Spaces b E k) (hempty : KernelOnly b k.pm)
    (hrun : (envAlloc parentId).run k = .ok (.ok e, k')) :
    ∃ r L, (k'.envs e).envPml4e = some (r * 512) ∧ UserSpace r k'.pm L ∧
      k'.pm.npages = k.pm.npages := by
  obtain ⟨p, h', hT, rfl⟩ := h.newEnv hrun
  obtain ⟨A, extra, L, hA, -⟩ := h'.acct
  have hp : p ∈ insert p E := Finset.mem_insert_self ..
  have htree := h'.tree hp hA (D := userSlots) fun i hi => ?_
  · refine ⟨p, L, ?_, UserSpace.fresh htree fun va hva => ?_, rfl⟩
    · rw [Kernel.newEnv_self]
      rfl
    rcases pml4_of_lt_utop hva with h0 | h1
    · have hzero : (k.newEnv e parentId p (k.pm.mem (slot b (1 : Fin 512)))).pm.mem
          (slot p (pml4 va)) = 0 := by
        rw [h0]
        exact newRoot_zero
      rw [walk, hzero, dec_zero]
      rfl
    · rw [← hempty va hva h1]
      refine walk_newRoot h1 fun π t hπ ht => ?_
      rintro rfl
      refine hT ⟨b, π, ⟨kernel_mem, hπ.length_le, fun i hi => ?_⟩, ht⟩
      obtain ⟨σ, hσ⟩ := hπ
      have hhead : (vpn va).path.head? = some i := by rw [← hσ, List.head?_append, hi]; rfl
      rw [vpn_path, List.head?_cons, h1, Option.some.injEq] at hhead
      exact (spaces_kernel i).mpr hhead.symm
  · have hi : i.val < 2 := hi
    rcases (by omega : i.val = 0 ∨ i.val = 1) with h | h
    · exact .inl (Fin.ext h)
    · exact .inr (Fin.ext h)

/-- **`env_create` loads every segment** of an image whose segments keep to their own pages. -/
theorem envCreate_loads {type : EnvType} (h : Spaces b E k) (hempty : KernelOnly b k.pm)
    (himg : img.WellPlaced) (hdebug : img.debugBytes img.sections ≤ k.pm.npages * 4096)
    (hrun : (envCreate img type).run k = .ok ((), k')) :
    ∃ e r, (k'.envs e).envPml4e = some (r * 512) ∧ (k'.envs e).envType = type ∧
      (k'.envs e).envTf.tfRip = img.entry ∧ (k'.envs e).envTf.tfRsp = ustacktop ∧
      ∀ ph ∈ img.segments, SegmentLoaded k'.pm r img ph := by
  obtain ⟨res, k₁, halloc, hrun⟩ := bind_inv hrun
  cases res with
  | error er => cases hrun
  | ok e =>
    obtain ⟨_, k₂, hload, hrun⟩ := bind_inv hrun
    cases hrun
    obtain ⟨r, L, hroot, hspace, hnp⟩ := newEnv_userSpace h hempty halloc
    have hb : img.InBounds := ⟨himg.file, himg.below, debug_below (hnp ▸ hdebug)⟩
    rcases loadIcode_places hb (loadIcode_magic hload) hroot hspace with
      ⟨s', L', hok, hspace', hm⟩ | ⟨hno, -⟩
    · obtain rfl := (Prod.mk.inj (Except.ok.inj (hok.symm.trans hload))).2
      refine ⟨e, r, ?_, ?_, ?_, ?_, fun ph hph => segment_loaded himg hb hspace' hm hph⟩ <;>
        simp only [Kernel.setEnv_envs, Function.update_self]
      exact hroot
    · rw [hno] at hload
      cases hload

theorem mappedMachine_kernelOnly : KernelOnly 300 mappedMachine.pm := by
  intro va _ hva
  have hz : ∀ i : Fin 512, dec (mappedMachine.pm.mem (slot 1 i)) = none := by decide +kernel
  rw [walk, hva, show dec (mappedMachine.pm.mem (slot 300 1)) = some 1 by decide +kernel]
  exact congrArg (Option.bind · _) (hz (pdpe va))

theorem mappedMachine_creates :
    Returns ((envCreate smallProgram .user).run mappedMachine) fun _ _ => True := by
  decide +kernel

/-- The small program in the first environment of a machine. -/
theorem envCreate_loads_small : ∃ k' e r,
    (envCreate smallProgram .user).run mappedMachine = .ok ((), k') ∧
    (k'.envs e).envPml4e = some (r * 512) ∧
    ∀ ph ∈ smallProgram.segments, SegmentLoaded k'.pm r smallProgram ph := by
  obtain ⟨_, k', hrun, -⟩ := mappedMachine_creates.exists_ok
  obtain ⟨e, r, hroot, -, -, -, hload⟩ := envCreate_loads mappedMachine_tables.spaces
    mappedMachine_kernelOnly smallProgram_wellPlaced
    (by rw [smallProgram_sections]; exact Nat.zero_le _) hrun
  exact ⟨k', e, r, hrun, hroot, hload⟩

end JosVmm
