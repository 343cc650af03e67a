import JosVmm.Guests.Alloc

/-!
# Guests — the invariant

`KInv H k`: in the kernel state `k`, every page's count covers the entries that map it, in the
host tables of `H` and in the EPTs of the live guests, its use as a table, and the references the
guests hold to it as a VMCS, MSR area or I/O bitmap (`structs`).  A VMCS is held twice.

Steps that change memory only (`KInv.withPm`), or what a guest has besides its pages
(`KInv.touch`), keep it if they keep the account.
-/

namespace JosVmm
open Support Support.Radix Support.Prog Support.Counting Function Finset

/-! ### The tables of all guests -/

/-- The host tables of `H` and the EPTs with the roots `G`. -/
def forest (H : Layout 512) (G : Finset Nat) : Layout 512 :=
  ⟨3, H.roots ∪ G, fun r i => r ∈ H.roots → H.dom r i⟩

/-- The leaves of host tables are page-table entries, all others are EPT entries. -/
def forestReading (H : Layout 512) : Reading Nat where
  read r e := if r ∈ H.roots then dec e else eptDec e
  zero r := by
    split
    · exact dec_zero
    · exact eptDec_zero

variable {H : Layout 512} {G : Finset Nat} {r : Nat}

theorem forest_eptRoot (hr : r ∈ G) (hH : r ∉ H.roots) :
    EptRoot (forestReading H) (forest H G) r where
  root := mem_union_right _ hr
  dom _ h := absurd h hH
  read := by
    funext e
    exact if_neg hH

theorem forest_plant : (forest H G).plant r = forest H (insert r G) := by
  rw [Layout.plant, forest, forest, union_insert]

theorem forest_prune (hH : r ∉ H.roots) : (forest H G).prune r = forest H (G.erase r) := by
  rw [Layout.prune, forest, forest, erase_union_distrib, erase_eq_of_notMem hH]

/-! ### The pages of a guest -/

/-- The page a kernel pointer points into. -/
def pageOf (kva : Option Ptr) : Nat := kva.getD 0 / 512

theorem pageOf_some (p : Nat) : pageOf (some (p * 512)) = p := by
  rw [pageOf, Option.getD_some]
  omega

namespace Env

/-- The EPT root of a guest. -/
def root (v : Env) : Nat := pageOf v.envPml4e

/-- The page of its VMCS. -/
def vmcsPage (v : Env) : Nat := pageOf v.envVmxinfo.vmcs

/-- The pointers whose pages `env_guest_free` gives up. -/
def heldPtrs (v : Env) : List (Option Ptr) :=
  [v.envVmxinfo.vmcs, v.envVmxinfo.msrHostArea, v.envVmxinfo.ioBmapA, v.envVmxinfo.ioBmapB]

def held (v : Env) : List Nat := v.heldPtrs.map pageOf

/-- The references a guest holds to a page; `env_guest_free` gives up all but one to the VMCS. -/
def owed (v : Env) (p : Nat) : Nat := v.held.count p + one (v.vmcsPage = p)

def IsLiveGuest (v : Env) : Prop := v.envStatus ≠ .free ∧ v.envType = .guest

instance : DecidablePred IsLiveGuest := fun _ => inferInstanceAs (Decidable (_ ∧ _))

end Env

/-- The pointers of a guest point to pages. -/
structure GuestEnv (v : Env) (npages : Nat) : Prop where
  pml4e : v.envPml4e = some (v.root * 512)
  cr3 : v.envCr3 = page2pa v.root
  ptrs : ∀ o ∈ v.heldPtrs, o = some (pageOf o * 512)
  lt : ∀ p ∈ v.held, p < npages

/-- The live guests of a kernel state. -/
def liveGuests (k : Kernel) : Finset EnvIx := Finset.univ.filter fun e => (k.envs e).IsLiveGuest

def guestRoots (k : Kernel) : Finset Nat := (liveGuests k).image fun e => (k.envs e).root

/-- The references that the guests hold to a page. -/
def structs (k : Kernel) (p : Nat) : Nat := ∑ e ∈ liveGuests k, (k.envs e).owed p

/-- **The invariant.** -/
structure KInv (H : Layout 512) (k : Kernel) : Prop where
  acct : ∃ A extra L, Acct (forestReading H) (forest H (guestRoots k)) A extra k.pm L ∧
    ∀ p, structs k p ≤ extra p
  guest : ∀ e ∈ liveGuests k, GuestEnv (k.envs e) k.pm.npages
  apart : ∀ e ∈ liveGuests k, (k.envs e).root ∉ H.roots
  inj : ∀ e ∈ liveGuests k, ∀ e' ∈ liveGuests k, (k.envs e).root = (k.envs e').root → e = e'
  /-- An environment that is not a guest has no guest memory. -/
  sized : ∀ e, (k.envs e).envStatus ≠ .free → (k.envs e).envType ≠ .guest →
    (k.envs e).envVmxinfo.physSz = 0
  cur : ∀ e, k.curenv = some e → (k.envs e).envStatus ≠ .free
  free : ∃ l, Chain (fun e => (k.envs e).envLink) k.envFreeList l ∧
    ∀ e ∈ l, (k.envs e).envStatus = .free

variable {k k' : Kernel} {e : EnvIx} {s' : Pmap} {v : Env}

theorem mem_liveGuests : e ∈ liveGuests k ↔ (k.envs e).IsLiveGuest := by
  simp [liveGuests]

theorem KInv.eptRoot (h : KInv H k) (he : e ∈ liveGuests k) :
    EptRoot (forestReading H) (forest H (guestRoots k)) (k.envs e).root :=
  forest_eptRoot (mem_image_of_mem _ he) (h.apart e he)

/-- Steps that change memory only. -/
theorem KInv.withPm (h : KInv H k) (hnp : s'.npages = k.pm.npages)
    (hacct : ∃ A extra L, Acct (forestReading H) (forest H (guestRoots k)) A extra s' L ∧
      ∀ p, structs k p ≤ extra p) : KInv H (k.withPm s') where
  acct := hacct
  guest e he := by
    rw [Kernel.withPm_pm, hnp]
    exact h.guest e he
  apart := h.apart
  inj := h.inj
  sized := h.sized
  cur := h.cur
  free := h.free

/-! ### One environment changes -/

theorem setEnv_of_ne {e' : EnvIx} (h : e' ≠ e) : (k.setEnv e v).envs e' = k.envs e' :=
  update_of_ne h ..

theorem setEnv_self : (k.setEnv e v).envs e = v := update_self ..

/-- What the new value of an environment has in common with the old one is unchanged. -/
theorem setEnv_congr {β : Type} (f : Env → β) (hf : f v = f (k.envs e)) (e' : EnvIx) :
    f ((k.setEnv e v).envs e') = f (k.envs e') := by
  by_cases he : e' = e
  · subst he
    rw [setEnv_self, hf]
  · rw [setEnv_of_ne he]

/-- The links of the environment table after a change. -/
theorem links_setEnv : (fun e' => ((k.setEnv e v).envs e').envLink) =
    update (fun e' => (k.envs e').envLink) e v.envLink := by
  funext e'
  by_cases he : e' = e
  · subst he
    rw [setEnv_self, update_self]
  · rw [setEnv_of_ne he, update_of_ne he]

/-- An environment that is no live guest before and after. -/
theorem liveGuests_setEnv_of_not (hv : ¬ v.IsLiveGuest) :
    liveGuests (k.setEnv e v) = (liveGuests k).erase e := by
  ext e'
  rw [mem_erase, mem_liveGuests, mem_liveGuests]
  by_cases he : e' = e
  · subst he
    simp [setEnv_self, hv]
  · simp [setEnv_of_ne he, he]

theorem liveGuests_setEnv (hv : v.IsLiveGuest) :
    liveGuests (k.setEnv e v) = insert e (liveGuests k) := by
  ext e'
  rw [mem_insert, mem_liveGuests, mem_liveGuests]
  by_cases he : e' = e
  · subst he
    simp [setEnv_self, hv]
  · simp [setEnv_of_ne he, he]

theorem structs_erase (he : e ∈ liveGuests k) (hv : ¬ v.IsLiveGuest) (p : Nat) :
    structs k p = (k.envs e).owed p + structs (k.setEnv e v) p := by
  rw [structs, structs, liveGuests_setEnv_of_not hv, ← add_sum_erase _ _ he]
  refine congrArg _ (sum_congr rfl fun e' he' => ?_)
  rw [setEnv_of_ne (ne_of_mem_erase he')]

theorem structs_insert (he : e ∉ liveGuests k) (hv : v.IsLiveGuest) (p : Nat) :
    structs (k.setEnv e v) p = v.owed p + structs k p := by
  rw [structs, structs, liveGuests_setEnv hv, sum_insert he, setEnv_self]
  refine congrArg _ (sum_congr rfl fun e' he' => ?_)
  rw [setEnv_of_ne (by rintro rfl; exact he he')]

theorem guestRoots_insert (he : e ∉ liveGuests k) (hv : v.IsLiveGuest) :
    guestRoots (k.setEnv e v) = insert v.root (guestRoots k) := by
  rw [guestRoots, guestRoots, liveGuests_setEnv hv, image_insert, setEnv_self]
  refine congrArg _ (image_congr fun e' he' => ?_)
  show ((k.setEnv e v).envs e').root = _
  rw [setEnv_of_ne (by rintro rfl; exact he he')]

theorem KInv.guestRoots_erase (h : KInv H k) (he : e ∈ liveGuests k) (hv : ¬ v.IsLiveGuest) :
    guestRoots (k.setEnv e v) = (guestRoots k).erase (k.envs e).root := by
  ext r
  rw [guestRoots, guestRoots, liveGuests_setEnv_of_not hv, mem_erase, mem_image, mem_image]
  constructor
  · rintro ⟨e', he', rfl⟩
    obtain ⟨hne, he'⟩ := Finset.mem_erase.mp he'
    rw [setEnv_of_ne hne]
    exact ⟨fun hr => hne (h.inj e' he' e he hr), e', he', rfl⟩
  · rintro ⟨hr, e', he', rfl⟩
    have hne : e' ≠ e := by rintro rfl; exact hr rfl
    exact ⟨e', Finset.mem_erase.mpr ⟨hne, he'⟩, by rw [setEnv_of_ne hne]⟩

/-- A live guest before and after, with the same pages. -/
structure SameGuest (v v' : Env) : Prop where
  live : v'.IsLiveGuest
  link : v'.envLink = v.envLink
  pml4e : v'.envPml4e = v.envPml4e
  cr3 : v'.envCr3 = v.envCr3
  ptrs : v'.heldPtrs = v.heldPtrs

namespace SameGuest

variable {v' : Env}

section

variable (h : SameGuest v v')
include h

theorem root : v'.root = v.root := congrArg pageOf h.pml4e

theorem vmcsPage : v'.vmcsPage = v.vmcsPage :=
  congrArg pageOf (List.cons.inj h.ptrs).1

theorem held : v'.held = v.held := congrArg (List.map pageOf) h.ptrs

theorem guestEnv {n : Nat} (hg : GuestEnv v n) : GuestEnv v' n where
  pml4e := by rw [h.pml4e, h.root, hg.pml4e]
  cr3 := by rw [h.cr3, h.root, hg.cr3]
  ptrs := h.ptrs ▸ hg.ptrs
  lt := h.held ▸ hg.lt

end

end SameGuest

/-- Steps that change what the invariant does not speak about: registers, the size of the guest's
memory, whether it may run. -/
theorem KInv.touch (h : KInv H k) (he : e ∈ liveGuests k) (hv : SameGuest (k.envs e) v) :
    KInv H (k.setEnv e v) := by
  have hlive : liveGuests (k.setEnv e v) = liveGuests k := by
    rw [liveGuests_setEnv hv.live, insert_eq_of_mem he]
  have hroot := setEnv_congr Env.root hv.root
  have hroots : guestRoots (k.setEnv e v) = guestRoots k := by
    rw [guestRoots, hlive]
    exact image_congr fun e' _ => hroot e'
  have hstructs : structs (k.setEnv e v) = structs k := by
    funext p
    rw [structs, hlive]
    refine sum_congr rfl fun e' _ => setEnv_congr (fun v => v.owed p) ?_ e'
    simp only [Env.owed, hv.held, hv.vmcsPage]
  exact
    { acct := by rw [hroots, hstructs]; exact h.acct
      guest := fun e' he' => by
        rw [hlive] at he'
        by_cases hne : e' = e
        · subst hne
          rw [setEnv_self]
          exact hv.guestEnv (h.guest e' he')
        · rw [setEnv_of_ne hne]
          exact h.guest e' he'
      apart := fun e' he' => by
        rw [hroot]
        exact h.apart e' (hlive ▸ he')
      inj := fun e1 h1 e2 h2 => by
        rw [hroot, hroot]
        exact h.inj e1 (hlive ▸ h1) e2 (hlive ▸ h2)
      sized := fun e' => by
        by_cases hne : e' = e
        · subst hne
          rw [setEnv_self]
          exact fun _ ht => absurd hv.live.2 ht
        · rw [setEnv_of_ne hne]
          exact h.sized e'
      cur := fun e' he' => by
        by_cases hne : e' = e
        · subst hne
          rw [setEnv_self]
          exact hv.live.1
        · rw [setEnv_of_ne hne]
          exact h.cur e' he'
      free := by
        obtain ⟨l, hl, hfree⟩ := h.free
        refine ⟨l, ?_, fun e' he' => ?_⟩
        · rw [links_setEnv, hv.link, update_eq_self e (fun e' => (k.envs e').envLink)]
          exact hl
        · rw [setEnv_of_ne (by rintro rfl; exact (mem_liveGuests.mp he).1 (hfree e' he'))]
          exact hfree e' he' }

end JosVmm
