import JosVmm.Pmap.Upper

/-!
# Extended page tables — insertion

`eptPageInsert_spec` says what one `ept_page_insert` does when `PDPE(gpa)` is zero and `PTX(gpa)`
is below 256, the addresses for which the doubled indexes stay in the tables of `gpa`: it either
grows the tables and writes entry `2 * PTX(gpa)` of the last one, or reports the entry as taken,
or runs out of pages and reports success with nothing changed.

`eptWalk` follows the tables independently, level by level.  Where both indexes are zero the
entry written is the entry of `gpa`, and insertion updates the map that `eptWalk` reads and
nothing else (`eptPageInsert_updates`).
-/

namespace JosVmm
open Support Support.Radix Support.Prog BitVec Pmap

variable {F : Layout 512} {s s' : Pmap} {L L' new : List Nat} {r t t₁ t₂ u : Nat} {v : Vpn}
  {gpa : Word}

/-- The tables on the way to `v`, linked by entries with full permissions. -/
structure FullPath (s : Pmap) (r : Nat) (v : Vpn) (t₁ t₂ u : Nat) : Prop where
  pml4e : s.mem (slot r v.1) = page2pa t₁ ||| epteFull
  pdpe : s.mem (slot t₁ v.2.1) = page2pa t₂ ||| epteFull
  pde : s.mem (slot t₂ v.2.2.1) = page2pa u ||| epteFull

/-- A last-level store leaves the path to it alone. -/
theorem FullPath.setLeaf (hf : FullPath s r v t₁ t₂ u) (hp : Path s r v t₁ t₂ u) (h : Wf F s L)
    (hn : F.Node r v.path) (j : Fin 512) (w : Word) :
    FullPath (s.setWord (slot u j) w) r v t₁ t₂ u := by
  obtain ⟨n1, n2, n3⟩ := hp.slots_ne_leaf h hn j
  exact ⟨(setWord_of_ne n1).trans hf.pml4e, (setWord_of_ne n2).trans hf.pdpe,
    (setWord_of_ne n3).trans hf.pde⟩

section

variable (h : Wf F s L) (hn : F.Node r (vpn gpa).path) (h0 : pdpe gpa = 0)
include h hn h0

/-- **What a creating `ept_lookup_gpa` does.** -/
theorem eptLookupGpa_create :
    (missing dec s.mem r (vpn gpa).path ≤ L.length → ∃ s' new L' t₁ t₂ u, L = new ++ L' ∧
      new.length = missing dec s.mem r (vpn gpa).path ∧
      (eptLookupGpa (some (r * 512)) gpa true).run s = .ok (.ok (slot u (ptx gpa)), s') ∧
      Grown F s s' new L' ∧ Path s' r (vpn gpa) t₁ t₂ u ∧ FullPath s' r (vpn gpa) t₁ t₂ u) ∧
    (L.length < missing dec s.mem r (vpn gpa).path → ∃ m,
      (eptLookupGpa (some (r * 512)) gpa true).run s = .ok (.error .noEnt, s.withMem m) ∧
      ∀ a, a / 512 ∉ L → m a = s.mem a) := by
  obtain ⟨hok, hfail⟩ := pml4eWalk_create h hn
  simp only [eptLookupGpa]
  refine ⟨fun hle => ?_, fun hlt => ?_⟩
  · obtain ⟨s1, new, L', u, rfl, hlen, hrun, hg, hu⟩ := hok hle
    obtain ⟨t₁, t₂, hp⟩ := tab_path_iff.mp hu
    obtain ⟨-, lt1, lt2, lt3⟩ := hp.lt hg.wf hn
    obtain ⟨hg', hp'⟩ := hg.upper hn hp (dec_full (lt_two_pow_52 lt1))
      (dec_full (lt_two_pow_52 lt2)) (dec_full (lt_two_pow_52 lt3))
    obtain ⟨m₁, m₂, m3⟩ := hp.upper_mem hg.wf hn (page2pa t₁ ||| epteFull)
      (page2pa t₂ ||| epteFull) (page2pa u ||| epteFull)
    refine ⟨_, new, L', t₁, t₂, u, rfl, hlen, ?_, hg', hp', m₁, m₂, m3⟩
    rw [bind_ok hrun]
    simp only []
    rw [bind_ok (eptUpper_run hg.wf hn hp h0)]
    rfl
  · obtain ⟨m, hrun, hm⟩ := hfail hlt
    refine ⟨m, ?_, hm⟩
    rw [bind_ok hrun]
    rfl

/-- **What `ept_lookup_gpa` does at an address whose tables are there.** -/
theorem eptLookupGpa_find (hp : Path s r (vpn gpa) t₁ t₂ u) : ∃ s',
      (eptLookupGpa (some (r * 512)) gpa false).run s = .ok (.ok (slot u (ptx gpa)), s') ∧
      Grown F s s' [] L := by
  obtain ⟨hr, lt1, lt2, lt3⟩ := hp.lt h hn
  have hfind : (pml4eWalk (some (r * 512)) gpa false).run s = .ok (some (slot u (ptx gpa)), s) := by
    rw [pml4eWalk_find gpa hr fun ρ c ⟨σ, e⟩ hc => h.tab_lt (Layout.Node.of_append (e ▸ hn)) hc,
      entryAt, hp.tab₃]
    rfl
  refine ⟨_, ?_, ((Grown.refl h).upper hn hp (dec_full (lt_two_pow_52 lt1))
    (dec_full (lt_two_pow_52 lt2)) (dec_full (lt_two_pow_52 lt3))).1⟩
  simp only [eptLookupGpa]
  rw [bind_ok hfind]
  simp only []
  rw [bind_ok (eptUpper_run h hn hp h0)]
  rfl

end

/-- **What `ept_page_insert` does**, for an address whose doubled indexes stay in its tables. -/
theorem eptPageInsert_spec (pp : Nat) (perm : BitVec 32) (overwrite : Bool) (h : Wf F s L)
    (hn : F.Node r (vpn gpa).path) (h0 : pdpe gpa = 0) (hx : (ptx gpa : Nat) < 256) :
    (missing dec s.mem r (vpn gpa).path ≤ L.length → ∃ s1 new L' t₁ t₂ u, L = new ++ L' ∧
      new.length = missing dec s.mem r (vpn gpa).path ∧
      Grown F s s1 new L' ∧ Path s1 r (vpn gpa) t₁ t₂ u ∧ FullPath s1 r (vpn gpa) t₁ t₂ u ∧
      (eptPageInsert (some (r * 512)) pp gpa perm overwrite).run s =
        if s1.mem (slot u (ptx gpa)) ≠ 0 ∧ overwrite = false then .ok (.error .inval, s1)
        else .ok (.ok (), s1.setWord (slot u (ptx gpa + ptx gpa)) (eptLeaf pp perm))) ∧
    (L.length < missing dec s.mem r (vpn gpa).path → ∃ m,
      (eptPageInsert (some (r * 512)) pp gpa perm overwrite).run s = .ok (.ok (), s.withMem m) ∧
      ∀ a, a / 512 ∉ L → m a = s.mem a) := by
  obtain ⟨hok, hfail⟩ := eptLookupGpa_create h hn h0
  simp only [eptPageInsert]
  refine ⟨fun hle => ?_, fun hlt => ?_⟩
  · obtain ⟨s1, new, L', t₁, t₂, u, rfl, hlen, hrun, hg, hp, hf⟩ := hok hle
    refine ⟨s1, new, L', t₁, t₂, u, rfl, hlen, hg, hp, hf, ?_⟩
    have hlt : u < s1.npages := (hp.lt hg.wf hn).2.2.2
    have hdbl : slot u (ptx gpa) + (ptx gpa : Nat) = slot u (ptx gpa + ptx gpa) := by
      rw [slot, slot, Fin.val_add, Nat.mod_eq_of_lt (by omega)]
      omega
    have hst : (store (slot u (ptx gpa) + ptx gpa) (eptLeaf pp perm)).run s1 =
        .ok ((), s1.setWord (slot u (ptx gpa + ptx gpa)) (eptLeaf pp perm)) := by
      rw [hdbl]
      exact store_run (slot_lt hlt _) _
    rw [bind_ok hrun]
    simp only []
    rw [bind_ok (load_run (slot_lt hlt _))]
    by_cases he : s1.mem (slot u (ptx gpa)) = 0
    · rw [if_neg (not_not.mpr he), if_neg (fun c => c.1 he), bind_ok hst]
      rfl
    · cases overwrite with
      | false =>
        rw [if_pos he, if_pos rfl, if_pos ⟨he, rfl⟩]
        rfl
      | true =>
        rw [if_pos he, if_neg Bool.noConfusion, if_neg (fun c => Bool.noConfusion c.2), bind_ok hst]
        rfl
  · obtain ⟨m, hrun, hm⟩ := hfail hlt
    refine ⟨m, ?_, hm⟩
    rw [bind_ok hrun]
    rfl

/-! ### The entry written -/

/-- The flags of a leaf entry with permissions `perm`. -/
def leafFlags (perm : BitVec 32) : Word :=
  perm.setWidth 64 ||| epteIpat ||| epteType epteTypeWb

theorem eptLeaf_eq (pp : Nat) : ∀ {perm : BitVec 32}, perm.toNat < 8 →
    eptLeaf pp perm = page2pa pp ||| leafFlags perm ∧ (leafFlags perm).toNat < 4096 := by
  intro perm h
  have hm : perm.msb = false := by
    rw [msb_eq_decide]
    simp only [decide_eq_false_iff_not]
    omega
  constructor
  · rw [eptLeaf, leafFlags, signExtend_eq_setWidth_of_msb_false hm, BitVec.or_assoc,
      BitVec.or_assoc, BitVec.or_assoc]
  · have h1 : (perm.setWidth 64).toNat < 2 ^ 12 := by
      rw [toNat_setWidth]
      omega
    rw [leafFlags, toNat_or, toNat_or]
    exact Nat.or_lt_two_pow (Nat.or_lt_two_pow h1 (by decide)) (by decide)

theorem epteAddr_leaf {pp : Nat} {perm : BitVec 32} (hp : pp < 2 ^ 52) (h : perm.toNat < 8) :
    epteAddr (eptLeaf pp perm) = page2pa pp := by
  rw [(eptLeaf_eq pp h).1]
  exact pteAddr_page2pa_or hp (eptLeaf_eq pp h).2

/-- The page that the insertion at `gpa` writes the entry of. -/
def doubled (gpa : Word) : Vpn := (pml4 gpa, pdpe gpa, pdx gpa, ptx gpa + ptx gpa)

/-- The addresses whose doubled indexes stay in their own tables. -/
def InTables (gpa : Word) : Prop := pdpe gpa = 0 ∧ (ptx gpa : Nat) < 256

instance : DecidablePred InTables := fun _ => inferInstanceAs (Decidable (_ ∧ _))

section

variable (h : Wf F s L) (hn : F.Node r (vpn gpa).path) (hx : InTables gpa)
include h hn hx

/-- **What a run of `ept_page_insert` did**: it ran out of pages for tables and left them alone,
or it grew them and found the entry taken, or wrote entry `2 * PTX(gpa)`. -/
theorem eptPageInsert_cases {pp : Nat} {perm : BitVec 32} {overwrite : Bool} {res : Except Err Unit}
    (hrun : (eptPageInsert (some (r * 512)) pp gpa perm overwrite).run s = .ok (res, s')) :
    (∃ m, res = .ok () ∧ s' = s.withMem m ∧ ∀ a, a / 512 ∉ L → m a = s.mem a) ∨
    ∃ s1 new L' u, L = new ++ L' ∧ Grown F s s1 new L' ∧ tab s1 r (vpn gpa).path = some u ∧
      (res = .error .inval ∧ s' = s1 ∨
        res = .ok () ∧ s' = s1.setWord (slot u (ptx gpa + ptx gpa)) (eptLeaf pp perm)) := by
  obtain ⟨hok, hfail⟩ := eptPageInsert_spec pp perm overwrite h hn hx.1 hx.2
  rcases Nat.lt_or_ge L.length (missing dec s.mem r (vpn gpa).path) with hlt | hle
  · obtain ⟨m, hm, hag⟩ := hfail hlt
    cases hm.symm.trans hrun
    exact .inl ⟨m, rfl, rfl, hag⟩
  · obtain ⟨s1, new, L', t₁, t₂, u, hL, -, hg, hp, -, hm⟩ := hok hle
    refine .inr ⟨s1, new, L', u, hL, hg, hp.tab₃, ?_⟩
    rw [hrun] at hm
    split at hm
    · cases hm
      exact .inl ⟨rfl, rfl⟩
    · cases hm
      exact .inr ⟨rfl, rfl⟩

/-- A page that is neither a table nor free keeps its contents. -/
theorem eptPageInsert_frame {pp p a : Nat} {perm : BitVec 32} {overwrite : Bool}
    {res : Except Err Unit}
    (hrun : (eptPageInsert (some (r * 512)) pp gpa perm overwrite).run s = .ok (res, s'))
    (hL : p ∉ L) (hT : ¬ F.IsTable dec s.mem p) (ha : a / 512 = p) : s'.mem a = s.mem a := by
  subst ha
  obtain ⟨m, -, rfl, hm⟩ | ⟨s1, new, L', u, rfl, hg, hu, hres⟩ := eptPageInsert_cases h hn hx hrun
  · exact hm a hL
  · have hnew : a / 512 ∉ new := fun hp => hL (List.mem_append_left L' hp)
    have hs1 : s1.mem a = s.mem a := hg.frame a hnew hT
    obtain ⟨-, rfl⟩ | ⟨-, rfl⟩ := hres
    · exact hs1
    · have hT1 : ¬ F.IsTable dec s1.mem (a / 512) := fun hp =>
        (hg.isTable_iff.mp hp).elim hT hnew
      refine (setWord_of_ne fun e => hT1 ?_).trans hs1
      rw [e, slot_div]
      exact ⟨r, _, hn, hu⟩

end

/-! ### An independent walk -/

/-- The present entries met from the table `t` at `level` down to level 0: the interior ones,
and the last-level one. -/
def eptWalk (mem : Nat → Word) (gpa : Word) : Nat → Nat → Option (List Word × Word)
  | 0, t =>
    let e := mem (slot t (addrToIdx gpa 0))
    if eptePresent e then some ([], e) else none
  | level + 1, t =>
    let e := mem (slot t (addrToIdx gpa (level + 1)))
    if eptePresent e then
      (eptWalk mem gpa level (ppn (epteAddr e))).map fun (up, leaf) => (e :: up, leaf)
    else none

/-- The entry that translates `gpa`. -/
def eptTranslate (s : Pmap) (r : Nat) (gpa : Word) : Option Word :=
  (eptWalk s.mem gpa (eptLevels - 1) r).map Prod.snd

theorem epteAddr_eq (e : Word) : epteAddr e = pteAddr e := rfl

theorem eptePresent_iff (e : Word) : eptePresent e = true ↔ e &&& epteFull ≠ 0 := by
  rw [eptePresent, decide_eq_true_iff]
  constructor
  · rintro h hz
    rw [hz] at h
    exact absurd h (by decide)
  · intro h
    have : (e &&& epteFull).toNat ≠ 0 := fun hz => h (eq_of_toNat_eq hz)
    rw [lt_def]
    exact Nat.pos_of_ne_zero this

theorem eptePresent_of_dec {e : Word} (h : dec e = some t) : eptePresent e = true := by
  rw [eptePresent_iff]
  intro hz
  refine (dec_eq_some.mp h).1 ((and_pteP_eq_zero e).mpr ?_)
  have h₀ := congrArg (fun x : Word => x.getLsbD 0) hz
  rw [getLsbD_and] at h₀
  simpa [epteFull, epteRead, epteWrite, epteExec] using h₀

/-- In a well-formed forest `epte_present` and `PTE_P` follow the same interior entries. -/
theorem eptWalk_succ {π : List (Fin 512)} {level : Nat} (h : Wf F s L)
    (hn : F.Node r (π ++ [addrToIdx gpa (level + 1)])) (ht : tab s r π = some t) :
    eptWalk s.mem gpa (level + 1) t = (dec (s.mem (slot t (addrToIdx gpa (level + 1))))).bind
      fun c => (eptWalk s.mem gpa level c).map fun (up, leaf) =>
        (s.mem (slot t (addrToIdx gpa (level + 1))) :: up, leaf) := by
  rw [eptWalk]
  cases hd : dec (s.mem (slot t (addrToIdx gpa (level + 1)))) with
  | none =>
    rw [h.absent r π _ t hn ht hd]
    rfl
  | some c =>
    simp only [eptePresent_of_dec hd, if_true, epteAddr_eq, ppn_pteAddr, (dec_eq_some.mp hd).2]
    rfl

/-- The interior indexes of `gpa` from `level` down. -/
def interior (gpa : Word) : Nat → List (Fin 512)
  | 0 => []
  | level + 1 => addrToIdx gpa (level + 1) :: interior gpa level

/-- A last-level entry as a translation. -/
def present (e : Word) : Option Word := if eptePresent e then some e else none

theorem present_zero : present 0 = none := rfl

/-- The page a present EPT leaf maps. -/
def eptDec (e : Word) : Option Nat := (present e).map fun e => ppn (epteAddr e)

theorem eptDec_zero : eptDec 0 = none := rfl

theorem eptDec_eq_some {e : Word} {p : Nat} (h : eptDec e = some p) : ppn (epteAddr e) = p := by
  rw [eptDec, present] at h
  split at h
  · exact Option.some.inj h
  · cases h

/-- A present leaf that names `pp` by its address maps `pp`. -/
theorem eptDec_of_addr {e : Word} {pp p : Nat} (hpp : pp < 2 ^ 52) (ha : epteAddr e = page2pa pp)
    (h : eptDec e = some p) : p = pp := by
  rw [← eptDec_eq_some h, ha, ppn_page2pa hpp]

theorem eptWalk_interior (h : Wf F s L) : ∀ (level : Nat) (π : List (Fin 512)) (t : Nat),
    F.Node r (π ++ interior gpa level) → tab s r π = some t →
    (eptWalk s.mem gpa level t).map Prod.snd = (tab s t (interior gpa level)).bind fun u =>
      present (s.mem (slot u (ptx gpa)))
  | 0, π, t, _, _ => by
    rw [eptWalk, show addrToIdx gpa 0 = ptx gpa from rfl]
    show Option.map Prod.snd (if _ then _ else _) = present (s.mem (slot t (ptx gpa)))
    rw [present]
    split <;> rfl
  | level + 1, π, t, hn, ht => by
    have hpath : π ++ interior gpa (level + 1) =
        (π ++ [addrToIdx gpa (level + 1)]) ++ interior gpa level := by simp [interior]
    rw [hpath] at hn
    rw [eptWalk_succ h hn.of_append ht, interior, tab, tableAt]
    cases hd : dec (s.mem (slot t (addrToIdx gpa (level + 1)))) with
    | none => rfl
    | some c =>
      have hc : tab s r (π ++ [addrToIdx gpa (level + 1)]) = some c :=
        (tableAt_snoc_of ht _).trans hd
      rw [Option.bind_some, Option.bind_some, Option.map_map]
      exact eptWalk_interior h level _ c hn hc

/-- **The translation of `gpa` is its last-level entry**, if it is present. -/
theorem eptTranslate_eq (h : Wf F s L) (hn : F.Node r (vpn gpa).path) :
    eptTranslate s r gpa = (tab s r (vpn gpa).path).bind fun u =>
      present (s.mem (slot u (ptx gpa))) :=
  eptWalk_interior h 3 [] r hn rfl

end JosVmm
