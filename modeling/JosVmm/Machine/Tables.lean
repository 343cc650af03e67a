import JosVmm.Machine.Pages

/-!
# Machine — Tables

The four-level page tables of `kern/pmap.c` and the extended page tables of `vmm/ept.c`, which
share the walkers.  `pml4e_walk`, `pdpe_walk` and `pgdir_walk` are one level of walk each
(`walkLevel`) at their own index field.

`ept_lookup_gpa` and `ept_page_insert` index a pointer that is already indexed: `pdpe` is moved
to `&pdpe[PDPE(gpa)]` and then indexed by `PDPE(gpa)` again, and the slot `pml4e_walk` returns is
indexed by `PTX(gpa)` again.  The model keeps both, with the pointer arithmetic of the source: a
doubled index of `512` or more falls into the next physical page.
-/

namespace JosVmm

/-! ### The walkers -/

/-- One level of a walk: entry `i` of the table at `tbl` is followed with `next`, which is given
the physical address of the next table.  With `create` set a missing table is allocated, and
taken back when `next` fails. -/
def walkLevel (next : Word → Pm (Option Ptr)) (tbl : Ptr) (i : Fin 512) (create : Bool) :
    Pm (Option Ptr) := do
  let e ← load (tbl + i)
  if e &&& pteP = 0 ∧ create = true then
    match ← pageAlloc true with
    | none => pure none
    | some page =>
      incRef page
      store (tbl + i) (page2pa page ||| pteU ||| pteW ||| pteP)
      let e' ← load (tbl + i)
      match ← next (pteAddr e') with
      | some pte => pure (some pte)
      | none =>
        store (tbl + i) 0
        pageDecref page
        pure none
  else if e &&& pteP ≠ 0 then
    next (pteAddr e)
  else
    pure none

/-- `pgdir_walk`: the entry of the last-level table itself is the result. -/
def pgdirWalk (pgdir : Ptr) (va : Word) (create : Bool) : Pm (Option Ptr) :=
  walkLevel (fun pa => do return some (← kaddr (pa + 8#64 * BitVec.ofNat 64 (ptx va))))
    pgdir (pdx va) create

/-- `pdpe_walk`. -/
def pdpeWalk (pdpe' : Ptr) (va : Word) (create : Bool) : Pm (Option Ptr) :=
  walkLevel (fun pa => do pgdirWalk (← kaddr pa) va create) pdpe' (pdpe va) create

/-- `pml4e_walk`; `none` is the null pointer. -/
def pml4eWalk (pml4e : Option Ptr) (va : Word) (create : Bool) : Pm (Option Ptr) :=
  match pml4e with
  | none => pure none
  | some tbl => walkLevel (fun pa => do pdpeWalk (← kaddr pa) va create) tbl (pml4 va) create

/-! ### Host page tables -/

/-- `page_lookup`: the page mapped at `va` and the address of its entry. -/
def pageLookup (pml4e : Option Ptr) (va : Word) : Pm (Option (Nat × Ptr)) := do
  match ← pml4eWalk pml4e va false with
  | none => pure none
  | some pte =>
    let e ← load pte
    if e &&& pteP ≠ 0 then
      return some (← pa2page (pteAddr e), pte)
    else
      pure none

/-- `page_remove`. -/
def pageRemove (pml4e : Option Ptr) (va : Word) : Pm Unit := do
  match ← pageLookup pml4e va with
  | none => pure ()
  | some (page, pte) =>
    pageDecref page
    store pte 0

/-- The three upper entries on the way to `va`, or'ed with `g`. -/
def orUpper (tbl : Ptr) (va g : Word) : Pm Unit := do
  store (tbl + pml4 va) ((← load (tbl + pml4 va)) ||| g)
  let pdpt ← kaddr (pteAddr (← load (tbl + pml4 va)))
  store (pdpt + pdpe va) ((← load (pdpt + pdpe va)) ||| g)
  let pd ← kaddr (pteAddr (← load (pdpt + pdpe va)))
  store (pd + pdx va) ((← load (pd + pdx va)) ||| g)

/-- The three upper entries on the way to `va`, or'ed with `perm & ~PTE_AVAIL`. -/
def grantUpper (tbl : Ptr) (va : Word) (perm : BitVec 32) : Pm Unit := do
  let g := (perm &&& ~~~pteAvail).signExtend 64
  store (tbl + pml4 va) ((← load (tbl + pml4 va)) ||| g)
  let pdpt ← kaddr (pteAddr (← load (tbl + pml4 va)))
  store (pdpt + pdpe va) ((← load (pdpt + pdpe va)) ||| g)
  let pd ← kaddr (pteAddr (← load (pdpt + pdpe va)))
  store (pd + pdx va) ((← load (pd + pdx va)) ||| g)

/-- The leaf entry `page_insert` writes. -/
def pteLeaf (pp : Nat) (perm : BitVec 32) : Word := page2pa pp ||| perm.signExtend 64 ||| pteP

/-- The last part of `page_insert`: the entry `pte` of `va` is made to map `pp`. -/
def pageMap (tbl pte : Ptr) (pp : Nat) (va : Word) (perm : BitVec 32) : Pm Unit := do
  let e ← load pte
  if e &&& pteP ≠ 0 ∧ page2pa pp = pteAddr e then
    store pte (pteAddr e ||| perm.signExtend 64 ||| pteP)
  else
    if e &&& pteP ≠ 0 then
      pageRemove (some tbl) va
    incRef pp
    store pte (pteLeaf pp perm)

/-- `page_insert`. -/
def pageInsert (pml4e : Option Ptr) (pp : Option Nat) (va : Word) (perm : BitVec 32) :
    Pm (Except Err Unit) := do
  match pml4e, pp with
  | some tbl, some pp =>
    match ← pml4eWalk (some tbl) va true with
    | none => return .error .noMem
    | some pte =>
      grantUpper tbl va perm
      pageMap tbl pte pp va perm
      return .ok ()
  | _, _ => return .error .noMem

/-! ### Extended page tables -/

/-- The upper entries on the way to `gpa` as `ept_lookup_gpa` rewrites them, with full
permissions.  The pointer `pdpte` is already indexed by `PDPE(gpa)` when it is indexed again. -/
def eptUpper (tbl : Ptr) (gpa : Word) : Pm Unit := do
  let pdpt ← kaddr (pteAddr (← load (tbl + pml4 gpa)))
  let pdpte := pdpt + pdpe gpa
  let pd ← kaddr (pteAddr (← load pdpte))
  store (tbl + pml4 gpa) (pteAddr (← load (tbl + pml4 gpa)) ||| epteFull)
  store (pdpte + pdpe gpa) (pteAddr (← load (pdpte + pdpe gpa)) ||| epteFull)
  store (pd + pdx gpa) (pteAddr (← load (pd + pdx gpa)) ||| epteFull)

/-- `ept_lookup_gpa`, with the entry's address as the result. -/
def eptLookupGpa (eptrt : Option Ptr) (gpa : Word) (create : Bool) : Pm (Except Err Ptr) := do
  match eptrt with
  | none => return .error .inval
  | some tbl =>
    match ← pml4eWalk (some tbl) gpa create with
    | none => return .error .noEnt
    | some pte =>
      eptUpper tbl gpa
      return .ok pte

/-- The leaf entry `ept_page_insert` writes. -/
def eptLeaf (pp : Nat) (perm : BitVec 32) : Word :=
  page2pa pp ||| perm.signExtend 64 ||| epteIpat ||| epteType epteTypeWb

/-- `ept_page_insert`.  A failed lookup is reported as success. -/
def eptPageInsert (eptrt : Option Ptr) (pp : Nat) (gpa : Word) (perm : BitVec 32)
    (overwrite : Bool) : Pm (Except Err Unit) := do
  match ← eptLookupGpa eptrt gpa true with
  | .ok epteOut =>
    if (← load epteOut) ≠ 0 then
      if overwrite = false then
        return .error .inval
      else
        store (epteOut + ptx gpa) (eptLeaf pp perm)
    else
      store (epteOut + ptx gpa) (eptLeaf pp perm)
    return .ok ()
  | .error _ => return .ok ()

/-- `ept_gpa2hva`. -/
def eptGpa2hva (eptrt : Option Ptr) (gpa : Word) : Pm (Option Ptr) := do
  match ← eptLookupGpa eptrt gpa false with
  | .error _ => return none
  | .ok pte =>
    let e ← load pte
    if eptePresent e = false then
      return none
    else
      return some (← kaddr (epteAddr e))

/-- `free_ept_level`. -/
def freeEptLevel : Nat → Ptr → Pm Unit
  | 0, dir => (List.range nptentries).forM fun i => do
    let e ← load (dir + i)
    if eptePresent e then
      pageDecref (← pa2page (epteAddr e))
  | level + 1, dir => (List.range nptentries).forM fun i => do
    let e ← load (dir + i)
    if eptePresent e then
      let pa := epteAddr e
      freeEptLevel level (← kaddr pa)
      pageDecref (← pa2page pa)

/-- `EPT_LEVELS`. -/
def eptLevels : Nat := 4

/-- `free_guest_mem`. -/
def freeGuestMem (eptrt : Ptr) : Pm Unit := freeEptLevel (eptLevels - 1) eptrt

end JosVmm
