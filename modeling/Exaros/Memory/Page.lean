import Exaros.Memory.Pte

/-!
# Physical pages and page tables

`kernel/memory/memory.c` and `cowHandler` over a record of the three things they edit: the words
of physical memory, `pages[].ref` and `freePageList`. A `u64 *` into a table is a page and a slot;
a `Page *` is the physical number of the page it manages. Functions thread the record explicitly.
An `i32` result stays an integer; a `panic` or a failed `assert` is an `Except` error, and a null
dereference is one too, as the kernel has no page mapped at zero.
-/

namespace Exaros

/-- The places where the modelled kernel stops for good. -/
inductive Panic where
  /-- `pa2PN`: the address lies below the managed memory -/
  | paTooLow
  /-- a load through a null pointer -/
  | nullDeref
  /-- `cowHandler`: "access denied" -/
  | accessDenied
  /-- `cowHandler`: no page for the copy -/
  | cowNoMem
  /-- `kmalloc`: more than a page asked for -/
  | kmallocSize
  /-- `kmalloc` on an empty free list returns an address computed from an unset pointer -/
  | kmallocNoMem
  /-- `paDecreaseRef`: `assert(page->ref == 0)` -/
  | paDecreaseRef
  /-- `passiveAlloc`: no page for the stack -/
  | stackNoMem
  /-- `passiveAlloc`: no segment covers the address, or no page for it -/
  | lazySegment
  /-- `do_mmap`: misaligned start, or the mmap heap ran into the stack -/
  | mmapAssert
  /-- `syscallBrk`: "Syscall brk remap" -/
  | brkRemap
  /-- `syscallMapMemory`: "Syscall mmap remap" -/
  | mmapRemap
  /-- `shmAt`: "shmAt before shmGet" -/
  | shmAtUnused
  /-- `shmAlloc`: "shm run out", or no page for the segment -/
  | shmRunOut
  /-- `setupProcess`: no page for the page directory -/
  | pgdirNoMem
  /-- `threadSetup`: no page for the kernel stack -/
  | kernelStackNoMem
  /-- `initUserMemory`: no page for the user stack -/
  | userStackNoMem
  /-- `userHandler`: "unknown page fault" -/
  | unknownPageFault
  /-- a loop over pages that the fuel of the model does not finish -/
  | endless
deriving DecidableEq, Repr

def E_NO_MEM : Int := 4

/-- Physical memory by page and 64-bit word, the reference counts and the free list. -/
structure Mem where
  ram : Ppn → Idx → BitVec 64
  ref : Ppn → BitVec 32
  freePageList : List Ppn

/-- A pointer into a page of words. -/
abbrev Slot := Ppn × Idx

namespace Mem

def read (m : Mem) (s : Slot) : Pte := m.ram s.1 s.2

/-- `*s = e`. -/
def write (m : Mem) (s : Slot) (e : Pte) : Mem :=
  { m with ram := fun p i => if p = s.1 ∧ i = s.2 then e else m.ram p i }

/-- Fill a whole page. -/
def setPage (m : Mem) (page : Ppn) (f : Idx → BitVec 64) : Mem :=
  { m with ram := fun p => if p = page then f else m.ram p }

/-- `page->ref++`. -/
def incRef (m : Mem) (page : Ppn) : Mem :=
  { m with ref := fun p => if p = page then m.ref p + 1 else m.ref p }

/-- `page->ref--`. -/
def decRef (m : Mem) (page : Ppn) : Mem :=
  { m with ref := fun p => if p = page then m.ref p - 1 else m.ref p }

/-- `LIST_INSERT_HEAD(&freePageList, page, link)`. -/
def pushFree (m : Mem) (page : Ppn) : Mem :=
  { m with freePageList := page :: m.freePageList }

end Mem

/-- Pages `n - 1` down to `k`, as head insertion in increasing order leaves them. -/
def pagesDown (k : Nat) : Nat → List Ppn
  | 0 => []
  | n + 1 => if k ≤ n then n :: pagesDown k n else []

/-- `freePageInit`: the image's pages are referenced once, all others are free. -/
def freePageInit (img : Image) (ram : Ppn → Idx → BitVec 64) : Mem :=
  { ram
    ref := fun p => if p < img.kernelEnd then 1 else 0
    freePageList := pagesDown img.kernelEnd END_PPN }

/-- `pageAlloc`: the first free page, cleared; `none` is `-E_NO_MEM`. -/
def pageAlloc (m : Mem) : Option (Ppn × Mem) :=
  match m.freePageList with
  | [] => none
  | page :: rest => some (page, { m with freePageList := rest }.setPage page fun _ => 0)

/-- `pageFree`. -/
def pageFree (page : Ppn) (m : Mem) : Int × Mem :=
  if m.ref page = 0 then (0, m.pushFree page) else (-1, m)

/-- One turn of the loop of `pageWalk`: the table below a slot, allocated if asked for. -/
def pageDescend (create : Bool) (pte : Slot) (m : Mem) : Except Int (Option Ppn) × Mem :=
  if pteValid (m.read pte) then (.ok (some (pte2Ppn (m.read pte))), m)
  else if create then
    match pageAlloc m with
    | none => (.error (-E_NO_MEM), m)
    | some (page, m) =>
      let m := (m.incRef page).write pte (page2Pte page ||| PTE_VALID_BIT)
      (.ok (some (pte2Ppn (m.read pte))), m)
  else (.ok none, m)

/-- The rest of `pageWalk` once the slot for the current level is known. -/
def pageWalkFrom (create : Bool) : List Idx → Slot → Mem → Except Int (Option Slot) × Mem
  | [], pte, m => (.ok (some pte), m)
  | i :: is, pte, m =>
    match pageDescend create pte m with
    | (.error r, m) => (.error r, m)
    | (.ok none, m) => (.ok none, m)
    | (.ok (some table), m) => pageWalkFrom create is (table, i) m

/-- `pageWalk`: the last-level slot of `va`, `none` for a null `*ppte`. -/
def pageWalk (pgdir : Ppn) (va : Nat) (create : Bool) (m : Mem) : Except Int (Option Slot) × Mem :=
  pageWalkFrom create [vaPpn va 1, vaPpn va 0] (pgdir, vaPpn va 2) m

/-- `pte2Page(pte)`. -/
def pte2Page (pte : Pte) : Except Panic Ppn :=
  if pte2Ppn pte < BASE_PPN then .error .paTooLow else .ok (pte2Ppn pte)

/-- `pageLookup`: the page `va` maps to and its slot. -/
def pageLookup (pgdir : Ppn) (va : Nat) (m : Mem) : Except Panic (Option (Ppn × Slot)) :=
  match (pageWalk pgdir va false m).1 with
  | .ok (some pte) =>
    if pteValid (m.read pte) then do
      let page ← pte2Page (m.read pte)
      return some (page, pte)
    else return none
  | _ => return none

/-- `pageRemove`. -/
def pageRemove (pgdir : Ppn) (va : Nat) (m : Mem) : Except Panic (Int × Mem) := do
  match ← pageLookup pgdir va m with
  | none => return (-1, m)
  | some (page, pte) => return (0, (pageFree page (m.decRef page)).2.write pte 0)

/-- The tail of `pageInsert`: make the tables, write the entry, count the page. -/
def pageInsertNew (pgdir : Ppn) (va : Nat) (pp : Ppn) (perm : Pte) (m : Mem) : Int × Mem :=
  match pageWalk pgdir va true m with
  | (.error r, m) => (r, m)
  | (.ok none, m) => (-1, m)
  | (.ok (some pte), m) => (0, (m.write pte (mkPte pp perm)).incRef pp)

/-- `pageInsert`. -/
def pageInsert (pgdir : Ppn) (va : Nat) (pp : Ppn) (perm : Pte) (m : Mem) : Except Panic (Int × Mem) := do
  let perm := perm ||| (PTE_ACCESSED_BIT ||| PTE_DIRTY_BIT)
  match (pageWalk pgdir va false m).1 with
  | .ok (some pte) =>
    if pteValid (m.read pte) then do
      let page ← pte2Page (m.read pte)
      if page ≠ pp then do
        let (_, m) ← pageRemove pgdir va m
        return pageInsertNew pgdir va pp perm m
      else return (0, m.write pte (mkPte pp perm))
    else return pageInsertNew pgdir va pp perm m
  | _ => return pageInsertNew pgdir va pp perm m

/-- The tail of `kernelPageMap`: make the tables and write the entry. -/
def kernelPageMapNew (pgdir : Ppn) (va : Nat) (pa : Ppn) (perm : Pte) (m : Mem) : Int × Mem :=
  match pageWalk pgdir va true m with
  | (.error r, m) => (r, m)
  | (.ok none, m) => (-1, m)
  | (.ok (some pte), m) => (0, m.write pte (mkPte pa perm))

/-- `kernelPageMap`: map a page without counting it. The aligned-down `va` and the page of `pa`
are what the walk reads of them anyway. -/
def kernelPageMap (pgdir : Ppn) (va : Nat) (pa : Ppn) (perm : Pte) (m : Mem) : Except Panic (Int × Mem) := do
  let perm := perm ||| (PTE_ACCESSED_BIT ||| PTE_DIRTY_BIT)
  match (pageWalk pgdir va false m).1 with
  | .ok (some pte) =>
    if pteValid (m.read pte) then do
      let (_, m) ← pageRemove pgdir va m
      return kernelPageMapNew pgdir va pa perm m
    else return kernelPageMapNew pgdir va pa perm m
  | _ => return kernelPageMapNew pgdir va pa perm m

/-- `pageMap`: map a managed page and count it. -/
def pageMap (pgdir : Ppn) (va : Nat) (pa : Ppn) (perm : Pte) (m : Mem) : Except Panic (Int × Mem) := do
  let (r, m) ← kernelPageMap pgdir va pa perm m
  if r ≠ 0 then return (r, m)
  match ← pageLookup pgdir va m with
  | none => throw .nullDeref
  | some (page, _) => return (0, m.incRef page)

/-- `paDecreaseRef`. -/
def paDecreaseRef (pa : Ppn) (m : Mem) : Except Panic Mem :=
  if pa < BASE_PPN then .error .paTooLow
  else if (m.decRef pa).ref pa = 0 then .ok ((m.decRef pa).pushFree pa)
  else .error .paDecreaseRef

/-- `allocPgdir`. -/
def allocPgdir (m : Mem) : Option (Ppn × Mem) :=
  (pageAlloc m).map fun (page, m) => (page, m.incRef page)

/-- `kmalloc`. -/
def kmalloc (size : Int) (m : Mem) : Except Panic (Ppn × Mem) :=
  -- the comparison with `PAGE_SIZE` is unsigned, so a negative size is too large as well
  if size < 0 ∨ (PAGE_SIZE : Int) < size then .error .kmallocSize
  else match pageAlloc m with
    | none => .error .kmallocNoMem
    | some r => .ok r

/-- `kfree`, of an address in page `pa`. -/
def kfree (pa : Ppn) (m : Mem) : Except Panic Mem :=
  if pa < BASE_PPN then .error .paTooLow else .ok (pageFree pa m).2

/-- `cowHandler`: give `va` a private copy of its page. The result is computed from the page that
was mapped before. -/
def cowHandler (pgdir : Ppn) (va : Nat) (m : Mem) : Except Panic (Nat × Mem) := do
  match ← pageLookup pgdir va m with
  | none => throw .nullDeref
  | some (page, pte) =>
    if !pteHas (m.read pte) PTE_COW_BIT then throw .accessDenied
    match pageAlloc m with
    | none => throw .cowNoMem
    | some (newPage, m) =>
      let m := m.setPage newPage (m.ram page)
      let perm := (pte2Perm (m.read pte) ||| PTE_WRITE_BIT) &&& ~~~ PTE_COW_BIT
      let (_, m) ← pageInsert pgdir va newPage perm m
      return (page <<< PAGE_SHIFT + vaOffset va, m)

end Exaros
