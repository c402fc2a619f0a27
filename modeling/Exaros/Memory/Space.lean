import Exaros.Memory.Page

/-!
# Address spaces

The functions that build, edit, copy and tear down the address space of a process: `setupProcess`,
`processFork` and `pgdirFree` of `kernel/process/process.c`, `initUserMemory` of `exec.c`,
`passiveAlloc` of `memory.c`, `do_mmap` of `file.c`, and the
memory system calls of `syscall.c`. They thread the memory and the fields of `Process` they read
(`Space`); system call arguments come as the values of the argument registers.

What a file contributes is an input: `passiveAlloc` is given the words that the `metaRead` calls leave
in the page. The `fileread` at the end of the mmap functions stores into pages that are mapped by
then and edits no table.
-/

namespace Exaros

/-! ## Loops over pages -/

/-- `while (start < stop) { body; start += PAGE_SIZE; }`, in 64 bits. The body returns `some r` where the
source returns `r` from inside the loop. A loop the fuel does not finish has no result. -/
def whilePages {σ : Type} (body : Nat → σ → Except Panic (Option Int × σ)) (stop : Nat) :
    Nat → Nat → σ → Except Panic (Option Int × σ)
  | 0, _, _ => .error .endless
  | fuel + 1, start, s =>
    if start < stop then do
      match ← body start s with
      | (some r, s) => return (some r, s)
      | (none, s) => whilePages body stop fuel (u64 (start + PAGE_SIZE)) s
    else return (none, s)

/-- `for (k = 0; k < 512; k++) { if (!(table[k] & PTE_VALID_BIT)) continue; body }`. -/
def eachEntry (table : Ppn) (body : Idx → Mem → Except Panic Mem) (m : Mem) : Except Panic Mem :=
  (List.finRange 512).foldlM (fun m k => if !pteValid (m.ram table k) then .ok m else body k m) m

/-! ## Process memory -/

def MAP_ZERO : Pte := bit 0

/-- A segment to be loaded on demand. `segmentTraverse` makes two kinds: file contents and bss. -/
structure SegmentMap where
  loadAddr : Nat
  len : Nat
  flag : Pte
  flag_mem : flag = PTE_EXECUTE_BIT ||| PTE_READ_BIT ||| PTE_WRITE_BIT ∨
    flag = PTE_READ_BIT ||| PTE_WRITE_BIT ||| MAP_ZERO

/-- The page that starts at `pageStart` meets the segment. -/
def SegmentMap.meets (seg : SegmentMap) (pageStart : Nat) : Bool :=
  max seg.loadAddr pageStart < min (u64 (seg.loadAddr + seg.len)) (u64 (pageStart + PAGE_SIZE))

/-- The fields of `Process` that describe its memory. -/
structure Space where
  pgdir : Ppn
  brkHeapTop : Nat
  mmapHeapTop : Nat
  shmHeapTop : Nat
  segmentMap : List SegmentMap

/-- `setupProcess` and `exec` start the heaps at their bottoms. -/
def Space.fresh (pgdir : Ppn) (segmentMap : List SegmentMap) : Space :=
  { pgdir, segmentMap, brkHeapTop := USER_BRK_HEAP_BOTTOM, mmapHeapTop := USER_MMAP_HEAP_BOTTOM,
    shmHeapTop := USER_SHM_HEAP_BOTTOM }

/-- `getThreadTopSp`. -/
def getThreadTopSp (slot : Nat) : Nat := KERNEL_PROCESS_SP_TOP - slot * 10 * PAGE_SIZE

/-- The kernel stack of a thread: three pages below its top. -/
def threadSetup (img : Image) (slot : Nat) (m : Mem) : Except Panic Mem :=
  [1, 2, 3].foldlM (fun m k =>
    match pageAlloc m with
    | none => .error .kernelStackNoMem
    | some (page, m) => do
      let (_, m) ← pageInsert img.kernelPageDirectory (getThreadTopSp slot - PAGE_SIZE * k) page
        (PTE_READ_BIT ||| PTE_WRITE_BIT) m
      return m) m

/-- The three pages of the kernel image that every address space has. -/
def mapImage (img : Image) (pgdir : Ppn) (m : Mem) : Except Panic Mem := do
  let (_, m) ← pageMap pgdir TRAMPOLINE img.trampoline (PTE_READ_BIT ||| PTE_WRITE_BIT ||| PTE_EXECUTE_BIT) m
  let (_, m) ← pageMap pgdir TRAPFRAME img.trapframe (PTE_READ_BIT ||| PTE_WRITE_BIT ||| PTE_EXECUTE_BIT) m
  let (_, m) ← pageMap pgdir SIGNAL_TRAMPOLINE img.signalTrampoline
    (PTE_READ_BIT ||| PTE_WRITE_BIT ||| PTE_EXECUTE_BIT ||| PTE_USER_BIT) m
  return m

/-- `setupProcess`, for the process in slot `slot`: its result, the page directory and the memory. -/
def setupProcess (img : Image) (slot : Nat) (m : Mem) : Except Panic (Int × Ppn × Mem) :=
  match allocPgdir m with
  | none => .error .pgdirNoMem
  | some (pgdir, m) =>
    match pageAlloc m with
    | none => .ok (-1, pgdir, m)
    | some (page, m) => do
      let (_, m) ← pageInsert img.kernelPageDirectory (KERNEL_PROCESS_SIGNAL_BASE + slot * PAGE_SIZE) page
        (PTE_READ_BIT ||| PTE_WRITE_BIT ||| PTE_EXECUTE_BIT) m
      let m ← mapImage img pgdir m
      return (0, pgdir, m)

/-- `initUserMemory`. -/
def initUserMemory (img : Image) (pgdir : Ppn) (m : Mem) : Except Panic Mem := do
  let m ← mapImage img pgdir m
  match pageAlloc m with
  | none => throw .userStackNoMem
  | some (page, m) =>
    let (_, m) ← pageInsert pgdir (USER_STACK_TOP - PAGE_SIZE) page
      (PTE_USER_BIT ||| PTE_READ_BIT ||| PTE_WRITE_BIT ||| PTE_EXECUTE_BIT) m
    return m

/-! ## Page faults -/

/-- `passiveAlloc`: a stack page, or the page of the segments that meet it. -/
def passiveAlloc (segs : List SegmentMap) (data : Idx → BitVec 64) (pgdir : Ppn) (badAddr : Nat) (m : Mem) :
    Except Panic (Nat × Mem) :=
  if USER_STACK_BOTTOM ≤ badAddr ∧ badAddr < USER_STACK_TOP then
    match pageAlloc m with
    | none => .error .stackNoMem
    | some (pp, m) => do
      let (r, m) ← pageInsert pgdir badAddr pp (PTE_READ_BIT ||| PTE_WRITE_BIT ||| PTE_USER_BIT) m
      if r ≠ 0 then throw .stackNoMem
      return (pp <<< PAGE_SHIFT + vaOffset badAddr, m)
  else
    match segs.filter (·.meets (alignDown badAddr)) with
    | [] => .error .lazySegment
    | seg :: rest =>
      match pageAlloc m with
      | none => .error .lazySegment
      | some (pp, m) => do
        let perm := (seg :: rest).foldl (fun perm s => perm ||| (s.flag &&& ~~~ MAP_ZERO)) 0
        let (_, m) ← pageInsert pgdir badAddr pp (PTE_USER_BIT ||| perm) (m.setPage pp data)
        return (pp <<< PAGE_SHIFT + vaOffset badAddr, m)

/-- The page faults of `userHandler`: a load or store fault looks at the entry first, any other exception
goes to `passiveAlloc`. -/
def pageFault (segs : List SegmentMap) (data : Idx → BitVec 64) (access : Bool) (pgdir : Ppn) (stval : Nat)
    (m : Mem) : Except Panic Mem := do
  if access then
    match ← pageLookup pgdir stval m with
    | none =>
      let (_, m) ← passiveAlloc segs data pgdir stval m
      return m
    | some (_, pte) =>
      if pteHas (m.read pte) PTE_COW_BIT then
        let (_, m) ← cowHandler pgdir stval m
        return m
      else throw .unknownPageFault
  else
    let (_, m) ← passiveAlloc segs data pgdir stval m
    return m

/-- `va2PA`: the entry of a user page below `VA_MAX`, with its copy-on-write mark. -/
def va2PA (pgdir : Ppn) (va : Nat) (m : Mem) : Option (Nat × Bool) :=
  if VA_MAX ≤ va then none
  else match (pageWalk pgdir va false m).1 with
    | .ok (some pte) =>
      if pteValid (m.read pte) && pteHas (m.read pte) PTE_USER_BIT then
        some (pte2Ppn (m.read pte) <<< PAGE_SHIFT + vaOffset va, pteHas (m.read pte) PTE_COW_BIT)
      else none
    | _ => none

/-- How `copyin` and `copyout` make the page of `va` accessible before they move its bytes. -/
def copyPage (segs : List SegmentMap) (data : Idx → BitVec 64) (pgdir : Ppn) (va : Nat) (m : Mem) :
    Except Panic Mem := do
  let m ← match va2PA pgdir va m with
    | none => do
      let (_, m) ← passiveAlloc segs data pgdir va m
      pure m
    | some _ => pure m
  match va2PA pgdir va m with
  | some (_, true) =>
    let (_, m) ← cowHandler pgdir va m
    return m
  | _ => return m

/-! ## Mapping system calls -/

def PROT_READ_BIT : Nat := 0x01
def PROT_WRITE_BIT : Nat := 0x02
def PROT_EXEC_BIT : Nat := 0x04

/-- The permission bits the mmap and mprotect system calls derive from `prot`. -/
def protPerm (prot : Nat) : Pte :=
  (if prot &&& PROT_EXEC_BIT ≠ 0 then PTE_EXECUTE_BIT ||| PTE_READ_BIT else 0) |||
    (if prot &&& PROT_READ_BIT ≠ 0 then PTE_READ_BIT else 0) |||
    (if prot &&& PROT_WRITE_BIT ≠ 0 then PTE_WRITE_BIT ||| PTE_READ_BIT else 0)

/-- `bzero` of the first `n` bytes of a page, on its words. -/
def bzeroPage (n : Nat) (f : Idx → BitVec 64) : Idx → BitVec 64 := fun i =>
  let bits := 8 * min 8 (n - 8 * i.val)
  f i >>> bits <<< bits

/-- The entry `do_mmap` writes over a mapped page. -/
def mmapPte (pa : Ppn) (perm : Pte) : Pte :=
  page2Pte pa ||| perm ||| PTE_USER_BIT ||| PTE_VALID_BIT ||| PTE_DIRTY_BIT ||| PTE_EXECUTE_BIT |||
    PTE_ACCESSED_BIT

/-- The body of the loop of `do_mmap`. -/
def mmapPage (pgdir : Ppn) (perm : Pte) (stop : Nat) (start : Nat) (m : Mem) :
    Except Panic (Option Int × Mem) := do
  match ← pageLookup pgdir start m with
  | none =>
    match pageAlloc m with
    | none => return (some (-1), m)
    | some (page, m) =>
      let (_, m) ← pageInsert pgdir start page
        (perm ||| PTE_USER_BIT ||| PTE_EXECUTE_BIT ||| PTE_ACCESSED_BIT) m
      return (none, m)
  | some (page, pte) =>
    let (page, pte, m) ←
      if pteHas (m.read pte) PTE_COW_BIT then do
        let (_, m) ← cowHandler pgdir start m
        match ← pageLookup pgdir start m with
        | none => throw .nullDeref
        | some (page, pte) => pure (page, pte, m)
      else pure (page, pte, m)
    let m := m.setPage page (bzeroPage (min PAGE_SIZE (stop - start)) (m.ram page))
    return (none, m.write pte (mmapPte page perm))

/-- `do_mmap`, up to the `fileread`. -/
def do_mmap (fuel : Nat) (sp : Space) (start len : Nat) (perm : Pte) (m : Mem) :
    Except Panic (Int × Space × Mem) := do
  if start % PAGE_SIZE ≠ 0 then throw .mmapAssert
  if start = 0 then
    let start := alignUp sp.mmapHeapTop
    let sp := { sp with mmapHeapTop := alignUp (u64 (start + len)) }
    if ¬ sp.mmapHeapTop < USER_STACK_BOTTOM then throw .mmapAssert
    let (r, m) ← whilePages (mmapPage sp.pgdir perm (u64 (start + len))) (u64 (start + len)) fuel start m
    return (r.getD start, sp, m)
  else
    let (r, m) ← whilePages (mmapPage sp.pgdir perm (u64 (start + len))) (u64 (start + len)) fuel start m
    return (r.getD start, sp, m)

def EINVAL : Int := 22

/-- The body of the loops of `syscallMapMemory` and `syscallBrk`: a fresh page, or `panic` with `remap`. -/
def growPage (remap : Panic) (fail : Int) (pgdir : Ppn) (perm : Pte) (start : Nat) (m : Mem) :
    Except Panic (Option Int × Mem) := do
  match ← pageLookup pgdir start m with
  | some _ => throw remap
  | none =>
    match pageAlloc m with
    | none => return (some fail, m)
    | some (page, m) =>
      let (r, m) ← pageInsert pgdir start page perm m
      return (if r < 0 then some fail else none, m)

/-- `syscallMapMemory`, up to the `fileread`. -/
def syscallMapMemory (fuel : Nat) (sp : Space) (addr length prot : Nat) (m : Mem) :
    Except Panic (Int × Space × Mem) := do
  if length = 0 then return (-EINVAL, sp, m)
  if addr ≠ 0 then do_mmap fuel sp addr length (protPerm prot) m
  else
    let start := sp.mmapHeapTop
    let stop := alignUp (u64 (start + length))
    if USER_MMAP_HEAP_TOP < stop then return (-1, sp, m)
    let sp := { sp with mmapHeapTop := stop }
    let (r, m) ← whilePages (growPage .mmapRemap (-1) sp.pgdir (protPerm prot ||| PTE_USER_BIT)) stop fuel start m
    return (r.getD start, sp, m)

/-- The body of the loop of `syscallMemoryProtect`. -/
def protectPage (segs : List SegmentMap) (data : Nat → Idx → BitVec 64) (pgdir : Ppn) (perm : Pte) (start : Nat)
    (m : Mem) : Except Panic (Option Int × Mem) := do
  match ← pageLookup pgdir start m with
  | none =>
    let (_, m) ← passiveAlloc segs (data start) pgdir start m
    return (none, m)
  | some (_, pte) =>
    return (none, m.write pte
      (m.read pte &&& ~~~ (PTE_READ_BIT ||| PTE_WRITE_BIT ||| PTE_EXECUTE_BIT) ||| perm))

/-- `syscallMemoryProtect` on the values of `a0`, `a1` and `a2`. -/
def syscallMemoryProtect (fuel : Nat) (sp : Space) (data : Nat → Idx → BitVec 64) (a0 a1 a2 : Nat) (m : Mem) :
    Except Panic Mem := do
  let (_, m) ← whilePages (protectPage sp.segmentMap data sp.pgdir (protPerm a2)) (alignUp (u64 (a0 + a1))) fuel
    (alignDown a0) m
  return m

/-- The body of the loop of `syscallBrk` that gives pages back. -/
def shrinkPage (pgdir : Ppn) (start : Nat) (m : Mem) : Except Panic (Option Int × Mem) := do
  let (_, m) ← pageRemove pgdir start m
  return (none, m)

/-- `syscallBrk`. -/
def syscallBrk (fuel : Nat) (sp : Space) (addr : Nat) (m : Mem) : Except Panic (Int × Space × Mem) := do
  if addr = 0 then return (sp.brkHeapTop, sp, m)
  if addr < sp.brkHeapTop then
    let (_, m) ← whilePages (shrinkPage sp.pgdir) (alignUp sp.brkHeapTop) fuel (alignUp addr) m
    return (addr, { sp with brkHeapTop := addr }, m)
  else
    if USER_BRK_HEAP_TOP < alignUp addr then return (sp.brkHeapTop, sp, m)
    let (r, m) ← whilePages
      (growPage .brkRemap sp.brkHeapTop sp.pgdir (PTE_READ_BIT ||| PTE_WRITE_BIT ||| PTE_USER_BIT))
      (alignUp addr) fuel (alignUp sp.brkHeapTop) m
    match r with
    | some r => return (r, sp, m)
    | none => return (addr, { sp with brkHeapTop := addr }, m)

/-- The body of the loop of `syscallUnMapMemory`. -/
def unmapPage (pgdir : Ppn) (start : Nat) (m : Mem) : Except Panic (Option Int × Mem) := do
  let (r, m) ← pageRemove pgdir start m
  return (if r < 0 then some (-1) else none, m)

/-- `syscallUnMapMemory`. -/
def syscallUnMapMemory (fuel : Nat) (sp : Space) (addr length : Nat) (m : Mem) : Except Panic (Int × Mem) := do
  if addr % PAGE_SIZE ≠ 0 then return (-1, m)
  let stop := alignUp (u64 (addr + length))
  if USER_MMAP_HEAP_TOP < stop then return (-1, m)
  let (r, m) ← whilePages (unmapPage sp.pgdir) stop fuel addr m
  return (r.getD 0, m)

/-! ## Fork and teardown -/

/-- What `processFork` does at a mapped page of the parent. -/
def forkPage (child : Ppn) (i j k : Idx) (pa2 : Ppn) (m : Mem) : Except Panic Mem := do
  let va := vpnAddr (i, j, k)
  if va = TRAMPOLINE ∨ va = TRAPFRAME then return m
  let m :=
    if pteHas (m.ram pa2 k) PTE_WRITE_BIT && !pteHas (m.ram pa2 k) PTE_SHM_BIT then
      m.write (pa2, k) ((m.ram pa2 k ||| PTE_COW_BIT) &&& ~~~ PTE_WRITE_BIT)
    else m
  let (_, m) ← pageMap child va (pte2Ppn (m.ram pa2 k)) (pte2Perm (m.ram pa2 k)) m
  return m

/-- The loops of `processFork` below the entry `i` of the parent's directory. -/
def forkTop (parent child : Ppn) (i : Idx) (m : Mem) : Except Panic Mem :=
  let pa := pte2Ppn (m.ram parent i)
  eachEntry pa (fun j m =>
    let pa2 := pte2Ppn (m.ram pa j)
    eachEntry pa2 (fun k m => forkPage child i j k pa2 m) m) m

/-- The page-table part of `processFork`. -/
def forkTables (parent child : Ppn) (m : Mem) : Except Panic Mem :=
  eachEntry parent (forkTop parent child) m

/-- The memory part of `processFork`: the child in slot `slot` gets a directory, the parent's segments (each
appended at the head) and heap tops, and the parent's pages. -/
def forkSpace (img : Image) (slot : Nat) (sp : Space) (m : Mem) : Except Panic (Int × Space × Mem) := do
  let (r, pgdir, m) ← setupProcess img slot m
  let child := { sp with pgdir, segmentMap := sp.segmentMap.reverse }
  if r < 0 then return (r, child, m)
  let m ← forkTables sp.pgdir pgdir m
  return (0, child, m)

/-- The innermost body of `pgdirFree`. -/
def pgdirFreeLeaf (pgdir : Ppn) (i j k : Idx) (m : Mem) : Except Panic Mem := do
  let (_, m) ← pageRemove pgdir ((i.val <<< 30) ||| (j.val <<< 21) ||| (k.val <<< 12)) m
  return m

/-- The middle body of `pgdirFree`. The entry it clears is in the freed table itself. -/
def pgdirFreeMid (pgdir : Ppn) (i : Idx) (pa : Ppn) (j : Idx) (m : Mem) : Except Panic Mem := do
  let pa2 := pte2Ppn (m.ram pa j)
  let m ← eachEntry pa2 (pgdirFreeLeaf pgdir i j) m
  paDecreaseRef pa2 (m.write (pa2, j) 0)

/-- The outer body of `pgdirFree`. -/
def pgdirFreeTop (pgdir : Ppn) (i : Idx) (m : Mem) : Except Panic Mem := do
  let pa := pte2Ppn (m.ram pgdir i)
  let m ← eachEntry pa (pgdirFreeMid pgdir i pa) m
  paDecreaseRef pa m

/-- `pgdirFree`. -/
def pgdirFree (pgdir : Ppn) (m : Mem) : Except Panic Mem := do
  let m ← eachEntry pgdir (pgdirFreeTop pgdir) m
  paDecreaseRef pgdir m

end Exaros
