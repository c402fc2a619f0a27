import Exaros.Fat.Inode

/-!
# Files

`relocClus`, `rwClus` and the operations on a `DirMeta` built on them: `metaRead`, `metaWrite`,
`metaTrunc`, the part of `metaAlloc` that follows the lookup of the name, and the removal of a file.
Buffers are kernel buffers, so `either_copyin` and `either_copyout` are plain copies: a source buffer
is a function from offsets to bytes, and what a read copies out is the list of its bytes in order.

A loop of the source is a recursion on a number of turns that covers it.
-/

namespace Exaros.Fat

/-! ## Finding the cluster of an offset -/

/-- `clus >= FAT32_EOC` for an `int clus`. -/
def isEoc (clus : Nat) : Bool := decide (FAT32_EOC ≤ clus ∧ clus < 2 ^ 31)

/-- The cluster after `cur`: the next of the chain, or a new one at its end if asked for. -/
def nextClus (alloc : Bool) (fs : FileSystem) (cur : Nat) : Except Panic (Option (Nat × FileSystem)) :=
  let clus := readFat fs cur
  if isEoc clus then
    if alloc then do
      let (clus, fs) ← allocClus fs
      return some (clus, writeFat fs cur clus)
    else return none
  else return some (clus, fs)

/-- The loop of `relocClus`, for `n` turns. `none` is the end of the chain without `alloc`. -/
def relocLoop (alloc : Bool) : Nat → FileSystem → DirMeta → Except Panic (Option Unit × FileSystem × DirMeta)
  | 0, fs, dm => .ok (some (), fs, dm)
  | n + 1, fs, dm => do
    match ← nextClus alloc fs dm.curClus with
    | none => return (none, fs, { dm with curClus := dm.firstClus, clusCnt := 0 })
    | some (clus, fs) =>
      let (fs, dm) ← metaCacheInode fs { dm with curClus := clus, clusCnt := dm.clusCnt + 1 } clus
      relocLoop alloc n fs dm

/-- `relocClus`: the offset within the cluster, or -1. -/
def relocClus (fs : FileSystem) (dm : DirMeta) (off : Nat) (alloc : Bool) :
    Except Panic (Int × FileSystem × DirMeta) :=
  if dm.firstClus = 0 ∨ dm.inodeMaxCluster = 0 ∨ dm.firstClus ≠ dm.item 0 then .error .relocClus
  else
    let clusNum := off / fs.superBlock.bytsPerClus
    let ret := off % fs.superBlock.bytsPerClus
    if clusNum < dm.inodeMaxCluster then do
      let dm ← metaFindInode fs dm clusNum
      return (ret, fs, dm)
    else do
      let dm ← metaFindInode fs dm (dm.inodeMaxCluster - 1)
      let (r, fs, dm) ← relocLoop alloc (clusNum - dm.clusCnt) fs dm
      return (if r.isSome then ret else -1, fs, dm)

/-! ## Reading and writing within a cluster -/

/-- `memmove(data + at, src, m)` into a sector. -/
def copyin (s : Sector) (start m : Nat) (src : Nat → Byte) : Sector := fun i =>
  if start ≤ i ∧ i < start + m then src (i - start) else s i

/-- The bytes one turn of `rwClus` moves. -/
def rwTurn (off tot n : Nat) : Nat :=
  let m := BUFFER_SIZE - off % BUFFER_SIZE
  if n - tot < m then n - tot else m

/-- The loop of `rwClus` with `write`. -/
def rwWriteLoop (src : Nat → Byte) (n : Nat) : Nat → Disk → Nat → Nat → Nat → Nat × Disk
  | 0, d, _, _, tot => (tot, d)
  | turns + 1, d, sec, off, tot =>
    if tot < n then
      let m := rwTurn off tot n
      rwWriteLoop src n turns (bwrite d sec (copyin (d sec) (off % BUFFER_SIZE) m fun i => src (tot + i)))
        (u32 (sec + 1)) (off + m) (tot + m)
    else (tot, d)

/-- `rwClus` with `write`. -/
def rwClusWrite (fs : FileSystem) (cluster : Nat) (src : Nat → Byte) (off n : Nat) :
    Except Panic (Nat × FileSystem) :=
  if fs.superBlock.bytsPerClus < u32 (off + n) then .error .rwClus
  else
    let sec := u32 (firstSecOfClus fs.superBlock cluster + off / fs.superBlock.bytsPerSec)
    let r := rwWriteLoop src n n fs.disk sec (off % fs.superBlock.bytsPerSec) 0
    .ok (r.1, { fs with disk := r.2 })

/-- The loop of `rwClus` without `write`. -/
def rwReadLoop (d : Disk) (n : Nat) : Nat → Nat → Nat → Nat → List Byte → Nat × List Byte
  | 0, _, _, tot, dst => (tot, dst)
  | turns + 1, sec, off, tot, dst =>
    if tot < n then
      let m := rwTurn off tot n
      rwReadLoop d n turns (u32 (sec + 1)) (off + m) (tot + m)
        (dst ++ (List.range m).map fun i => d sec (off % BUFFER_SIZE + i))
    else (tot, dst)

/-- `rwClus` without `write`: how many bytes, and which. -/
def rwClusRead (fs : FileSystem) (cluster off n : Nat) : Except Panic (Nat × List Byte) :=
  if fs.superBlock.bytsPerClus < u32 (off + n) then .error .rwClus
  else
    let sec := u32 (firstSecOfClus fs.superBlock cluster + off / fs.superBlock.bytsPerSec)
    .ok (rwReadLoop fs.disk n n sec (off % fs.superBlock.bytsPerSec) 0 [])

/-! ## `metaRead` and `metaWrite` -/

/-- The bytes one turn of `metaRead` or `metaWrite` moves. -/
def metaTurn (sb : SuperBlock) (off tot n : Nat) : Nat :=
  let m := sb.bytsPerClus - off % sb.bytsPerClus
  if n - tot < m then n - tot else m

/-- A `u32` returned as an `int`. -/
def i32 (x : Nat) : Int := if x < 2 ^ 31 then x else x - 2 ^ 32

/-- The loop of `metaRead`: the bytes copied out. -/
def metaReadLoop (n : Nat) : Nat → FileSystem → DirMeta → Nat → Nat → List Byte →
    Except Panic (Nat × List Byte × FileSystem × DirMeta)
  | 0, fs, dm, _, tot, dst => .ok (tot, dst, fs, dm)
  | turns + 1, fs, dm, off, tot, dst =>
    if dm.curClus < FAT32_EOC ∧ tot < n then do
      let (_, fs, dm) ← relocClus fs dm off false
      let m := metaTurn fs.superBlock off tot n
      let (r, bytes) ← rwClusRead fs dm.curClus (off % fs.superBlock.bytsPerClus) m
      if r = m then metaReadLoop n turns fs dm (u32 (off + m)) (tot + m) (dst ++ bytes)
      else return (tot, dst ++ bytes, fs, dm)
    else .ok (tot, dst, fs, dm)

/-- The text `metaRead` copies out for `OSRELEASE`, with its terminator. -/
def osrelease : List Byte := [0x31, 0x30, 0x2e, 0x32, 0x2e, 0x30, 0]

/-- `metaRead`: the value it returns and the bytes it copies out. -/
def metaRead (fs : FileSystem) (dm : DirMeta) (off n : Nat) :
    Except Panic (Int × List Byte × FileSystem × DirMeta) :=
  if dm.dev = .zero then .ok (i32 n, List.replicate n 0, fs, dm)
  else if dm.dev = .osrelease then .ok (i32 osrelease.length, osrelease, fs, dm)
  else if dm.fileSize < off ∨ u32 (off + n) < off ∨ dm.attr &&& ATTR_DIRECTORY ≠ 0 then .ok (0, [], fs, dm)
  else do
    let n := if dm.fileSize < u32 (off + n) then dm.fileSize - off else n
    let (tot, dst, fs, dm) ← metaReadLoop n n fs dm off 0 []
    return (i32 tot, dst, fs, dm)

/-- The loop of `metaWrite`: the bytes written and the offset reached. -/
def metaWriteLoop (src : Nat → Byte) (n : Nat) : Nat → FileSystem → DirMeta → Nat → Nat →
    Except Panic (Nat × Nat × FileSystem × DirMeta)
  | 0, fs, dm, off, tot => .ok (tot, off, fs, dm)
  | turns + 1, fs, dm, off, tot =>
    if tot < n then do
      let (_, fs, dm) ← relocClus fs dm off true
      let m := metaTurn fs.superBlock off tot n
      let (r, fs) ← rwClusWrite fs dm.curClus (fun i => src (tot + i)) (off % fs.superBlock.bytsPerClus) m
      if r = m then metaWriteLoop src n turns fs dm (u32 (off + m)) (tot + m)
      else return (tot, off, fs, dm)
    else .ok (tot, off, fs, dm)

/-- A new first cluster for an empty file. -/
def DirMeta.start (dm : DirMeta) (clus : Nat) : DirMeta :=
  { dm.setItem 0 clus with curClus := clus, firstClus := clus, inodeMaxCluster := 1 }

/-- `metaWrite`, given the file its first cluster if it is empty. -/
def metaWriteFrom (fs : FileSystem) (dm : DirMeta) (src : Nat → Byte) (off n : Nat) :
    Except Panic (Int × FileSystem × DirMeta) := do
  let (tot, off, fs, dm) ← metaWriteLoop src n n fs dm off 0
  let dm := if 0 < n ∧ dm.fileSize < off then { dm with fileSize := off } else dm
  return (i32 tot, fs, dm)

/-- `metaWrite`. -/
def metaWrite (fs : FileSystem) (dm : DirMeta) (src : Nat → Byte) (off n : Nat) :
    Except Panic (Int × FileSystem × DirMeta) :=
  if dm.dev = .none then .ok (i32 n, fs, dm)
  else if u32 (off + n) < off ∨ 0xffffffff < off + n ∨ dm.attr &&& ATTR_READ_ONLY ≠ 0 then .ok (-1, fs, dm)
  else if dm.firstClus = 0 then do
    let (clus, fs) ← allocClus fs
    metaWriteFrom fs { dm.start clus with clusCnt := 0 } src off n
  else metaWriteFrom fs dm src off n

/-! ## Creating, emptying and removing -/

/-- `metaAlloc` on the `DirMeta` taken for the new name. -/
def metaAlloc (fs : FileSystem) (child : DirMeta) (attr : Nat) : Except Panic (FileSystem × DirMeta) := do
  let child := if attr = ATTR_LINK then { child with attr := 0, reserve := DT_LNK }
    else { child with attr, reserve := 0 }
  let (fs, child) ← metaFreeInode fs { child with fileSize := 0, firstClus := 0 }
  let child := { child with clusCnt := 0, curClus := 0 }
  if attr = ATTR_DIRECTORY then
    let child := { child with attr := child.attr ||| ATTR_DIRECTORY }
    let (clus, fs) ← allocClus fs
    return (fs, child.start clus)
  else return (fs, { child with attr := child.attr ||| ATTR_ARCHIVE })

/-- The loop of `metaTrunc`, for `n` turns. A freed entry ends it, so that it makes no more turns than
the data area has clusters, and one. -/
def truncLoop : Nat → FileSystem → Nat → FileSystem
  | 0, fs, _ => fs
  | n + 1, fs, clus =>
    if 2 ≤ clus ∧ clus < FAT32_EOC then truncLoop n (freeClus fs clus) (readFat fs clus) else fs

/-- `metaTrunc`. -/
def metaTrunc (fs : FileSystem) (dm : DirMeta) : Except Panic (FileSystem × DirMeta) :=
  let fs := truncLoop (fs.superBlock.dataClusCnt + 2) fs dm.firstClus
  metaFreeInode fs { dm with fileSize := 0, firstClus := 0 }

/-! ## The files of a volume -/

/-- The volume with the pool of `DirMeta`s: `dirMetas`, and the list from `dirMetaHead` on. -/
structure FatState where
  fs : FileSystem
  dirMetas : Nat → DirMeta
  free : List Nat

/-- The state after an operation on file `i`. -/
def FatState.update (s : FatState) (i : Nat) (fs : FileSystem) (dm : DirMeta) : FatState :=
  { s with fs, dirMetas := fun j => if j = i then dm else s.dirMetas j }

@[simp] theorem FatState.update_self (s : FatState) (i : Nat) (fs : FileSystem) (dm : DirMeta) :
    (s.update i fs dm).dirMetas i = dm := if_pos rfl

/-- `metaAlloc` of a name that the directory does not have. -/
def FatState.create (s : FatState) (attr : Nat) : Except Panic (Nat × FatState) :=
  match s.free with
  | [] => .error .dirMetaAlloc
  | i :: free => do
    let (fs, dm) ← metaAlloc s.fs (s.dirMetas i) attr
    return (i, { s.update i fs dm with free })

/-- `relocClus` of file `i`. -/
def FatState.reloc (s : FatState) (i off : Nat) (alloc : Bool) : Except Panic (Int × FatState) := do
  let (r, fs, dm) ← relocClus s.fs (s.dirMetas i) off alloc
  return (r, s.update i fs dm)

/-- `metaWrite` to file `i`. -/
def FatState.write (s : FatState) (i : Nat) (src : Nat → Byte) (off n : Nat) : Except Panic (Int × FatState) := do
  let (r, fs, dm) ← metaWrite s.fs (s.dirMetas i) src off n
  return (r, s.update i fs dm)

/-- `metaRead` from file `i`. -/
def FatState.read (s : FatState) (i off n : Nat) : Except Panic (Int × List Byte × FatState) := do
  let (r, dst, fs, dm) ← metaRead s.fs (s.dirMetas i) off n
  return (r, dst, s.update i fs dm)

/-- `metaTrunc` of file `i`. -/
def FatState.trunc (s : FatState) (i : Nat) : Except Panic FatState := do
  let (fs, dm) ← metaTrunc s.fs (s.dirMetas i)
  return s.update i fs dm

/-- `do_unlinkat` of file `i`. -/
def FatState.unlink (s : FatState) (i : Nat) : Except Panic FatState := do
  let (fs, dm) ← metaTrunc s.fs (s.dirMetas i)
  return { s.update i fs { dm with reserve := 0 } with free := i :: s.free }

end Exaros.Fat
