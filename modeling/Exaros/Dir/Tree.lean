import Exaros.Fat.File
import Exaros.Lib.Linked

/-!
# The directory tree

The tree of `DirMeta`s in memory (`kernel/fs/dirmeta.c`, the path functions of `kernel/fs/fat.c` and
`do_linkat`, `do_unlinkat` of `kernel/trap/syscall.c`). A `DirMeta` is a number: the pool `dirMetas[]`
comes first, then the roots that stand in `fileSystem[]`. What the cluster layer uses of a `DirMeta` is
`Fat.DirMeta`; `Node` is the rest. Siblings and the free list are chained through the same `nextBrother`.

A lookup runs on behalf of a process, `Caller`: its working directory, the entries its descriptors stand
for, and what its kernel stack holds where the buffer of `jumpToLinkDirMeta` comes to lie, which decides
the path when a link is shorter than the buffer and has no end. Links are followed by recursion, which the
source does not bound: `n` counts how deep it may go, and `Halt.spins` is a call that has not returned by
then.
-/

namespace Exaros.Dir

open Fat

def DIRMETA_NUM : Nat := 8192
def FAT32_MAX_FILENAME : Nat := 255
def FAT32_MAX_PATH : Nat := 260
def NOFILE : Int := 1024
def AT_FDCWD : Int := -100
def O_RDONLY : Nat := 0
def ATTR_SYSTEM : Nat := 0x04
def ATTR_CHARACTER_DEVICE : Nat := 0x80

def slash : Byte := 0x2f
def dot : Byte := 0x2e

/-- The places where a file-system call stops the kernel. -/
inductive Halt where
  /-- a panic of the cluster layer -/
  | fat (e : Panic)
  /-- `dirlookup`: "dirlookup not DIR" -/
  | dirlookup
  /-- `metaAlloc`: "metaAlloc not dir" -/
  | metaAlloc
  /-- `jumpToLinkDirMeta`: `assert(link != NULL)` -/
  | jumpToLinkDirMeta
  /-- `dirMetaNext`: "dirMetaNext not dir" or "dirMetaNext not align" -/
  | dirMetaNext
  /-- a long entry whose number puts its characters outside the name -/
  | overrun
  /-- an access through a null `DirMeta *`, `FileSystem *` or `File *` -/
  | null
  /-- `syscallMount`, `syscallUmount`: `assert(flag == 0)` -/
  | flag
  /-- a loop or recursion that has not ended -/
  | spins
deriving DecidableEq, Repr

/-- The fields of a `DirMeta` beside those of the file. -/
structure Node where
  /-- the name, without its terminator -/
  filename : List Byte
  fileSystem : Nat
  /-- the file system mounted last on this directory -/
  head : Option Nat
  off : Nat
  parent : Option Nat
  nextBrother : Option Nat
  firstChild : Option Nat
deriving DecidableEq, Repr

/-- An element of `fileSystem[]`. Its `root` is the `DirMeta` `rootOf`. -/
structure Slot where
  valid : Bool
  /-- superblock, bitmap and blocks; the pool of inodes is the one of the `Tree` -/
  volume : FileSystem
  next : Option Nat

structure Tree where
  dirMetas : Nat → DirMeta
  nodes : Nat → Node
  dirMetaHead : Option Nat
  fileSystem : Nat → Slot
  rootFileSystem : Nat
  /-- `inodes[]`, which the volumes share -/
  inodes : Nat → Nat → Nat
  inodeBitmap : Bitmap.Words

/-- The process a lookup runs for. -/
structure Caller where
  cwd : Option Nat
  /-- `ofile[fd]->meta`; the outer `none` is a descriptor that is not open -/
  ofile : Nat → Option (Option Nat)
  /-- the bytes below the stack pointer, by depth of the recursion -/
  stack : Nat → List Byte

/-- `T_DIR` and the other kinds of entry `metaCreate` makes. -/
inductive FileType where
  | dir | file | device | link | char
deriving DecidableEq, Repr

/-- `&fileSystem[f].root`. -/
def rootOf (f : Nat) : Nat := DIRMETA_NUM + f

namespace Tree

def setNode (t : Tree) (d : Nat) (node : Node) : Tree := { t with nodes := Function.update t.nodes d node }

def setMeta (t : Tree) (d : Nat) (dm : DirMeta) : Tree := { t with dirMetas := Function.update t.dirMetas d dm }

/-- The volume of file system `f`, with the pool of inodes. -/
def volume (t : Tree) (f : Nat) : FileSystem :=
  { (t.fileSystem f).volume with inodes := t.inodes, inodeBitmap := t.inodeBitmap }

def setVolume (t : Tree) (f : Nat) (fs : FileSystem) : Tree :=
  { t with
    fileSystem := Function.update t.fileSystem f { t.fileSystem f with volume := fs }
    inodes := fs.inodes
    inodeBitmap := fs.inodeBitmap }

/-- The file system of an entry. -/
def fsOf (t : Tree) (d : Nat) : Nat := (t.nodes d).fileSystem

/-- What an operation on the file of entry `d` leaves. -/
def setFile (t : Tree) (d : Nat) (fs : FileSystem) (dm : DirMeta) : Tree := (t.setVolume (t.fsOf d) fs).setMeta d dm

theorem volume_setFile (t : Tree) (d : Nat) (fs : FileSystem) (dm : DirMeta) : (t.setFile d fs dm).volume (t.fsOf d) = fs := by
  have hslot : (t.setFile d fs dm).fileSystem (t.fsOf d) = { t.fileSystem (t.fsOf d) with volume := fs } :=
    Function.update_self ..
  unfold Tree.volume
  rw [hslot]
  rfl

theorem dirMetas_setFile (t : Tree) (d : Nat) (fs : FileSystem) (dm : DirMeta) : (t.setFile d fs dm).dirMetas d = dm :=
  Function.update_self ..

/-- `meta->attribute & ATTR_DIRECTORY` -/
def isDir (t : Tree) (d : Nat) : Bool := decide ((t.dirMetas d).attr &&& ATTR_DIRECTORY ≠ 0)

/-- `meta->reserve == DT_LNK` -/
def isLink (t : Tree) (d : Nat) : Bool := decide ((t.dirMetas d).reserve = DT_LNK)

/-! ## `dirmeta.c` -/

def dirMetaAlloc (t : Tree) : Except Halt (Nat × Tree) :=
  match t.dirMetaHead with
  | none => .error (.fat .dirMetaAlloc)
  | some d => .ok (d, { t with dirMetaHead := (t.nodes d).nextBrother })

def dirMetaFree (t : Tree) (d : Nat) : Tree :=
  { t.setNode d { t.nodes d with nextBrother := t.dirMetaHead } with dirMetaHead := some d }

/-- `dirMetaInit`, for the first `n` elements of the pool. -/
def dirMetaInit (t : Tree) : Nat → Tree
  | 0 => t
  | n + 1 => dirMetaFree (dirMetaInit t n) n

/-! ## Files -/

def metaRead (t : Tree) (d off n : Nat) : Except Halt (List Byte × Tree) :=
  match Fat.metaRead (t.volume (t.fsOf d)) (t.dirMetas d) off n with
  | .error e => .error (.fat e)
  | .ok (_, dst, fs, dm) => .ok (dst, t.setFile d fs dm)

def metaWrite (t : Tree) (d : Nat) (src : List Byte) (off n : Nat) : Except Halt (Int × Tree) :=
  match Fat.metaWrite (t.volume (t.fsOf d)) (t.dirMetas d) (fun i => src.getD i 0) off n with
  | .error e => .error (.fat e)
  | .ok (r, fs, dm) => .ok (r, t.setFile d fs dm)

def metaTrunc (t : Tree) (d : Nat) : Except Halt Tree :=
  match Fat.metaTrunc (t.volume (t.fsOf d)) (t.dirMetas d) with
  | .error e => .error (.fat e)
  | .ok (fs, dm) => .ok (t.setFile d fs dm)

/-! ## Names -/

/-- `strncmp(a, b, FAT32_MAX_FILENAME) == 0` -/
def sameName (a b : List Byte) : Bool := decide (a.take FAT32_MAX_FILENAME = b.take FAT32_MAX_FILENAME)

/-- The C string at the start of a buffer. -/
def cstr (buf : List Byte) : List Byte := buf.takeWhile (· ≠ 0)

/-- `skipelem`: the next element of a path and the path after it. -/
def skipelem (path : List Byte) : Option (List Byte × List Byte) :=
  match path.dropWhile (· = slash) with
  | [] => none
  | c :: path =>
    some (((c :: path).takeWhile (· ≠ slash)).take FAT32_MAX_FILENAME,
      ((c :: path).dropWhile (· ≠ slash)).dropWhile (· = slash))

def dirlookup (t : Tree) (parentDir : Nat) (filename : List Byte) : Except Halt (Option Nat) :=
  if ¬ t.isDir parentDir then .error .dirlookup
  else if sameName filename [dot] then .ok (some parentDir)
  else if sameName filename [dot, dot] then
    if parentDir = rootOf (t.fsOf parentDir) then .ok (some (rootOf (t.fsOf parentDir)))
    else .ok (t.nodes parentDir).parent
  else
    match Linked.find (fun d => (t.nodes d).nextBrother) (fun d => sameName (t.nodes d).filename filename)
        (DIRMETA_NUM + 1) (t.nodes parentDir).firstChild with
    | none => .error .spins
    | some r => .ok r

/-! ## Paths -/

/-- The directory a path is walked from; the outer `none` is an immediate `NULL`. -/
def startDir (t : Tree) (c : Caller) (fd : Int) (path : List Byte) : Option (Option Nat) :=
  if path.head? ≠ some slash ∧ fd ≠ AT_FDCWD ∧ 0 ≤ fd ∧ fd < NOFILE then c.ofile fd.toNat
  else if path.head? = some slash then some (some (rootOf t.rootFileSystem))
  else if path ≠ [] ∧ fd = AT_FDCWD then some c.cwd
  else none

/-- `cur->head != NULL ? &cur->head->root : cur` -/
def below (t : Tree) (cur : Nat) : Nat :=
  match (t.nodes cur).head with
  | none => cur
  | some f => rootOf f

/-- The loop of `lookupPath` and what follows it, for `n` elements: the entry, or the directory of the
last element with `parent`, and the element in `name`. `link` follows links. -/
def walk (link : Tree → Option Nat → Except Halt (Nat × Tree)) (parent jump : Bool) :
    Nat → Tree → Option Nat → List Byte → List Byte → Except Halt (Option Nat × List Byte × Tree)
  | 0, _, _, _, _ => .error .spins
  | n + 1, t, cur, path, name =>
    match skipelem path with
    | none =>
      if jump then
        match link t cur with
        | .error e => .error e
        | .ok (d, t) => .ok (if parent then none else some d, name, t)
      else .ok (if parent then none else cur, name, t)
    | some (name, path) =>
      match link t cur with
      | .error e => .error e
      | .ok (d, t) =>
        if ¬ t.isDir d then .ok (none, name, t)
        else if parent ∧ path = [] then .ok (some (t.below d), name, t)
        else
          match t.dirlookup (t.below d) name with
          | .error e => .error e
          | .ok none => .ok (none, name, t)
          | .ok (some next) => walk link parent jump n t (some next) path name

/-- `lookupPath`, given how links are followed. -/
def lookupWith (link : Tree → Option Nat → Except Halt (Nat × Tree)) (t : Tree) (c : Caller) (fd : Int)
    (path : List Byte) (parent jump : Bool) : Except Halt (Option Nat × List Byte × Tree) :=
  match t.startDir c fd path with
  | none => .ok (none, [], t)
  | some cur => walk link parent jump (path.length + 1) t cur path []

/-- `jumpToLinkDirMeta`, with `buf` its buffer. -/
def jumpToLinkDirMeta (c : Caller) : Nat → List Byte → Tree → Option Nat → Except Halt (Nat × Tree)
  | 0, _, _, _ => .error .spins
  | _ + 1, _, _, none => .error .jumpToLinkDirMeta
  | n + 1, buf, t, some link =>
    if ¬ t.isLink link then .ok (link, t)
    else
      match t.metaRead link 0 FAT32_MAX_FILENAME with
      | .error e => .error e
      | .ok (bytes, t) =>
        match lookupWith (fun t d => jumpToLinkDirMeta c n (c.stack n) t d) t c AT_FDCWD
            (cstr (bytes ++ buf.drop bytes.length)) false true with
        | .error e => .error e
        | .ok (target, _, t) => jumpToLinkDirMeta c n (bytes ++ buf.drop bytes.length) t target

/-- `lookupPath` -/
def lookupPath (n : Nat) (t : Tree) (c : Caller) (fd : Int) (path : List Byte) (parent jump : Bool) :
    Except Halt (Option Nat × List Byte × Tree) :=
  lookupWith (fun t d => jumpToLinkDirMeta c n (c.stack n) t d) t c fd path parent jump

def metaName (n : Nat) (t : Tree) (c : Caller) (fd : Int) (path : List Byte) (jump : Bool) :
    Except Halt (Option Nat × Tree) :=
  match lookupPath n t c fd path false jump with
  | .error e => .error e
  | .ok (d, _, t) => .ok (d, t)

def metaNameDir (n : Nat) (t : Tree) (c : Caller) (fd : Int) (path : List Byte) :
    Except Halt (Option Nat × List Byte × Tree) :=
  lookupPath n t c fd path true true

/-! ## Creating -/

/-- The entry `metaAlloc` puts into directory `parent`, of which `d` was the first of the free list. -/
def link (t : Tree) (d parent : Nat) (name : List Byte) : Tree :=
  let t := t.setNode d { t.nodes d with
    parent := some parent
    nextBrother := (t.nodes parent).firstChild
    fileSystem := (t.nodes parent).fileSystem
    filename := name.take FAT32_MAX_FILENAME }
  t.setNode parent { t.nodes parent with firstChild := some d }

def metaAlloc (t : Tree) (parent : Nat) (name : List Byte) (attr : Nat) : Except Halt (Nat × Tree) :=
  if ¬ t.isDir parent then .error .metaAlloc
  else
    match t.dirlookup parent name with
    | .error e => .error e
    | .ok (some child) => .ok (child, t)
    | .ok none =>
      match t.dirMetaAlloc with
      | .error e => .error e
      | .ok (child, t) =>
        match Fat.metaAlloc (t.volume (t.fsOf parent)) (t.dirMetas child) attr with
        | .error e => .error (.fat e)
        | .ok (fs, dm) => .ok (child, (t.link child parent name).setFile child fs dm)

/-- The attribute `metaCreate` asks for. -/
def createAttr (type : FileType) (mode : Nat) : Nat :=
  match type with
  | .dir => ATTR_DIRECTORY
  | .link => ATTR_LINK
  | .char => ATTR_CHARACTER_DEVICE
  | _ => if mode &&& O_RDONLY ≠ 0 then ATTR_READ_ONLY else 0

def metaCreate (n : Nat) (t : Tree) (c : Caller) (fd : Int) (path : List Byte) (type : FileType) (mode : Nat) :
    Except Halt (Option Nat × Tree) :=
  match metaNameDir n t c fd path with
  | .error e => .error e
  | .ok (none, _, t) => .ok (none, t)
  | .ok (some parentDir, name, t) =>
    match t.metaAlloc parentDir name (createAttr type mode) with
    | .error e => .error e
    | .ok (d, t) => .ok (some d, t)

section Create

variable {t t' : Tree} {parent d attr n mode : Nat} {name path : List Byte} {c : Caller} {fd : Int} {type : FileType} {r : Option Nat}

/-- `metaAlloc` finds the entry of the name, or links the first of the free list. -/
theorem metaAlloc_cases (hr : t.metaAlloc parent name attr = .ok (d, t')) :
    t.isDir parent = true ∧ ((t.dirlookup parent name = .ok (some d) ∧ t' = t) ∨
      ∃ t₁ fs dm, t.dirlookup parent name = .ok none ∧ t.dirMetaAlloc = .ok (d, t₁) ∧
        Fat.metaAlloc (t₁.volume (t₁.fsOf parent)) (t₁.dirMetas d) attr = .ok (fs, dm) ∧
        t' = (t₁.link d parent name).setFile d fs dm) := by
  unfold metaAlloc at hr
  split at hr
  · cases hr
  · rename_i hdir
    refine ⟨not_not.mp hdir, ?_⟩
    split at hr
    · cases hr
    · rename_i child hlook
      cases hr
      exact .inl ⟨hlook, rfl⟩
    · rename_i hlook
      split at hr
      · cases hr
      · rename_i child t₁ ha
        split at hr
        · cases hr
        · rename_i fs dm hfat
          cases hr
          exact .inr ⟨t₁, fs, dm, hlook, ha, hfat, rfl⟩

/-- `metaCreate` finds no directory for the entry, or leaves it to `metaAlloc`. -/
theorem metaCreate_cases (hr : metaCreate n t c fd path type mode = .ok (r, t')) :
    (∃ name, metaNameDir n t c fd path = .ok (none, name, t') ∧ r = none) ∨
      ∃ p name t₁ d, metaNameDir n t c fd path = .ok (some p, name, t₁) ∧
        t₁.metaAlloc p name (createAttr type mode) = .ok (d, t') ∧ r = some d := by
  unfold metaCreate at hr
  split at hr
  · cases hr
  · rename_i name t₁ hdir
    cases hr
    exact .inl ⟨name, hdir, rfl⟩
  · rename_i p name t₁ hdir
    split at hr
    · cases hr
    · rename_i d t₂ hal
      cases hr
      exact .inr ⟨p, name, t₁, d, hdir, hal, rfl⟩

theorem metaCreate_some (hr : metaCreate n t c fd path type mode = .ok (some d, t')) : ∃ p name t₁,
    metaNameDir n t c fd path = .ok (some p, name, t₁) ∧ t₁.metaAlloc p name (createAttr type mode) = .ok (d, t') := by
  rcases metaCreate_cases hr with ⟨name, -, hd⟩ | ⟨p, name, t₁, e, hdir, hal, hd⟩
  · cases hd
  · obtain rfl := Option.some.inj hd
    exact ⟨p, name, t₁, hdir, hal⟩

end Create

/-! ## Removing -/

/-- `metaRemove`: the list of the parent is searched for the entry before `d`. -/
def metaRemove (t : Tree) (d : Nat) : Except Halt Tree :=
  match (t.nodes d).parent with
  | none => .error .null
  | some parent =>
    match (t.nodes parent).firstChild with
    | none => .error .null
    | some i =>
      if i = d then
        .ok ((t.setNode parent { t.nodes parent with firstChild := (t.nodes d).nextBrother }).dirMetaFree d)
      else
        match Linked.find (fun d => (t.nodes d).nextBrother) (fun i => decide ((t.nodes i).nextBrother = some d))
            (DIRMETA_NUM + 1) (some i) with
        | none => .error .spins
        | some none => .ok (t.dirMetaFree d)
        | some (some i) => .ok ((t.setNode i { t.nodes i with nextBrother := (t.nodes d).nextBrother }).dirMetaFree d)

/-- The loop of `getAbsolutePath`, for `n` entries: `space` is `s - path`, `path` what lies from `s` on. -/
def absoluteLoop (t : Tree) (maxLen : Nat) : Nat → Nat → Nat → List Byte → Option (List Byte)
  | 0, _, _, _ => none
  | n + 1, d, space, path =>
    match (t.nodes d).parent with
    | none => some path
    | some parent =>
      let filename := (t.nodes d).filename
      if space ≤ filename.length ∨ space - filename.length ≤ FAT32_MAX_PATH - maxLen then none
      else absoluteLoop t maxLen n parent (space - filename.length - 1) (slash :: filename ++ path)

/-- `getAbsolutePath` into a kernel buffer of `maxLen` bytes; `none` is `-1`. Every turn of its loop uses a
byte of `path`. -/
def getAbsolutePath (t : Tree) (d maxLen : Nat) : Option (List Byte) :=
  match (t.nodes d).parent with
  | none => some [slash]
  | some _ => absoluteLoop t maxLen (FAT32_MAX_PATH + 1) d (FAT32_MAX_PATH - 1) []

/-- `bad:` of `do_linkat` -/
def linkFailed (t : Tree) (target : Nat) : Except Halt (Int × Tree) :=
  match t.metaRemove target with
  | .error e => .error e
  | .ok t => .ok (-1, t)

def do_linkat (n : Nat) (t : Tree) (c : Caller) (oldDirFd : Int) (oldPath : List Byte) (newDirFd : Int)
    (newPath : List Byte) : Except Halt (Int × Tree) :=
  match metaName n t c oldDirFd oldPath true with
  | .error e => .error e
  | .ok (none, t) => .ok (-1, t)
  | .ok (some entryPoint, t) =>
    match metaCreate n t c newDirFd newPath .file 2 with
    | .error e => .error e
    | .ok (none, t) => .ok (-1, t)
    | .ok (some target, t) =>
      match t.getAbsolutePath entryPoint FAT32_MAX_PATH with
      | none => t.linkFailed target
      | some buf =>
        match t.metaWrite target (buf ++ [0]) 0 (buf.length + 1) with
        | .error e => .error e
        | .ok (r, t) =>
          if r ≠ buf.length + 1 then t.linkFailed target
          else .ok (0, t.setMeta target { t.dirMetas target with reserve := DT_LNK })

def do_unlinkat (n : Nat) (t : Tree) (c : Caller) (fd : Int) (path : List Byte) : Except Halt (Int × Tree) :=
  match metaName n t c fd path true with
  | .error e => .error e
  | .ok (none, t) => .ok (-1, t)
  | .ok (some entryPoint, t) =>
    match t.metaTrunc entryPoint with
    | .error e => .error e
    | .ok t =>
      match (t.setMeta entryPoint { t.dirMetas entryPoint with reserve := 0 }).metaRemove entryPoint with
      | .error e => .error e
      | .ok t => .ok (0, t)

end Tree

end Exaros.Dir
