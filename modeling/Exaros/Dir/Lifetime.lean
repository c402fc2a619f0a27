import Exaros.Dir.Runs
import Exaros.Files.Runs

/-!
# Descriptors and entries

The tree together with the open files and the working directories of all processes (`syscallOpenAt`,
`syscallUnlinkAt`, `syscallMakeDirAt`, `syscallLinkAt`, `syscallChangeDir`, `processFork`, `syscallClose`). A
file and a process hold their entry by a plain pointer: nothing counts these, and `metaRemove` gives an entry
back to the pool whoever holds it.

`born` counts how often an entry has left the free list; a file and a working directory record the count they
found. The counts are there for the statements, no call reads them. A call whose path cannot be fetched does
nothing, and is left out.

**What it does not establish.** Anything of mounts; none is made or taken away here.
-/

namespace Exaros.Dir

open Fat Linked
open Function (update update_self update_of_ne)

def O_TRUNC : Nat := 0x200
def O_DIRECTORY : Nat := 0x200000

structure System where
  kernel : Files.Kernel
  tree : Tree
  /-- `File.meta` -/
  metas : Nat → Option Nat
  /-- `Process.cwd` -/
  cwd : Nat → Option Nat
  born : Nat → Nat
  fileBorn : Nat → Nat
  cwdBorn : Nat → Nat

/-- What a call is given to look up paths with: the process, what its kernel stack holds, and how deep links
may be followed. -/
structure Session where
  process : Nat
  stack : Nat → List Byte
  depth : Nat

inductive SysOp where
  | create (p th : Nat) (pgdir : Ppn)
  | openat (c : Session) (startFd : Int) (path : List Byte) (flags mode : Nat)
  | unlinkat (c : Session) (dirFd : Int) (path : List Byte)
  | mkdirat (c : Session) (dirFd : Int) (path : List Byte) (mode : Nat)
  | linkat (c : Session) (oldDirFd : Int) (oldPath : List Byte) (newDirFd : Int) (newPath : List Byte)
  | chdir (c : Session) (path : List Byte)
  | fork (p c th : Nat) (pgdir : Ppn)
  | close (p : Nat) (fd : Int)
  | exit (p : Nat)

/-- The process that makes a call. -/
def SysOp.actor : SysOp → Nat
  | .openat c .. | .unlinkat c .. | .mkdirat c .. | .linkat c .. | .chdir c .. => c.process
  | .create p .. | .fork p .. | .close p _ | .exit p => p

/-- The entry that has left the free list for good between two states. -/
def handedOut (t t' : Tree) : Option Nat :=
  match t.dirMetaHead with
  | none => none
  | some d => if t'.dirMetaHead = (t.nodes d).nextBrother then some d else none

namespace System

def caller (s : System) (c : Session) : Caller where
  cwd := s.cwd c.process
  ofile := fun fd => ((s.kernel.procs c.process).ofile fd).map s.metas
  stack := c.stack

def setTree (s : System) (t : Tree) : System :=
  { s with tree := t, born := fun d => if handedOut s.tree t = some d then s.born d + 1 else s.born d }

/-- A call on the tree alone. -/
def onTree (s : System) : Except Halt (Int × Tree) → Option (Int × System)
  | .error _ => none
  | .ok (r, t) => some (r, s.setTree t)

/-- A call on the open files alone. -/
def onFiles (s : System) : Except Files.Halt (Int × Files.Kernel) → Option (Int × System)
  | .error _ => none
  | .ok (r, k) => some (r, { s with kernel := k })

/-- The entry `syscallOpenAt` opens, or what it returns. -/
def findEntry (n : Nat) (t : Tree) (c : Caller) (startFd : Int) (path : List Byte) (flags mode : Nat) :
    Except Halt (Except Int Nat × Tree) :=
  if flags &&& Files.O_CREATE ≠ 0 then
    match Tree.metaCreate n t c startFd path .file mode with
    | .error e => .error e
    | .ok (none, t) => .ok (.error (-1), t)
    | .ok (some d, t) => .ok (.ok d, t)
  else
    match Tree.metaName n t c startFd path true with
    | .error e => .error e
    | .ok (none, t) => .ok (.error (-2), t)
    | .ok (some d, t) =>
      if ¬ t.isDir d ∧ flags &&& O_DIRECTORY ≠ 0 then .ok (.error (-1), t)
      else if t.isDir d ∧ flags &&& 0xfff ≠ O_RDONLY then .ok (.error (-1), t)
      else .ok (.ok d, t)

/-- `syscallOpenAt` once the entry is known. `file` is the file of the new descriptor. -/
def openFile (s : System) (p d flags : Nat) : Option (Int × System) :=
  match Files.openEntry p none flags s.kernel with
  | .error _ => none
  | .ok (r, k) =>
    if r < 0 then some (r, { s with kernel := k })
    else
      match (k.procs p).ofile r.toNat, (if ¬ s.tree.isDir d ∧ flags &&& O_TRUNC ≠ 0 then s.tree.metaTrunc d else .ok s.tree) with
      | some file, .ok t =>
        some (r, { s with
          kernel := k
          tree := t
          metas := update s.metas file (some d)
          fileBorn := update s.fileBorn file (s.born d) })
      | _, _ => none

def syscallOpenAt (s : System) (c : Session) (startFd : Int) (path : List Byte) (flags mode : Nat) : Option (Int × System) :=
  if path.take 12 = bytes "/tmp/tmpfile" then
    s.onFiles (Files.tmpfileOpenAt c.process (path.map UInt8.ofBitVec) flags s.kernel)
  else if path.take 16 = bytes "/proc/interrupts" then s.onFiles (Files.interpfileOpenAt c.process s.kernel)
  else
    match findEntry c.depth s.tree (s.caller c) startFd path flags mode with
    | .error _ => none
    | .ok (.error r, t) => some (r, s.setTree t)
    | .ok (.ok d, t) => (s.setTree t).openFile c.process d flags

def syscallMakeDirAt (s : System) (c : Session) (dirFd : Int) (path : List Byte) (mode : Nat) : Option (Int × System) :=
  if path.all (· = slash) then some (-1, s)
  else s.onTree ((Tree.metaCreate c.depth s.tree (s.caller c) dirFd path .dir mode).map fun (r, t) =>
    (if r = none then -1 else 0, t))

def syscallChangeDir (s : System) (c : Session) (path : List Byte) : Option (Int × System) :=
  match Tree.metaName c.depth s.tree (s.caller c) AT_FDCWD path true with
  | .error _ => none
  | .ok (none, t) => some (-1, s.setTree t)
  | .ok (some d, t) =>
    let s := s.setTree t
    if ¬ t.isDir d then some (-1, s)
    else
      some (0, { s with
        cwd := update s.cwd c.process (some d)
        cwdBorn := update s.cwdBorn c.process (s.born d) })

def syscallUnlinkAt (s : System) (c : Session) (dirFd : Int) (path : List Byte) : Option (Int × System) :=
  s.onTree (Tree.do_unlinkat c.depth s.tree (s.caller c) dirFd path)

def syscallLinkAt (s : System) (c : Session) (oldDirFd : Int) (oldPath : List Byte) (newDirFd : Int) (newPath : List Byte) :
    Option (Int × System) :=
  s.onTree (Tree.do_linkat c.depth s.tree (s.caller c) oldDirFd oldPath newDirFd newPath)

/-- `setupProcess` starts a process at the root. -/
def create (s : System) (p th : Nat) (pgdir : Ppn) : System :=
  { s with
    kernel := { Files.setupProc p pgdir s.kernel with owner := update s.kernel.owner th (some p) }
    cwd := update s.cwd p (some (rootOf s.tree.rootFileSystem))
    cwdBorn := update s.cwdBorn p (s.born (rootOf s.tree.rootFileSystem)) }

/-- `processFork` gives the child the descriptors and the working directory. -/
def processFork (s : System) (p c th : Nat) (pgdir : Ppn) : Option System :=
  match Files.processFork p c th pgdir s.kernel with
  | .error _ => none
  | .ok k =>
    some { s with
      kernel := k
      cwd := update s.cwd c (s.cwd p)
      cwdBorn := update s.cwdBorn c (s.cwdBorn p) }

/-- One call; `none` is a panic. -/
def exec (s : System) : SysOp → Option System
  | .create p th pgdir => some (s.create p th pgdir)
  | .openat c startFd path flags mode => (s.syscallOpenAt c startFd path flags mode).map Prod.snd
  | .unlinkat c dirFd path => (s.syscallUnlinkAt c dirFd path).map Prod.snd
  | .mkdirat c dirFd path mode => (s.syscallMakeDirAt c dirFd path mode).map Prod.snd
  | .linkat c oldDirFd oldPath newDirFd newPath => (s.syscallLinkAt c oldDirFd oldPath newDirFd newPath).map Prod.snd
  | .chdir c path => (s.syscallChangeDir c path).map Prod.snd
  | .fork p c th pgdir => s.processFork p c th pgdir
  | .close p fd => (s.onFiles (Files.syscallClose p fd s.kernel)).map Prod.snd
  | .exit p => (s.onFiles ((Files.processFree p s.kernel).map fun k => (0, k))).map Prod.snd

/-- A call is made by a live process; a new one takes a free block. -/
def Enabled (s : System) (op : SysOp) : Prop :=
  match op with
  | .create p .. => (s.kernel.procs p).live = false
  | .fork p c .. => (s.kernel.procs p).live = true ∧ (s.kernel.procs c).live = false
  | op => (s.kernel.procs op.actor).live = true

/-- Entry `d` is behind descriptor `fd` of the live process `p`, in file `f`. -/
def Opened (s : System) (p fd f d : Nat) : Prop :=
  (s.kernel.procs p).live = true ∧ (s.kernel.procs p).ofile fd = some f ∧ (s.kernel.files f).type = .entry ∧ s.metas f = some d

/-- Entry `d` is the working directory of the live process `p`. -/
def Works (s : System) (p d : Nat) : Prop := (s.kernel.procs p).live = true ∧ s.cwd p = some d

/-- What processes hold is not free, and is the entry they came to. -/
structure Lasting (s : System) : Prop where
  opened : ∀ p fd f d, s.Opened p fd f d → ¬ s.tree.Free d ∧ s.fileBorn f = s.born d
  works : ∀ p d, s.Works p d → ¬ s.tree.Free d ∧ s.cwdBorn p = s.born d

/-- A live process holds entry `d`. -/
def Refers (s : System) (d : Nat) : Prop := (∃ p fd f, s.Opened p fd f d) ∨ ∃ p, s.Works p d

/-- A path relative to a descriptor starts at an entry. -/
def Descends (s : System) (c : Session) (fd : Int) (path : List Byte) : Prop :=
  path.head? ≠ some slash → fd ≠ AT_FDCWD → 0 ≤ fd → fd < NOFILE →
    ∀ f, (s.kernel.procs c.process).ofile fd.toNat = some f → (s.kernel.files f).type = .entry

/-- Paths start at entries, and what may be removed has no children and is held by no one. -/
def Meets (s : System) : SysOp → Prop
  | .openat c startFd path _ _ => s.Descends c startFd path
  | .mkdirat c dirFd path _ => s.Descends c dirFd path
  | .unlinkat c dirFd path => s.Descends c dirFd path ∧
      ∀ d t, Tree.metaName c.depth s.tree (s.caller c) dirFd path true = .ok (some d, t) →
        (s.tree.nodes d).firstChild = none ∧ ¬ s.Refers d
  | .linkat c oldDirFd oldPath newDirFd newPath => s.Descends c oldDirFd oldPath ∧ s.Descends c newDirFd newPath ∧
      ∀ d, s.tree.Existing c.depth (s.caller c) oldDirFd oldPath newDirFd newPath d →
        (s.tree.nodes d).firstChild = none ∧ ¬ s.Refers d
  | _ => True

/-- The state after boot, before the first process. -/
def Init (s : System) : Prop :=
  s.kernel.Init ∧ ∃ n c script d, c.cwd = none ∧ Tree.initRootFileSystem n c script d = .ok s.tree

/-- The states that calls reach which all meet `P` where they are made. -/
def Reached (P : System → SysOp → Prop) : System → Prop :=
  Run.Reach Init fun s s' => ∃ op, s.Enabled op ∧ P s op ∧ s.exec op = some s'

end System

/-! ## Descriptors -/

section Files

open Files (Kernel)

variable {k k' : Kernel} {p c f fd : Nat}

/-- A process that is not live has no descriptors, and no descriptor lies outside the table. -/
structure Clean (k : Kernel) : Prop where
  dead : ∀ p, (k.procs p).live = false → ∀ fd, (k.procs p).ofile fd = none
  range : ∀ p fd f, (k.procs p).ofile fd = some f → fd < Files.NOFILE
  hard : ∀ p, (k.procs p).live = true → (k.procs p).hard ≤ Files.NOFILE

/-- File `f` is an entry, and a live process has it open. -/
def Held (k : Kernel) (f : Nat) : Prop :=
  (∃ p fd, (k.procs p).live = true ∧ (k.procs p).ofile fd = some f) ∧ (k.files f).type = .entry

/-- No process is left or comes, and no file becomes an entry. -/
structure Narrows (k k' : Kernel) : Prop where
  proc : ∀ p, (k'.procs p).live = (k.procs p).live ∧ (k'.procs p).hard = (k.procs p).hard
  slot : ∀ p fd f, (k'.procs p).ofile fd = some f → (k.procs p).ofile fd = some f
  entry : ∀ f, (k'.files f).type = .entry → (k.files f).type = .entry

theorem Narrows.refl (k : Kernel) : Narrows k k := ⟨fun _ => ⟨rfl, rfl⟩, fun _ _ _ h => h, fun _ h => h⟩

theorem Narrows.trans {k'' : Kernel} (h : Narrows k k') (h' : Narrows k' k'') : Narrows k k'' where
  proc p := ⟨(h'.proc p).1.trans (h.proc p).1, (h'.proc p).2.trans (h.proc p).2⟩
  slot p fd f hf := h.slot p fd f (h'.slot p fd f hf)
  entry f hf := h.entry f (h'.entry f hf)

theorem Narrows.clean (h : Narrows k k') (hc : Clean k) : Clean k' where
  dead p hp fd := by
    have hnone := hc.dead p ((h.proc p).1 ▸ hp) fd
    cases hs : (k'.procs p).ofile fd with
    | none => rfl
    | some f =>
      rw [h.slot p fd f hs] at hnone
      cases hnone
  range p fd f hf := hc.range p fd f (h.slot p fd f hf)
  hard p hp := by
    rw [(h.proc p).2]
    exact hc.hard p ((h.proc p).1 ▸ hp)

theorem Narrows.held (h : Narrows k k') (hf : Held k' f) : Held k f := by
  obtain ⟨⟨p, fd, hp, hfd⟩, htype⟩ := hf
  exact ⟨⟨p, fd, (h.proc p).1 ▸ hp, h.slot p fd f hfd⟩, h.entry f htype⟩

theorem narrows_setSlot (k : Kernel) (p fd : Nat) : Narrows k (k.setSlot p fd none) := by
  have hproc : ∀ q, ((k.setSlot p fd none).procs q).live = (k.procs q).live ∧
      ((k.setSlot p fd none).procs q).hard = (k.procs q).hard := fun q => by
    by_cases hq : q = p
    · rw [hq, Files.setSlot_procs_self]
      exact ⟨rfl, rfl⟩
    · rw [Files.setSlot_procs_ne k hq]
      exact ⟨rfl, rfl⟩
  refine ⟨hproc, fun q i f h => ?_, fun _ h => h⟩
  by_cases hq : q = p
  · rw [hq, Files.setSlot_procs_self] at h
    dsimp only at h
    by_cases hi : i = fd
    · rw [hi, update_self] at h
      cases h
    · rw [update_of_ne hi] at h
      exact hq ▸ h
  · rwa [Files.setSlot_procs_ne k hq] at h

theorem setFile_files (k : Kernel) (f : Nat) (file : Files.File) (g : Nat) :
    (k.setFile f file).files g = if g = f then file else k.files g := by
  unfold Files.Kernel.setFile
  by_cases hg : g = f
  · simp [hg]
  · simp [hg]

theorem narrows_setFile (k : Kernel) (f : Nat) {file : Files.File} (h : file.type = .entry → (k.files f).type = .entry) :
    Narrows k (k.setFile f file) := by
  refine ⟨fun _ => ⟨rfl, rfl⟩, fun _ _ _ h => h, fun g hg => ?_⟩
  rw [setFile_files] at hg
  split at hg
  · rename_i hgf
    exact hgf ▸ h hg
  · exact hg

theorem narrows_filedup (h : Files.filedup f k = .ok k') : Narrows k k' := by
  unfold Files.filedup at h
  split at h
  · cases h
  · cases h
    exact narrows_setFile k f id

theorem narrows_fileclose (h : Files.fileclose f k = .ok k') : Narrows k k' := by
  unfold Files.fileclose at h
  dsimp only at h
  split at h
  · cases h
  · split at h
    · cases h
      exact narrows_setFile k f id
    · have hset : Narrows k (k.setFile f { k.files f with ref := 0, type := .none }) := narrows_setFile k f fun h => by cases h
      split at h
      all_goals
        cases h
        exact ⟨hset.proc, hset.slot, hset.entry⟩

theorem narrows_close {fd : Int} {r : Int} (h : Files.syscallClose p fd k = .ok (r, k')) : Narrows k k' := by
  unfold Files.syscallClose at h
  cases harg : k.argfd p fd with
  | none =>
    rw [harg] at h
    cases h
    exact .refl k
  | some f =>
    rw [harg] at h
    obtain ⟨k₁, hclose, hk⟩ := Loop.map_ok h
    cases hk
    exact (narrows_setSlot k p fd.toNat).trans (narrows_fileclose hclose)

/-- File `f` becomes what it may, at new descriptors too. -/
structure Opens (k k' : Kernel) (f : Nat) : Prop where
  proc : ∀ p, (k'.procs p).live = (k.procs p).live ∧ (k'.procs p).hard = (k.procs p).hard
  slot : ∀ p fd g, (k'.procs p).ofile fd = some g →
    (k.procs p).ofile fd = some g ∨ (g = f ∧ (k.procs p).live = true ∧ fd < (k.procs p).hard)
  entry : ∀ g, g ≠ f → (k'.files g).type = .entry → (k.files g).type = .entry

theorem Narrows.opens (h : Narrows k k') (f : Nat) : Opens k k' f :=
  ⟨h.proc, fun p fd g hg => .inl (h.slot p fd g hg), fun g _ hg => h.entry g hg⟩

theorem Opens.trans {k'' : Kernel} (h : Opens k k' f) (h' : Opens k' k'' f) : Opens k k'' f where
  proc p := ⟨(h'.proc p).1.trans (h.proc p).1, (h'.proc p).2.trans (h.proc p).2⟩
  slot p fd g hg := by
    rcases h'.slot p fd g hg with hg | ⟨hgf, hlive, hfd⟩
    · exact h.slot p fd g hg
    · rw [(h.proc p).1] at hlive
      rw [(h.proc p).2] at hfd
      exact .inr ⟨hgf, hlive, hfd⟩
  entry g hne hg := h.entry g hne (h'.entry g hne hg)

theorem Opens.clean (h : Opens k k' f) (hc : Clean k) : Clean k' where
  dead p hp fd := by
    rw [(h.proc p).1] at hp
    cases hs : (k'.procs p).ofile fd with
    | none => rfl
    | some g =>
      rcases h.slot p fd g hs with hg | ⟨-, hlive, -⟩
      · rw [hc.dead p hp fd] at hg
        cases hg
      · rw [hp] at hlive
        cases hlive
  range p fd g hg := by
    rcases h.slot p fd g hg with hg | ⟨-, hlive, hfd⟩
    · exact hc.range p fd g hg
    · exact Nat.lt_of_lt_of_le hfd (hc.hard p hlive)
  hard p hp := by
    rw [(h.proc p).1] at hp
    rw [(h.proc p).2]
    exact hc.hard p hp

theorem Opens.held {g : Nat} (h : Opens k k' f) (hg : Held k' g) (hne : g ≠ f) : Held k g := by
  obtain ⟨⟨p, fd, hp, hfd⟩, htype⟩ := hg
  refine ⟨⟨p, fd, (h.proc p).1 ▸ hp, ?_⟩, h.entry g hne htype⟩
  rcases h.slot p fd g hfd with hg | ⟨hgf, -, -⟩
  · exact hg
  · exact absurd hgf hne

theorem opens_setSlot (k : Kernel) (hp : (k.procs p).live = true) (hfd : fd < (k.procs p).hard) (f : Nat) :
    Opens k (k.setSlot p fd (some f)) f := by
  refine ⟨fun q => ?_, fun q i g h => ?_, fun _ _ h => h⟩
  · by_cases hq : q = p
    · rw [hq, Files.setSlot_procs_self]
      exact ⟨rfl, rfl⟩
    · rw [Files.setSlot_procs_ne k hq]
      exact ⟨rfl, rfl⟩
  · by_cases hq : q = p
    · subst hq
      rw [Files.setSlot_procs_self] at h
      dsimp only at h
      by_cases hi : i = fd
      · rw [hi, update_self] at h
        exact .inr ⟨(Option.some.inj h).symm, hp, hi ▸ hfd⟩
      · rw [update_of_ne hi] at h
        exact .inl h
    · rw [Files.setSlot_procs_ne k hq] at h
      exact .inl h

/-- **Opening**: nothing, or a file at a new descriptor. -/
theorem openWith_cases {fail r : Int} {fill : Files.File → Files.File} (hp : (k.procs p).live = true)
    (h : Files.openWith p fail fill k = .ok (r, k')) :
    (r = fail ∧ Narrows k k') ∨
      ∃ f fd file, r = (fd : Nat) ∧ (k'.procs p).ofile fd = some f ∧ k'.files f = fill file ∧ Opens k k' f := by
  obtain ⟨⟨pair, k₁⟩, hpair, hr⟩ := Loop.map_ok h
  unfold Files.allocPair at hpair
  cases hfile : Files.filealloc k with
  | none =>
    rw [hfile] at hpair
    cases hpair
    cases hr
    exact .inl ⟨rfl, .refl k⟩
  | some q =>
    obtain ⟨f, k₂⟩ := q
    have hk₂ : Narrows k k₂ := by
      unfold Files.filealloc at hfile
      split at hfile
      · cases hfile
      · cases hfile
        exact narrows_setFile k f id
    rw [hfile] at hpair
    dsimp only at hpair
    unfold Files.fdalloc at hpair
    cases hfd : (List.range (k₂.procs p).hard).find? fun fd => ((k₂.procs p).ofile fd).isNone with
    | none =>
      rw [hfd] at hpair
      obtain ⟨k₃, hclose, hk₃⟩ := Loop.map_ok hpair
      cases hk₃
      cases hr
      exact .inl ⟨rfl, hk₂.trans (narrows_fileclose hclose)⟩
    | some fd =>
      rw [hfd] at hpair
      cases hpair
      cases hr
      have hlt : fd < (k₂.procs p).hard := List.mem_range.mp (List.mem_of_find?_eq_some hfd)
      have hlive : (k₂.procs p).live = true := (hk₂.proc p).1.trans hp
      refine .inr ⟨f, fd, (k₂.setSlot p fd (some f)).files f, rfl, ?_, ?_, ((hk₂.opens f).trans (opens_setSlot k₂ hlive hlt f)).trans ?_⟩
      · show ((k₂.setSlot p fd (some f)).procs p).ofile fd = some f
        rw [Files.setSlot_procs_self]
        exact update_self ..
      · rw [setFile_files, if_pos rfl]
      · refine ⟨fun _ => ⟨rfl, rfl⟩, fun _ _ _ h => .inl h, fun g hne hg => ?_⟩
        rwa [setFile_files, if_neg hne] at hg

/-- The files that are open stay what they are when something that is no entry is opened. -/
theorem held_openWith {fail r : Int} {fill : Files.File → Files.File} (hfill : ∀ file, (fill file).type ≠ .entry)
    (hp : (k.procs p).live = true) (hc : Clean k) (h : Files.openWith p fail fill k = .ok (r, k')) :
    Clean k' ∧ (∀ f, Held k' f → Held k f) ∧ ∀ q, (k'.procs q).live = true → (k.procs q).live = true := by
  rcases openWith_cases hp h with ⟨-, hn⟩ | ⟨f, fd, file, -, -, hfile, ho⟩
  · exact ⟨hn.clean hc, fun f => hn.held, fun q hq => (hn.proc q).1 ▸ hq⟩
  · refine ⟨ho.clean hc, fun g hg => ho.held hg fun hgf => ?_, fun q hq => (ho.proc q).1 ▸ hq⟩
    have htype := hg.2
    rw [hgf, hfile] at htype
    exact hfill file htype

theorem held_tmpfileOpenAt {name : List UInt8} {flags : Nat} {r : Int} (hp : (k.procs p).live = true) (hc : Clean k)
    (h : Files.tmpfileOpenAt p name flags k = .ok (r, k')) :
    Clean k' ∧ (∀ f, Held k' f → Held k f) ∧ ∀ q, (k'.procs q).live = true → (k.procs q).live = true := by
  unfold Files.tmpfileOpenAt at h
  split at h
  · obtain ⟨⟨t, k₁⟩, halloc, h⟩ := Loop.bind_ok h
    have hn : Narrows k k₁ := by
      unfold Files.tmpfileAlloc at halloc
      split at halloc
      · cases halloc
      · cases halloc
        exact ⟨fun _ => ⟨rfl, rfl⟩, fun _ _ _ h => h, fun _ h => h⟩
    obtain ⟨hc', hheld, hlive⟩ := held_openWith (fun _ htype => by cases htype) ((hn.proc p).1.trans hp) (hn.clean hc) h
    exact ⟨hc', fun f hf => hn.held (hheld f hf), fun q hq => (hn.proc q).1 ▸ hlive q hq⟩
  · split at h
    · cases h
      exact ⟨hc, fun _ => id, fun _ => id⟩
    · exact held_openWith (fun _ htype => by cases htype) hp hc h

/-- `processFree` closes every descriptor of the process. -/
theorem freeSlots_narrows (l : List Nat) (h : l.foldlM (Files.freeSlot p) k = .ok k') :
    Narrows k k' ∧ ∀ fd ∈ l, (k'.procs p).ofile fd = none := by
  induction l generalizing k with
  | nil =>
    cases h
    exact ⟨.refl _, fun _ hfd => by cases hfd⟩
  | cons fd l ih =>
    rw [List.foldlM_cons] at h
    obtain ⟨k₁, hslot, h⟩ := Loop.bind_ok h
    obtain ⟨hn, hnone⟩ := ih h
    have h₁ : Narrows k k₁ ∧ (k₁.procs p).ofile fd = none := by
      unfold Files.freeSlot at hslot
      cases hf : (k.procs p).ofile fd with
      | none =>
        rw [hf] at hslot
        cases hslot
        exact ⟨.refl k, hf⟩
      | some f =>
        rw [hf] at hslot
        obtain ⟨k₂, hclose, rfl⟩ := Loop.map_ok hslot
        refine ⟨(narrows_fileclose hclose).trans (narrows_setSlot k₂ p fd), ?_⟩
        rw [Files.setSlot_procs_self]
        exact update_self ..
    refine ⟨h₁.1.trans hn, fun i hi => ?_⟩
    rcases List.mem_cons.mp hi with rfl | hi
    · cases hs : (k'.procs p).ofile i with
      | none => rfl
      | some g =>
        have hno := hn.slot p i g hs
        rw [h₁.2] at hno
        cases hno
    · exact hnone i hi

/-- An exit closes descriptors and opens none. -/
theorem held_processFree (hc : Clean k) (h : Files.processFree p k = .ok k') :
    Clean k' ∧ (∀ f, Held k' f → Held k f) ∧ ∀ q, (k'.procs q).live = true → (k.procs q).live = true := by
  obtain ⟨k₁, hfold, rfl⟩ := Loop.map_ok h
  obtain ⟨hn, hnone⟩ := freeSlots_narrows _ hfold
  have hc₁ := hn.clean hc
  have hempty : ∀ fd, (k₁.procs p).ofile fd = none := fun fd => by
    cases hs : (k₁.procs p).ofile fd with
    | none => rfl
    | some g => rw [← hs, hnone fd (List.mem_range.mpr (hc₁.range p fd g hs))]
  have hofile : ∀ q, ((Files.dropProc p k₁).procs q).ofile = (k₁.procs q).ofile := fun q => by
    by_cases hq : q = p
    · simp [Files.dropProc, hq]
    · simp [Files.dropProc, hq]
  have hlive : ∀ q, ((Files.dropProc p k₁).procs q).live = true → q ≠ p ∧ (k₁.procs q).live = true := fun q hq => by
    by_cases hqp : q = p
    · simp [Files.dropProc, hqp] at hq
    · simp only [Files.dropProc, update_of_ne hqp] at hq
      exact ⟨hqp, hq⟩
  refine ⟨⟨fun q hq fd => ?_, fun q fd f hf => ?_, fun q hq => ?_⟩, fun f hf => hn.held ?_, fun q hq => ?_⟩
  · rw [hofile]
    by_cases hqp : q = p
    · rw [hqp]
      exact hempty fd
    · refine hc₁.dead q ?_ fd
      simpa only [Files.dropProc, update_of_ne hqp] using hq
  · rw [hofile] at hf
    exact hc₁.range q fd f hf
  · obtain ⟨hqp, hq⟩ := hlive q hq
    simp only [Files.dropProc, update_of_ne hqp]
    exact hc₁.hard q hq
  · obtain ⟨⟨q, fd, hq, hfd⟩, htype⟩ := hf
    rw [hofile] at hfd
    exact ⟨⟨q, fd, (hlive q hq).2, hfd⟩, htype⟩
  · rw [← (hn.proc q).1]
    exact (hlive q hq).2

/-- A process block that no live process has, taken. -/
theorem held_setupProc (hc : Clean k) (hdead : (k.procs c).live = false) (pgdir : Ppn) :
    Clean (Files.setupProc c pgdir k) ∧ ∀ f, Held (Files.setupProc c pgdir k) f → Held k f := by
  have hofile : ∀ q, ((Files.setupProc c pgdir k).procs q).ofile = (k.procs q).ofile := fun q => by
    by_cases hq : q = c
    · simp [Files.setupProc, hq]
    · simp [Files.setupProc, hq]
  have hother : ∀ q, q ≠ c → (Files.setupProc c pgdir k).procs q = k.procs q := fun q hq => by
    simp [Files.setupProc, hq]
  refine ⟨⟨fun q hq fd => ?_, fun q fd f hf => ?_, fun q hq => ?_⟩, fun f hf => ?_⟩
  · rw [hofile]
    by_cases hqc : q = c
    · rw [hqc]
      exact hc.dead c hdead fd
    · rw [hother q hqc] at hq
      exact hc.dead q hq fd
  · rw [hofile] at hf
    exact hc.range q fd f hf
  · by_cases hqc : q = c
    · simp [Files.setupProc, hqc]
    · rw [hother q hqc] at hq ⊢
      exact hc.hard q hq
  · obtain ⟨⟨q, fd, hq, hfd⟩, htype⟩ := hf
    rw [hofile] at hfd
    by_cases hqc : q = c
    · rw [hqc, hc.dead c hdead fd] at hfd
      cases hfd
    · rw [hother q hqc] at hq
      exact ⟨⟨q, fd, hq, hfd⟩, htype⟩

/-- The loop of `processFork` gives the child what the parent has. -/
theorem forkSlots_held (l : List Nat) (hc : Clean k) (hp : (k.procs p).live = true) (hlive : (k.procs c).live = true)
    (hl : ∀ i ∈ l, i < Files.NOFILE) (h : l.foldlM (Files.forkSlot p c) k = .ok k') :
    Clean k' ∧ (∀ f, Held k' f → Held k f) ∧ ∀ q, (k'.procs q).live = (k.procs q).live := by
  induction l generalizing k with
  | nil =>
    cases h
    exact ⟨hc, fun _ => id, fun _ => rfl⟩
  | cons i l ih =>
    rw [List.foldlM_cons] at h
    obtain ⟨k₁, hslot, h⟩ := Loop.bind_ok h
    have h₁ : Clean k₁ ∧ (∀ f, Held k₁ f → Held k f) ∧ ∀ q, (k₁.procs q).live = (k.procs q).live := by
      unfold Files.forkSlot at hslot
      cases hf : (k.procs p).ofile i with
      | none =>
        rw [hf] at hslot
        cases hslot
        exact ⟨hc, fun _ => id, fun _ => rfl⟩
      | some f =>
        rw [hf] at hslot
        obtain ⟨k₂, hdup, rfl⟩ := Loop.map_ok hslot
        have hn := narrows_filedup hdup
        have hc₂ := hn.clean hc
        have hproc : ∀ q, ((k₂.setSlot c i (some f)).procs q).live = (k₂.procs q).live ∧
            ((k₂.setSlot c i (some f)).procs q).hard = (k₂.procs q).hard := fun q => by
          by_cases hq : q = c
          · rw [hq, Files.setSlot_procs_self]
            exact ⟨rfl, rfl⟩
          · rw [Files.setSlot_procs_ne k₂ hq]
            exact ⟨rfl, rfl⟩
        have hold : ∀ q j g, ((k₂.setSlot c i (some f)).procs q).ofile j = some g →
            (k₂.procs q).ofile j = some g ∨ (q = c ∧ j = i ∧ g = f) := fun q j g hg => by
          by_cases hq : q = c
          · rw [hq, Files.setSlot_procs_self] at hg
            dsimp only at hg
            by_cases hj : j = i
            · rw [hj, update_self] at hg
              exact .inr ⟨hq, hj, (Option.some.inj hg).symm⟩
            · rw [update_of_ne hj] at hg
              exact .inl (hq ▸ hg)
          · rw [Files.setSlot_procs_ne k₂ hq] at hg
            exact .inl hg
        refine ⟨⟨fun q hq j => ?_, fun q j g hg => ?_, fun q hq => ?_⟩, fun g hg => ?_, fun q => ?_⟩
        · rw [(hproc q).1] at hq
          cases hs : ((k₂.setSlot c i (some f)).procs q).ofile j with
          | none => rfl
          | some g =>
            rcases hold q j g hs with hg | ⟨hqc, -, -⟩
            · rw [hc₂.dead q hq j] at hg
              cases hg
            · rw [hqc, (hn.proc c).1, hlive] at hq
              cases hq
        · rcases hold q j g hg with hg | ⟨-, hj, -⟩
          · exact hc₂.range q j g hg
          · rw [hj]
            exact hl i (List.mem_cons_self ..)
        · rw [(hproc q).1] at hq
          rw [(hproc q).2]
          exact hc₂.hard q hq
        · obtain ⟨⟨q, j, hq, hj⟩, htype⟩ := hg
          have htype := hn.entry g htype
          rcases hold q j g hj with hg | ⟨-, -, hgf⟩
          · rw [(hproc q).1, (hn.proc q).1] at hq
            exact ⟨⟨q, j, hq, hn.slot q j g hg⟩, htype⟩
          · exact ⟨⟨p, i, hp, hgf ▸ hf⟩, htype⟩
        · rw [(hproc q).1, (hn.proc q).1]
    obtain ⟨hc₁, hheld₁, hlive₁⟩ := h₁
    obtain ⟨hc', hheld, hlive'⟩ := ih hc₁ ((hlive₁ p).trans hp) ((hlive₁ c).trans hlive)
      (fun j hj => hl j (List.mem_cons_of_mem _ hj)) h
    exact ⟨hc', fun f hf => hheld₁ f (hheld f hf), fun q => (hlive' q).trans (hlive₁ q)⟩

theorem held_processFork {th : Nat} {pgdir : Ppn} (hc : Clean k) (hp : (k.procs p).live = true)
    (hdead : (k.procs c).live = false) (h : Files.processFork p c th pgdir k = .ok k') :
    Clean k' ∧ (∀ f, Held k' f → Held k f) ∧ ∀ q, q ≠ c → (k'.procs q).live = (k.procs q).live := by
  obtain ⟨k₁, hfold, rfl⟩ := Loop.map_ok h
  obtain ⟨hc₀, hheld₀⟩ := held_setupProc hc hdead pgdir
  have hother : ∀ q, q ≠ c → (Files.setupProc c pgdir k).procs q = k.procs q := fun q hq => by
    simp [Files.setupProc, hq]
  have hpc : p ≠ c := fun hpc => by
    rw [hpc, hdead] at hp
    cases hp
  have hself : (Files.setupProc c pgdir k).procs c = { k.procs c with live := true, hard := Files.NOFILE, pgdir } := by
    simp [Files.setupProc]
  have hrange : ∀ i ∈ List.range ((Files.setupProc c pgdir k).procs c).hard, i < Files.NOFILE := fun i hi => by
    rw [hself] at hi
    exact List.mem_range.mp hi
  obtain ⟨hc₁, hheld₁, hlive₁⟩ := forkSlots_held _ hc₀ (by rw [hother p hpc]; exact hp) (by rw [hself]) hrange hfold
  refine ⟨⟨hc₁.dead, hc₁.range, hc₁.hard⟩, fun f hf => hheld₀ f (hheld₁ f hf), fun q hq => ?_⟩
  rw [hlive₁, hother q hq]

end Files

namespace System

/-! ## One call -/

/-- What processes hold is in the tree. -/
structure Inv (s : System) : Prop where
  sound : ∃ free kids, Tree.Sound s.tree free kids
  clean : Clean s.kernel
  files : ∀ f, Held s.kernel f → ∃ d, s.metas f = some d ∧ s.tree.InTree d ∧ s.fileBorn f = s.born d
  cwds : ∀ p, (s.kernel.procs p).live = true → ∃ d, s.cwd p = some d ∧ s.tree.InTree d ∧ s.cwdBorn p = s.born d

section Step

variable {s s' : System} {t : Tree} {c : Session} {fd r : Int} {path : List Byte}

theorem Inv.lasting (h : s.Inv) : s.Lasting := by
  obtain ⟨free, kids, hs⟩ := h.sound
  refine ⟨fun p fd f d hd => ?_, fun p d hd => ?_⟩
  · obtain ⟨hlive, hslot, htype, hmeta⟩ := hd
    obtain ⟨e, he, hin, hborn⟩ := h.files f ⟨⟨p, fd, hlive, hslot⟩, htype⟩
    rw [hmeta] at he
    cases he
    exact ⟨hs.not_free hin, hborn⟩
  · obtain ⟨e, he, hin, hborn⟩ := h.cwds p hd.1
    rw [hd.2] at he
    cases he
    exact ⟨hs.not_free hin, hborn⟩

/-- An entry in the tree is not handed out. -/
theorem born_setTree {free : List Nat} {kids : Nat → List Nat} (h : Tree.Sound s.tree free kids) {d : Nat}
    (hd : s.tree.InTree d) : (s.setTree t).born d = s.born d := by
  show (if handedOut s.tree t = some d then s.born d + 1 else s.born d) = s.born d
  rw [if_neg]
  intro hout
  unfold handedOut at hout
  cases hhead : s.tree.dirMetaHead with
  | none =>
    rw [hhead] at hout
    cases hout
  | some x =>
    rw [hhead] at hout
    dsimp only at hout
    split at hout
    · cases hout
      have hcells := h.shape.freeCells
      rw [hhead] at hcells
      cases hcells with
      | cons hrest => exact h.not_free hd ((h.shape.free_iff d).mpr (List.mem_cons_self ..))
    · cases hout

theorem Inv.setTree {gone : Nat → Prop} (h : s.Inv) (hl : Tree.Leaves s.tree t gone) (hgone : ∀ d, gone d → ¬ s.Refers d) :
    (s.setTree t).Inv := by
  obtain ⟨free, kids, hs⟩ := h.sound
  refine ⟨hl.sound, h.clean, fun f hf => ?_, fun p hp => ?_⟩
  · obtain ⟨d, hd, hin, hborn⟩ := h.files f hf
    obtain ⟨⟨p, i, hp, hi⟩, htype⟩ := id hf
    have hrefers : s.Refers d := .inl ⟨p, i, f, hp, hi, htype, hd⟩
    exact ⟨d, hd, hl.inTree d hin fun hg => hgone d hg hrefers, hborn.trans (born_setTree hs hin).symm⟩
  · obtain ⟨d, hd, hin, hborn⟩ := h.cwds p hp
    have hrefers : s.Refers d := .inr ⟨p, hp, hd⟩
    exact ⟨d, hd, hl.inTree d hin fun hg => hgone d hg hrefers, hborn.trans (born_setTree hs hin).symm⟩

/-- A call that leaves open files what they are. -/
theorem Inv.setKernel {k : Files.Kernel} (h : s.Inv) (hc : Clean k) (hheld : ∀ f, Held k f → Held s.kernel f)
    (hlive : ∀ p, (k.procs p).live = true → (s.kernel.procs p).live = true) : ({ s with kernel := k } : System).Inv :=
  ⟨h.sound, hc, fun f hf => h.files f (hheld f hf), fun p hp => h.cwds p (hlive p hp)⟩

/-- The paths of a live process start in the tree. -/
theorem Inv.stands (h : s.Inv) (hlive : (s.kernel.procs c.process).live = true) (hd : s.Descends c fd path) :
    s.tree.Stands (s.caller c) fd path := by
  obtain ⟨free, kids, hs⟩ := h.sound
  have hcwd : ∀ d, (s.caller c).cwd = some d → s.tree.InTree d := fun d hd => by
    obtain ⟨e, he, hin, -⟩ := h.cwds c.process hlive
    have hed : some e = some d := he.symm.trans hd
    cases hed
    exact hin
  refine ⟨hcwd, fun d hstart => ?_⟩
  unfold Tree.startDir at hstart
  split at hstart
  · rename_i hrel
    obtain ⟨f, hslot, hmeta⟩ := Option.map_eq_some_iff.mp hstart
    obtain ⟨e, he, hin, -⟩ := h.files f ⟨⟨_, _, hlive, hslot⟩, hd hrel.1 hrel.2.1 hrel.2.2.1 hrel.2.2.2 f hslot⟩
    rw [hmeta] at he
    cases he
    exact hin
  · split at hstart
    · cases hstart
      exact .root ⟨_, hs.mounted.root, rfl⟩
    · split at hstart
      · exact hcwd d (Option.some.inj hstart)
      · cases hstart

/-- What `syscallOpenAt` finds is in the tree. -/
theorem findEntry_leaves {n : Nat} {t' : Tree} {caller : Caller} {free : List Nat} {kids : Nat → List Nat} {flags mode : Nat}
    {found : Except Int Nat} (h : Tree.Sound t free kids) (hc : t.Stands caller fd path)
    (hr : findEntry n t caller fd path flags mode = .ok (found, t')) :
    Tree.Leaves t t' (fun _ => False) ∧ ∀ d, found = .ok d → t'.InTree d := by
  unfold findEntry at hr
  split at hr
  · cases hcreate : Tree.metaCreate n t caller fd path .file mode with
    | error e =>
      rw [hcreate] at hr
      cases hr
    | ok q =>
      obtain ⟨r, t₁⟩ := q
      obtain ⟨hl, hin⟩ := h.metaCreate hc hcreate
      rw [hcreate] at hr
      cases r with
      | none =>
        cases hr
        exact ⟨hl, fun d hd => by cases hd⟩
      | some d =>
        cases hr
        refine ⟨hl, fun e he => ?_⟩
        cases he
        exact (hin d rfl).1
  · cases hname : Tree.metaName n t caller fd path true with
    | error e =>
      rw [hname] at hr
      cases hr
    | ok q =>
      obtain ⟨r, t₁⟩ := q
      obtain ⟨hs, hin⟩ := Tree.metaName_rooted h.shape h.mounted hc hname
      have hl := h.leaves_still hs
      rw [hname] at hr
      cases r with
      | none =>
        cases hr
        exact ⟨hl, fun d hd => by cases hd⟩
      | some d =>
        dsimp only at hr
        split at hr
        · cases hr
          exact ⟨hl, fun d hd => by cases hd⟩
        · split at hr
          · cases hr
            exact ⟨hl, fun d hd => by cases hd⟩
          · cases hr
            refine ⟨hl, fun e he => ?_⟩
            cases he
            exact (hs.inTree d).mpr (hin d rfl)

/-- The file of a new descriptor stands for an entry in the tree. -/
theorem Inv.openFile {p d flags : Nat} (h : s.Inv) (hlive : (s.kernel.procs p).live = true) (hd : s.tree.InTree d)
    (hr : s.openFile p d flags = some (r, s')) : s'.Inv := by
  obtain ⟨free, kids, hs⟩ := h.sound
  unfold System.openFile at hr
  cases hopen : Files.openEntry p none flags s.kernel with
  | error e =>
    rw [hopen] at hr
    cases hr
  | ok q =>
    obtain ⟨x, k⟩ := q
    rw [hopen] at hr
    dsimp only at hr
    have hwith : Files.openWith p (-24) (fun file => { file.modes flags with type := .entry }) s.kernel = .ok (x, k) := hopen
    rcases openWith_cases hlive hwith with ⟨rfl, hn⟩ | ⟨f, i, file, rfl, hslot, hfile, ho⟩
    · rw [if_pos (by decide)] at hr
      cases hr
      exact h.setKernel (hn.clean h.clean) (fun f => hn.held) fun q hq => (hn.proc q).1 ▸ hq
    · have hnat : ((i : Nat) : Int).toNat = i := rfl
      rw [if_neg (by omega), hnat, hslot] at hr
      cases htrunc : (if ¬ s.tree.isDir d ∧ flags &&& O_TRUNC ≠ 0 then s.tree.metaTrunc d else .ok s.tree) with
      | error e =>
        rw [htrunc] at hr
        cases hr
      | ok t =>
        rw [htrunc] at hr
        cases hr
        have hstill : Tree.Still s.tree t := by
          split at htrunc
          · exact Tree.still_metaTrunc htrunc
          · cases htrunc
            exact .refl _
        refine ⟨⟨free, kids, hs.still hstill⟩, ho.clean h.clean, fun g hg => ?_, fun q hq => ?_⟩
        · by_cases hgf : g = f
          · subst hgf
            refine ⟨d, update_self .., (hstill.inTree d).mpr hd, update_self ..⟩
          · obtain ⟨e, he, hin, hborn⟩ := h.files g (ho.held hg hgf)
            refine ⟨e, ?_, (hstill.inTree e).mpr hin, ?_⟩
            · exact (update_of_ne hgf _ _).trans he
            · exact (update_of_ne hgf _ _).trans hborn
        · obtain ⟨e, he, hin, hborn⟩ := h.cwds q ((ho.proc q).1 ▸ hq)
          exact ⟨e, he, (hstill.inTree e).mpr hin, hborn⟩

/-- A directory becomes the working directory of a process. -/
theorem Inv.setCwd {p d : Nat} (h : s.Inv) (hd : s.tree.InTree d) : ({ s with
    cwd := update s.cwd p (some d), cwdBorn := update s.cwdBorn p (s.born d) } : System).Inv := by
  refine ⟨h.sound, h.clean, h.files, fun q hq => ?_⟩
  by_cases hqp : q = p
  · subst hqp
    exact ⟨d, update_self .., hd, update_self ..⟩
  · obtain ⟨e, he, hin, hborn⟩ := h.cwds q hq
    exact ⟨e, (update_of_ne hqp _ _).trans he, hin, (update_of_ne hqp _ _).trans hborn⟩

/-- Whatever `openat` opens. -/
theorem Inv.syscallOpenAt {flags mode : Nat} (h : s.Inv) (hlive : (s.kernel.procs c.process).live = true)
    (hd : s.Descends c fd path) (hr : s.syscallOpenAt c fd path flags mode = some (r, s')) : s'.Inv := by
  obtain ⟨free, kids, hs⟩ := h.sound
  unfold System.syscallOpenAt at hr
  split at hr
  · cases hopen : Files.tmpfileOpenAt c.process (path.map UInt8.ofBitVec) flags s.kernel with
    | error e =>
      rw [hopen] at hr
      cases hr
    | ok q =>
      obtain ⟨x, k⟩ := q
      rw [hopen] at hr
      cases hr
      obtain ⟨hc, hheld, hproc⟩ := held_tmpfileOpenAt hlive h.clean hopen
      exact h.setKernel hc hheld hproc
  · split at hr
    · cases hopen : Files.interpfileOpenAt c.process s.kernel with
      | error e =>
        rw [hopen] at hr
        cases hr
      | ok q =>
        obtain ⟨x, k⟩ := q
        rw [hopen] at hr
        cases hr
        obtain ⟨hc, hheld, hproc⟩ := held_openWith (fun _ htype => by cases htype) hlive h.clean hopen
        exact h.setKernel hc hheld hproc
    · cases hfind : findEntry c.depth s.tree (s.caller c) fd path flags mode with
      | error e =>
        rw [hfind] at hr
        cases hr
      | ok q =>
        obtain ⟨found, t⟩ := q
        obtain ⟨hl, hin⟩ := findEntry_leaves hs (h.stands hlive hd) hfind
        have h₁ := h.setTree hl fun _ => False.elim
        rw [hfind] at hr
        cases found with
        | error x =>
          cases hr
          exact h₁
        | ok d => exact h₁.openFile hlive (hin d rfl) hr

/-- One call keeps what processes hold in the tree. -/
theorem Inv.exec {op : SysOp} (h : s.Inv) (he : s.Enabled op) (hm : s.Meets op) (hr : s.exec op = some s') : s'.Inv := by
  obtain ⟨free, kids, hs⟩ := h.sound
  cases op with
  | create p th pgdir =>
    cases hr
    obtain ⟨hc, hheld⟩ := held_setupProc h.clean he pgdir
    have hroot : s.tree.InTree (rootOf s.tree.rootFileSystem) := .root ⟨_, hs.mounted.root, rfl⟩
    refine ⟨h.sound, ⟨hc.dead, hc.range, hc.hard⟩, fun f hf => h.files f (hheld f hf), fun q hq => ?_⟩
    by_cases hqp : q = p
    · subst hqp
      exact ⟨_, update_self .., hroot, update_self ..⟩
    · have hlive : (s.kernel.procs q).live = true := by simpa [System.create, Files.setupProc, hqp] using hq
      obtain ⟨e, he, hin, hborn⟩ := h.cwds q hlive
      exact ⟨e, (update_of_ne hqp _ _).trans he, hin, (update_of_ne hqp _ _).trans hborn⟩
  | openat c startFd path flags mode =>
    obtain ⟨⟨x, s₁⟩, hopen, rfl⟩ := Option.map_eq_some_iff.mp hr
    exact h.syscallOpenAt he hm hopen
  | unlinkat c dirFd path =>
    obtain ⟨⟨x, s₁⟩, hunlink, rfl⟩ := Option.map_eq_some_iff.mp hr
    unfold System.syscallUnlinkAt at hunlink
    cases hdo : Tree.do_unlinkat c.depth s.tree (s.caller c) dirFd path with
    | error e =>
      rw [hdo] at hunlink
      cases hunlink
    | ok q =>
      obtain ⟨y, t⟩ := q
      rw [hdo] at hunlink
      cases hunlink
      have hl := hs.do_unlinkat (h.stands he hm.1) (fun d t ht => (hm.2 d t ht).1) hdo
      exact h.setTree hl fun d hd => hd.elim fun t ht => (hm.2 d t ht).2
  | mkdirat c dirFd path mode =>
    obtain ⟨⟨x, s₁⟩, hmkdir, rfl⟩ := Option.map_eq_some_iff.mp hr
    unfold System.syscallMakeDirAt at hmkdir
    split at hmkdir
    · cases hmkdir
      exact h
    · cases hcreate : Tree.metaCreate c.depth s.tree (s.caller c) dirFd path .dir mode with
      | error e =>
        rw [hcreate] at hmkdir
        cases hmkdir
      | ok q =>
        obtain ⟨y, t⟩ := q
        rw [hcreate] at hmkdir
        cases hmkdir
        exact h.setTree (hs.metaCreate (h.stands he hm) hcreate).1 fun _ => False.elim
  | linkat c oldDirFd oldPath newDirFd newPath =>
    obtain ⟨⟨x, s₁⟩, hlink, rfl⟩ := Option.map_eq_some_iff.mp hr
    unfold System.syscallLinkAt at hlink
    cases hdo : Tree.do_linkat c.depth s.tree (s.caller c) oldDirFd oldPath newDirFd newPath with
    | error e =>
      rw [hdo] at hlink
      cases hlink
    | ok q =>
      obtain ⟨y, t⟩ := q
      rw [hdo] at hlink
      cases hlink
      have hl := hs.do_linkat (h.stands he hm.1) (h.stands he hm.2.1) (fun d hd => (hm.2.2 d hd).1) hdo
      exact h.setTree hl fun d hd => (hm.2.2 d hd).2
  | chdir c path =>
    obtain ⟨⟨x, s₁⟩, hchdir, rfl⟩ := Option.map_eq_some_iff.mp hr
    have hstands : s.tree.Stands (s.caller c) AT_FDCWD path := h.stands he fun _ hfd => absurd rfl hfd
    unfold System.syscallChangeDir at hchdir
    cases hname : Tree.metaName c.depth s.tree (s.caller c) AT_FDCWD path true with
    | error e =>
      rw [hname] at hchdir
      cases hchdir
    | ok q =>
      obtain ⟨y, t⟩ := q
      obtain ⟨hst, hin⟩ := Tree.metaName_rooted hs.shape hs.mounted hstands hname
      have h₁ := h.setTree (hs.leaves_still hst) fun _ => False.elim
      rw [hname] at hchdir
      cases y with
      | none =>
        cases hchdir
        exact h₁
      | some d =>
        dsimp only at hchdir
        split at hchdir
        · cases hchdir
          exact h₁
        · cases hchdir
          exact h₁.setCwd ((hst.inTree d).mpr (hin d rfl))
  | fork p c th pgdir =>
    have hr : s.processFork p c th pgdir = some s' := hr
    unfold System.processFork at hr
    cases hfork : Files.processFork p c th pgdir s.kernel with
    | error e =>
      rw [hfork] at hr
      cases hr
    | ok k =>
      rw [hfork] at hr
      cases hr
      obtain ⟨hc, hheld, hproc⟩ := held_processFork h.clean he.1 he.2 hfork
      refine ⟨h.sound, hc, fun f hf => h.files f (hheld f hf), fun q hq => ?_⟩
      by_cases hqc : q = c
      · subst hqc
        obtain ⟨e, hcwd, hin, hborn⟩ := h.cwds p he.1
        exact ⟨e, (update_self ..).trans hcwd, hin, (update_self ..).trans hborn⟩
      · obtain ⟨e, hcwd, hin, hborn⟩ := h.cwds q ((hproc q hqc) ▸ hq)
        exact ⟨e, (update_of_ne hqc _ _).trans hcwd, hin, (update_of_ne hqc _ _).trans hborn⟩
  | close p fd =>
    obtain ⟨⟨x, s₁⟩, hclose, rfl⟩ := Option.map_eq_some_iff.mp hr
    cases hfile : Files.syscallClose p fd s.kernel with
    | error e =>
      rw [hfile] at hclose
      cases hclose
    | ok q =>
      obtain ⟨y, k⟩ := q
      rw [hfile] at hclose
      cases hclose
      have hn := narrows_close hfile
      exact h.setKernel (hn.clean h.clean) (fun f => hn.held) fun q hq => (hn.proc q).1 ▸ hq
  | exit p =>
    have hr : (s.onFiles ((Files.processFree p s.kernel).map fun k => (0, k))).map Prod.snd = some s' := hr
    cases hfree : Files.processFree p s.kernel with
    | error e =>
      rw [hfree] at hr
      cases hr
    | ok k =>
      rw [hfree] at hr
      cases hr
      obtain ⟨hc, hheld, hproc⟩ := held_processFree h.clean hfree
      exact h.setKernel hc hheld hproc

end Step

variable {s : System}

theorem Init.inv (h : s.Init) : s.Inv := by
  obtain ⟨⟨-, -, -, -, hprocs, -⟩, n, c, script, d, hc, hboot⟩ := h
  refine ⟨Tree.sound_initRootFileSystem hc hboot, ⟨fun p _ => (hprocs p).2, fun p fd f hf => ?_, fun p hp => ?_⟩,
    fun f hf => ?_, fun p hp => ?_⟩
  · rw [(hprocs p).2] at hf
    cases hf
  · rw [(hprocs p).1] at hp
    cases hp
  · obtain ⟨⟨p, fd, hp, -⟩, -⟩ := hf
    rw [(hprocs p).1] at hp
    cases hp
  · rw [(hprocs p).1] at hp
    cases hp

theorem Reached.inv (h : Reached Meets s) : s.Inv :=
  h.invariant (fun _ hi => hi.inv) fun _ _ hi ⟨_, he, hm, hr⟩ => hi.exec he hm hr

/-- **What a process holds lasts**, as long as no call removes an entry that has children or that a process
holds, and none starts a path at something that is no entry. -/
theorem lasting_of_reached (s : System) (h : Reached Meets s) : s.Lasting := h.inv.lasting

/-! ## One process -/

/-- Boot on a small volume with an empty root. -/
def booted : Option System :=
  Tree.booted.toOption.map fun t => ⟨Files.boot, t, fun _ => none, fun _ => none, fun _ => 0, fun _ => 0, fun _ => 0⟩

theorem booted_init (h : booted = some s) : s.Init := by
  obtain ⟨t, ht, rfl⟩ := Option.map_eq_some_iff.mp h
  have hok : Tree.booted = .ok t := by
    cases hx : Tree.booted with
    | error e =>
      rw [hx] at ht
      cases ht
    | ok v =>
      rw [hx] at ht
      cases ht
      rfl
  exact ⟨Files.boot_init, 1, Tree.atBoot, [], smallDisk 40, rfl, Tree.initRootFileSystem_small.trans hok⟩

def session : Session := ⟨0, fun _ => [], 1⟩

def pathF : List Byte := bytes "/f"
def pathG : List Byte := bytes "/g"
def pathH : List Byte := bytes "/h"

def createProcess : SysOp := .create 0 0 Files.dirPage
def mkdirF : SysOp := .mkdirat session AT_FDCWD pathF 0
def openF : SysOp := .openat session AT_FDCWD pathF 0 0
def chdirF : SysOp := .chdir session pathF
def unlinkF : SysOp := .unlinkat session AT_FDCWD pathF
def mkdirG : SysOp := .mkdirat session AT_FDCWD pathG 0
def linkF : SysOp := .linkat session AT_FDCWD pathF AT_FDCWD pathH
def unlinkG : SysOp := .unlinkat session AT_FDCWD pathG

/-- A process makes the directory `/f` and opens it; then it removes `/f` and makes `/g`. -/
def reuseRun : Option (System × System × System × System × System × System) := do
  let s₀ ← booted
  let s₁ ← s₀.exec createProcess
  let s₂ ← s₁.exec mkdirF
  let s₃ ← s₂.exec openF
  let s₄ ← s₃.exec unlinkF
  let s₅ ← s₄.exec mkdirG
  return (s₀, s₁, s₂, s₃, s₄, s₅)

def live (s : System) : Bool := (s.kernel.procs 0).live

/-- Entry `d` is in file 1, at the first descriptor of process 0. -/
def holds (s : System) (d : Nat) : Bool :=
  s.live && decide ((s.kernel.procs 0).ofile 0 = some 1) && decide ((s.kernel.files 1).type = .entry) && decide (s.metas 1 = some d)

theorem opened_of_holds {d : Nat} (h : s.holds d = true) : s.Opened 0 0 1 d := by
  simp only [holds, live, Bool.and_eq_true, decide_eq_true_eq] at h
  exact ⟨h.1.1.1, h.1.1.2, h.1.2, h.2⟩

theorem reuseRun_holds : (reuseRun.map fun r => decide (r.1.live = false ∧ r.2.1.live = true ∧ r.2.2.1.live = true ∧
    r.2.2.2.1.live = true ∧ r.2.2.2.2.1.live = true ∧ r.2.2.2.2.2.holds 8167 = true ∧
      r.2.2.2.2.2.fileBorn 1 ≠ r.2.2.2.2.2.born 8167)) = some true := by
  decide +kernel

theorem exists_of_map {α β : Type} {x : Option α} {f : α → β} {v : β} (h : x.map f = some v) : ∃ a, x = some a ∧ f a = v :=
  Option.map_eq_some_iff.mp h

theorem bind_some {α β : Type} {x : Option α} {f : α → Option β} {b : β} (h : (x >>= f) = some b) :
    ∃ a, x = some a ∧ f a = some b := Option.bind_eq_some_iff.mp h

/-- An absolute path starts at the root. -/
theorem descends_absolute (s : System) (c : Session) (fd : Int) {path : List Byte} (h : path.head? = some slash) :
    s.Descends c fd path := fun hrel => absurd h hrel

/-- A process makes `/f` and `/g`, links `/f` to `/h` and removes `/g`. -/
def linkRun : Option (System × System × System × System × System) := do
  let s₁ ← booted.bind fun s => s.exec createProcess
  let s₂ ← s₁.exec mkdirF
  let s₃ ← s₂.exec mkdirG
  let s₄ ← s₃.exec linkF
  let s₅ ← s₄.exec unlinkG
  return (s₁, s₂, s₃, s₄, s₅)

/-- Then it opens `/f` and goes there. -/
def chdirRun : Option (System × System) := do
  let (_, _, _, _, s₅) ← linkRun
  let s₆ ← s₅.exec openF
  let s₇ ← s₆.exec chdirF
  return (s₆, s₇)

/-- What is at the new path of the link, before it is made. -/
def atNewPath (s : System) : Option (Option Nat) := do
  let q ← (Tree.metaName 1 s.tree (s.caller session) AT_FDCWD pathF true).toOption
  let r ← (Tree.metaNameDir 1 q.2 (s.caller session) AT_FDCWD pathH).toOption
  (r.2.2.dirlookup (← r.1) r.2.1).toOption

theorem atNewPath_existing {d : Nat} (h : s.tree.Existing 1 (s.caller session) AT_FDCWD pathF AT_FDCWD pathH d) :
    s.atNewPath = some (some d) := by
  obtain ⟨e, t₁, p, name, t₂, hold, hnew, hlook⟩ := h
  unfold atNewPath
  rw [hold]
  show (Tree.metaNameDir 1 t₁ (s.caller session) AT_FDCWD pathH).toOption.bind _ = _
  rw [hnew]
  show (t₂.dirlookup p name).toOption = _
  rw [hlook]
  rfl

theorem linkRun_holds : (linkRun.map fun r => decide (r.2.2.1.atNewPath = some none ∧
    (Tree.metaName 1 r.2.2.2.1.tree (r.2.2.2.1.caller session) AT_FDCWD pathG true).toOption.map Prod.fst = some (some 8166) ∧
      (r.2.2.2.1.tree.nodes 8166).firstChild = none)) = some true := by
  decide +kernel

theorem chdirRun_holds : (chdirRun.map fun r => decide (r.1.live = true ∧ r.2.holds 8167 = true ∧ r.2.cwd 0 = some 8167)) =
    some true := by
  decide +kernel

/-- A process that has just been created holds nothing but the root. -/
theorem refers_created {s₀ : System} (h₀ : s₀.Init) (hk : s.kernel = (s₀.create 0 0 Files.dirPage).kernel)
    (hwd : s.cwd = (s₀.create 0 0 Files.dirPage).cwd) {d : Nat} (hd : s.Refers d) : d = rootOf s₀.tree.rootFileSystem := by
  obtain ⟨⟨-, -, -, -, hprocs, -⟩, -⟩ := id h₀
  rcases hd with ⟨p, fd, f, hlive, hslot, htype, -⟩ | ⟨p, hlive, hcwd⟩
  · rw [hk] at hlive hslot htype
    obtain ⟨⟨q, i, hq, -⟩, -⟩ := (held_setupProc h₀.inv.clean (hprocs 0).1 Files.dirPage).2 f ⟨⟨p, fd, hlive, hslot⟩, htype⟩
    rw [(hprocs q).1] at hq
    cases hq
  · rw [hk] at hlive
    rw [hwd] at hcwd
    by_cases hp : p = 0
    · rw [hp] at hcwd
      have hroot : some (rootOf s₀.tree.rootFileSystem) = some d := hcwd
      exact (Option.some.inj hroot).symm
    · have hother : ((Files.setupProc 0 Files.dirPage s₀.kernel).procs p).live = true := hlive
      rw [show (Files.setupProc 0 Files.dirPage s₀.kernel).procs p = s₀.kernel.procs p by simp [Files.setupProc, hp],
        (hprocs p).1] at hother
      cases hother

theorem frame_onTree {s' : System} {x : Except Halt (Int × Tree)} (h : (s.onTree x).map Prod.snd = some s') :
    s'.kernel = s.kernel ∧ s'.cwd = s.cwd := by
  cases x with
  | error e => cases h
  | ok q =>
    cases h
    exact ⟨rfl, rfl⟩

theorem frame_mkdirat {s' : System} {c : Session} {fd : Int} {path : List Byte} {mode : Nat}
    (h : s.exec (.mkdirat c fd path mode) = some s') : s'.kernel = s.kernel ∧ s'.cwd = s.cwd := by
  unfold exec syscallMakeDirAt at h
  dsimp only at h
  split at h
  · cases h
    exact ⟨rfl, rfl⟩
  · exact frame_onTree h

theorem live_congr {s' : System} (hk : s'.kernel = s.kernel) (h : s.live = true) : s'.live = true := by
  unfold live
  rwa [hk]

theorem linkRun_reached {s₁ s₂ s₃ s₄ s₅ : System} (h : linkRun = some (s₁, s₂, s₃, s₄, s₅)) : Reached Meets s₅ ∧ s₅.live = true := by
  obtain ⟨q, hq, hfacts⟩ := exists_of_map linkRun_holds
  cases h.symm.trans hq
  obtain ⟨hnew, hname, hleaf⟩ := of_decide_eq_true hfacts
  obtain ⟨r₁, hfirst, hrun⟩ := bind_some h
  obtain ⟨s₀, hboot, hcreate⟩ := Option.bind_eq_some_iff.mp hfirst
  obtain ⟨r₂, hmkdirF, hrun⟩ := bind_some hrun
  obtain ⟨r₃, hmkdirG, hrun⟩ := bind_some hrun
  obtain ⟨r₄, hlink, hrun⟩ := bind_some hrun
  obtain ⟨r₅, hunlink, hrun⟩ := bind_some hrun
  cases hrun
  cases hcreate
  have h₀ := booted_init hboot
  -- only the tree changes
  obtain ⟨hk₂, hw₂⟩ := frame_mkdirat hmkdirF
  obtain ⟨hk₃, hw₃⟩ := frame_mkdirat hmkdirG
  obtain ⟨hk₄, hw₄⟩ := frame_onTree hlink
  have hk₅ := (frame_onTree hunlink).1
  rw [hk₂] at hk₃
  rw [hw₂] at hw₃
  rw [hk₃] at hk₄
  rw [hw₃] at hw₄
  have hlive : (s₀.create 0 0 Files.dirPage).live = true := by simp [live, create, Files.setupProc]
  have hr₁ : Reached Meets (s₀.create 0 0 Files.dirPage) :=
    .step (.init h₀) ⟨createProcess, (h₀.1.2.2.2.2.1 0).1, trivial, rfl⟩
  have hr₂ : Reached Meets s₂ := .step hr₁ ⟨mkdirF, hlive, descends_absolute _ _ _ rfl, hmkdirF⟩
  have hr₃ : Reached Meets s₃ := .step hr₂ ⟨mkdirG, live_congr hk₂ hlive, descends_absolute _ _ _ rfl, hmkdirG⟩
  have hr₄ : Reached Meets s₄ := by
    refine .step hr₃ ⟨linkF, live_congr hk₃ hlive, ⟨descends_absolute _ _ _ rfl, descends_absolute _ _ _ rfl, fun d hd => ?_⟩, hlink⟩
    cases hnew.symm.trans (atNewPath_existing hd)
  refine ⟨.step hr₄ ⟨unlinkG, live_congr hk₄ hlive, ⟨descends_absolute _ _ _ rfl, fun d t hd => ?_⟩, hunlink⟩,
    live_congr (hk₅.trans hk₄) hlive⟩
  have hd : (Tree.metaName 1 s₄.tree (s₄.caller session) AT_FDCWD pathG true).toOption.map Prod.fst = some (some d) := by
    rw [show Tree.metaName 1 s₄.tree (s₄.caller session) AT_FDCWD pathG true = _ from hd]
    rfl
  cases hname.symm.trans hd
  refine ⟨hleaf, fun hrefers => ?_⟩
  -- the process holds the root alone
  have hroot := refers_created h₀ hk₄ hw₄ hrefers
  unfold rootOf DIRMETA_NUM at hroot
  omega

/-- A process has made two directories, linked one of them and removed the other; it has the first one open and works in it. -/
theorem lasting_chdir : ∃ s, Reached Meets s ∧ s.Opened 0 0 1 8167 ∧ s.Works 0 8167 ∧ s.Lasting := by
  obtain ⟨⟨s₆, s₇⟩, hrun, hseen⟩ := exists_of_map chdirRun_holds
  obtain ⟨h₆, hholds, hcwd⟩ := of_decide_eq_true hseen
  obtain ⟨⟨s₁, s₂, s₃, s₄, s₅⟩, hlinks, hrun⟩ := bind_some hrun
  obtain ⟨r₆, hopen, hrun⟩ := bind_some hrun
  obtain ⟨r₇, hchdir, hrun⟩ := bind_some hrun
  cases hrun
  obtain ⟨hr₅, h₅⟩ := linkRun_reached hlinks
  have hr₆ : Reached Meets s₆ := .step hr₅ ⟨openF, h₅, descends_absolute _ _ _ rfl, hopen⟩
  have hr₇ : Reached Meets s₇ := .step hr₆ ⟨chdirF, h₆, trivial, hchdir⟩
  have hopened := opened_of_holds hholds
  exact ⟨s₇, hr₇, hopened, ⟨hopened.1, hcwd⟩, lasting_of_reached s₇ hr₇⟩

/-- A directory that is open is removed, and its entry is handed out again for another. -/
theorem not_lasting_reuse : ¬ ∀ s : System, Reached (fun _ _ => True) s → s.Lasting := by
  intro hall
  obtain ⟨⟨s₀, s₁, s₂, s₃, s₄, s₅⟩, hrun, hseen⟩ := exists_of_map reuseRun_holds
  obtain ⟨h₀, h₁, h₂, h₃, h₄, hholds, hborn⟩ := of_decide_eq_true hseen
  obtain ⟨r₀, hboot, hrun⟩ := bind_some hrun
  obtain ⟨r₁, hcreate, hrun⟩ := bind_some hrun
  obtain ⟨r₂, hmkdirF, hrun⟩ := bind_some hrun
  obtain ⟨r₃, hopen, hrun⟩ := bind_some hrun
  obtain ⟨r₄, hunlink, hrun⟩ := bind_some hrun
  obtain ⟨r₅, hmkdir, hrun⟩ := bind_some hrun
  cases hrun
  have hr₁ : Reached (fun _ _ => True) s₁ := .step (.init (booted_init hboot)) ⟨createProcess, h₀, trivial, hcreate⟩
  have hr₂ : Reached (fun _ _ => True) s₂ := .step hr₁ ⟨mkdirF, h₁, trivial, hmkdirF⟩
  have hr₃ : Reached (fun _ _ => True) s₃ := .step hr₂ ⟨openF, h₂, trivial, hopen⟩
  have hr₄ : Reached (fun _ _ => True) s₄ := .step hr₃ ⟨unlinkF, h₃, trivial, hunlink⟩
  have hr₅ : Reached (fun _ _ => True) s₅ := .step hr₄ ⟨mkdirG, h₄, trivial, hmkdir⟩
  exact hborn ((hall s₅ hr₅).opened 0 0 1 8167 (opened_of_holds hholds)).2

end System

end Exaros.Dir
