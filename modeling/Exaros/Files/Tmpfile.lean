import Exaros.Files.Runs
import Exaros.Files.TmpBuffer

/-!
# The lifetime of a temporary file

The slots of `kernel/fs/tmpfile.c` beside the table of open files. A slot is given out by `openat` with `O_CREATE`, any number of
files may be opened on it by its name, and the last close of any of them gives it back. What is kept is therefore only that a slot in
use has its pages; that the slot of an open file is in use holds as long as no such close leaves another file behind.
-/

namespace Exaros.Tmpfiles

open Loop Files
open Function (update)

def O_APPEND : Nat := 0x400
def TMPFILE_NAME_LEN : Nat := 14

structure Store where
  k : Kernel
  m : Mem
  /-- The live page directories. -/
  dirs : Finset Ppn
  content : Nat → Buffers.Tmpfile
  /-- How often a slot has been given out, and its pages given back. -/
  allocated : Nat → Nat
  released : Nat → Nat
  /-- What `allocated` and the kernel's entries were for the slot when a file was opened on it. -/
  opened : Nat → Nat
  buffer : Nat → Nat → Option Pte

/-- What `strncmp(name + 5, …, TMPFILE_NAME_LEN)` sees of a path, and `strncpy` copies. -/
def tmpName (path : List UInt8) : List UInt8 := ((path.drop 5).takeWhile (· ≠ 0)).take TMPFILE_NAME_LEN

section Calls

variable (img : Image)

def fileclose (f : Nat) (s : Store) : Except Halt Store := do
  let k ← (Files.fileclose f s.k).mapError Halt.files
  let ff := s.k.files f
  if ff.type = .tmpfile ∧ ff.ref - 1 ≤ 0 then
    let m ← unmapBuffer img ff.tmpfile s.m
    return { s with k, m, released := update s.released ff.tmpfile (s.released ff.tmpfile + 1) }
  else return { s with k }

/-- `tmpfileAlloc` -/
def tmpfileAlloc (path : List UInt8) (s : Store) : Except Halt (Nat × Store) := do
  let (t, k) ← (Files.tmpfileAlloc (tmpName path) s.k).mapError Halt.files
  let m ← mapBuffer img t s.m
  return (t, { s with
    k, m
    content := update s.content t { s.content t with offset := 0, fileSize := 0 }
    allocated := update s.allocated t (s.allocated t + 1) })

/-- The file and the descriptor of `tmpfileOpenAt`. -/
def openSlot (p t flags : Nat) (s : Store) : Except Halt (Int × Store) :=
  match filealloc s.k with
  | none => .ok (-24, s)
  | some (f, k) =>
    match fdalloc p f k with
    | (none, k) => (fileclose img f { s with k }).map fun s => (-24, s)
    | (some fd, k) =>
      let k := k.setFile f { (k.files f).modes flags with type := .tmpfile, tmpfile := t }
      let offset := if flags &&& O_APPEND ≠ 0 then (s.content t).fileSize else 0
      .ok (fd, { s with
        k
        content := update s.content t { s.content t with offset }
        opened := update s.opened f (s.allocated t)
        buffer := update s.buffer f (entry img s.m t) })

def tmpfileOpenAt (p : Nat) (path : List UInt8) (flags : Nat) (s : Store) : Except Halt (Int × Store) :=
  if flags &&& O_CREATE ≠ 0 then do
    let (t, s) ← tmpfileAlloc img path s
    openSlot img p t flags s
  else
    match tmpfileName (tmpName path) s.k with
    | none => .ok (-ENOENT, s)
    | some t => openSlot img p t flags s

def syscallClose (p : Nat) (fd : Int) (s : Store) : Except Halt (Int × Store) :=
  match s.k.argfd p fd with
  | none => .ok (-1, s)
  | some f => (fileclose img f { s with k := s.k.setSlot p fd.toNat none }).map fun s => (0, s)

/-- The file `dup3` finds at the new descriptor. -/
def closeOld : Option Nat → Store → Except Halt Store
  | none, s => .ok s
  | some f2, s => fileclose img f2 s

def syscallDupAndSet (p : Nat) (fd fdnew : Int) (s : Store) : Except Halt (Int × Store) :=
  match s.k.argfd p fd with
  | none => .ok (-1, s)
  | some f =>
    if fdnew < 0 ∨ NOFILE ≤ fdnew then .ok (-1, s)
    else do
      let s ← closeOld img ((s.k.procs p).ofile fdnew.toNat) s
      let k ← (filedup f (s.k.setSlot p fdnew.toNat (some f))).mapError Halt.files
      return (fdnew, { s with k })

/-- One turn of the loop over descriptors in `processFree`. -/
def freeSlot (p : Nat) (s : Store) (fd : Nat) : Except Halt Store :=
  match (s.k.procs p).ofile fd with
  | none => .ok s
  | some f => (fileclose img f s).map fun s => { s with k := s.k.setSlot p fd none }

def processFree (p : Nat) (s : Store) : Except Halt Store :=
  ((List.range NOFILE).foldlM (freeSlot img p) s).map fun s => { s with k := dropProc p s.k }

/-- `fileread` on a temporary file. -/
def fileread (src : Buffers.Source) (pgdir : Ppn) (f addr n : Nat) (s : Store) : Except Halt (Int × Store) :=
  let file := s.k.files f
  if file.readable = false then .ok (-1, s)
  else ((Buffers.tmpfileRead src true pgdir addr n (s.content file.tmpfile) s.m).mapError Halt.buffer).map fun r =>
    (r.1, { s with content := update s.content file.tmpfile r.2.1, m := r.2.2 })

/-- `filewrite` on a temporary file. -/
def filewrite (src : Buffers.Source) (pgdir : Ppn) (f addr n : Nat) (s : Store) : Except Halt (Int × Store) :=
  let file := s.k.files f
  if file.writable = false then .ok (-1, s)
  else ((Buffers.tmpfileWrite src true pgdir addr n (s.content file.tmpfile) s.m).mapError Halt.buffer).map fun r =>
    (r.1, { s with content := update s.content file.tmpfile r.2.1, m := r.2.2.1 })

end Calls

inductive Op
  | create (p th : Nat) (pgdir : Ppn)
  | openAt (p : Nat) (path : List UInt8) (flags : Nat)
  | read (src : Buffers.Source) (p f addr n : Nat)
  | write (src : Buffers.Source) (p f addr n : Nat)
  | dup (p : Nat) (fd : Int)
  | dup3 (p : Nat) (fd fdnew : Int)
  | fcntl (p : Nat) (fd : Int)
  | close (p : Nat) (fd : Int)
  | fork (p c th : Nat) (pgdir : Ppn)
  | exit (p : Nat)

/-- A call that works on the table of open files only. -/
def onTable (x : Except Files.Halt Kernel) (s : Store) : Except Halt Store :=
  (x.mapError Halt.files).map fun k => { s with k }

def exec (img : Image) (op : Op) (s : Store) : Except Halt Store :=
  match op with
  | .create p th pgdir => .ok { s with k := { setupProc p pgdir s.k with owner := update s.k.owner th (some p) } }
  | .openAt p path flags => (tmpfileOpenAt img p path flags s).map (·.2)
  | .read src p f addr n => (fileread src (s.k.procs p).pgdir f addr n s).map (·.2)
  | .write src p f addr n => (filewrite src (s.k.procs p).pgdir f addr n s).map (·.2)
  | .dup p fd => onTable ((syscallDup p fd s.k).map (·.2)) s
  | .dup3 p fd fdnew => (syscallDupAndSet img p fd fdnew s).map (·.2)
  | .fcntl p fd => onTable ((fcntlDupfd p fd s.k).map (·.2)) s
  | .close p fd => (syscallClose img p fd s).map (·.2)
  | .fork p c th pgdir => onTable (processFork p c th pgdir s.k) s
  | .exit p => processFree img p s

/-- A buffer is in the live address space of the process that reads or writes. -/
def Op.Enabled (img : Image) (op : Op) (s : Store) : Prop :=
  match op with
  | .read _ p f _ _ | .write _ p f _ _ =>
    (s.k.files f).type = .tmpfile ∧ (s.k.procs p).pgdir ∈ s.dirs ∧ (s.k.procs p).pgdir ≠ img.kernelPageDirectory
  | _ => True

/-- What else the kernel does: to memory, where the kernel's entries for the buffers stay, and to files of other types. -/
structure Rest (img : Image) (s s' : Store) : Prop where
  inv : MemInv img s'.m s'.dirs
  entry : ∀ t < TMPFILE_COUNT, ∀ j < 16, entry img s'.m t j = entry img s.m t j
  files : ∀ f, (s.k.files f).type = .tmpfile ∨ (s'.k.files f).type = .tmpfile → s'.k.files f = s.k.files f
  tmpfiles : s'.k.tmpfiles = s.k.tmpfiles
  content : s'.content = s.content
  allocated : s'.allocated = s.allocated
  released : s'.released = s.released
  opened : s'.opened = s.opened
  buffer : s'.buffer = s.buffer

/-- After boot no slot is in use. -/
structure Start (img : Image) (s : Store) : Prop where
  init : s.k.Init
  mem : MemInv img s.m s.dirs
  entry : ∀ t < TMPFILE_COUNT, ∀ j < 16, entry img s.m t j = none
  allocated : ∀ t, s.allocated t = 0
  released : ∀ t, s.released t = 0

/-- File `f` is open on slot `t`. -/
def Held (k : Kernel) (f t : Nat) : Prop := 0 < (k.files f).ref ∧ (k.files f).type = .tmpfile ∧ (k.files f).tmpfile = t

/-- The slot of an open file is in use and has not been given out again, with the pages it had when the file was opened. A slot in use
has its pages, and every slot given out has been given back once, unless it is in use. -/
structure Sound (img : Image) (s : Store) : Prop where
  file : ∀ f t, Held s.k f t → t < TMPFILE_COUNT ∧ (s.k.tmpfiles t).used = true ∧ s.allocated t = s.opened f ∧
    ∀ j < 16, entry img s.m t j = s.buffer f j
  mapped : ∀ t < TMPFILE_COUNT, (s.k.tmpfiles t).used = true → ∀ j < 16, (entry img s.m t j).isSome = true
  released : ∀ t < TMPFILE_COUNT, s.released t + (if (s.k.tmpfiles t).used then 1 else 0) = s.allocated t
  unmapped : ∀ t < TMPFILE_COUNT, (s.k.tmpfiles t).used = false → ∀ j < 16, entry img s.m t j = none

/-- If this is the last close of a file on a slot, no other file is open on it. -/
def LastAlone (f : Nat) (k : Kernel) : Prop :=
  ∀ t, Held k f t → (k.files f).ref = 1 → ∀ g, g ≠ f → ¬ Held k g t

/-- `LastAlone` at each close of the loop of `processFree`. -/
def FreeMeets (img : Image) (p : Nat) (s : Store) : Prop :=
  ∀ fd < NOFILE, ∀ s₁, (List.range fd).foldlM (freeSlot img p) s = .ok s₁ →
    ∀ f, (s₁.k.procs p).ofile fd = some f → LastAlone f s₁.k

/-- The states from which a call closes no file that leaves another one on its slot. -/
def Op.Meets (img : Image) (op : Op) (s : Store) : Prop :=
  match op with
  | .close p fd => ∀ f, s.k.argfd p fd = some f → LastAlone f s.k
  | .dup3 p fd fdnew => s.k.argfd p fd ≠ none → 0 ≤ fdnew → fdnew < NOFILE →
    ∀ f, (s.k.procs p).ofile fdnew.toNat = some f → LastAlone f s.k
  | .exit p => FreeMeets img p s
  | _ => True

/-- The states that calls reach which all meet `P` where they are made, whatever else the kernel does between them. -/
def Reached (img : Image) (P : Op → Store → Prop) : Store → Prop :=
  Run.Reach (Start img) fun s s' => (∃ op : Op, op.Enabled img s ∧ P op s ∧ exec img op s = .ok s') ∨ Rest img s s'

end Exaros.Tmpfiles
