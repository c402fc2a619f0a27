import Exaros.Pipes.Pipe

/-!
# Open files

`kernel/fs/file.c` and the system calls that make, share and drop descriptors, over the table of open
files, the descriptors of every process, and the objects behind files that a last close gives back: pipe
ends, sockets and tmpfiles. What the file system finds for a path, and whether memory has a page, enters a
system call as an argument. The buffer pages of sockets and tmpfiles, the offsets and the directory
entries, which no reference count reads, are left out.
-/

namespace Exaros.Files

open Pipes (World)
open Function (update)

def NFILE : Nat := 512
def NOFILE : Nat := 1024
def PROCESS_TOTAL_NUMBER : Nat := 1024
def SOCKET_COUNT : Nat := 128
def TMPFILE_COUNT : Nat := 128
def NDEV : Int := 4
def EMFILE : Int := 24
def ENOENT : Int := 2
def O_WRONLY : Nat := 0x001
def O_RDWR : Nat := 0x002
def O_CREATE : Nat := 0x40

inductive FdType
  | none
  | pipe
  | entry
  | device
  | socket
  | tmpfile
  | interpfile
deriving DecidableEq

structure File where
  type : FdType
  ref : Int
  readable : Bool
  writable : Bool
  pipe : Nat
  socket : Nat
  tmpfile : Nat

structure Proc where
  live : Bool
  ofile : Nat → Option Nat
  hard : Nat
  pgdir : Ppn

structure Tmpfile where
  used : Bool
  filename : List UInt8

structure Kernel where
  world : World
  files : Nat → File
  procs : Nat → Proc
  sockets : Nat → Bool
  tmpfiles : Nat → Tmpfile
  /-- the files behind the mounted file systems -/
  images : List Nat
  /-- the process of a thread -/
  owner : Nat → Option Nat

inductive Halt
  /-- `filedup`: "filedup" -/
  | filedup
  /-- `fileclose`: "fileclose" -/
  | fileclose
  /-- a panic inside a pipe -/
  | pipe (e : Pipes.Halt)
  /-- a store through a null `File *` -/
  | nullFile
  /-- `accept`: no socket behind the descriptor, or `assert(new_f != NULL)` -/
  | accept
  /-- `socketAlloc`: "socket run out.", or no page for its buffer -/
  | socketRunOut
  /-- `tmpfileAlloc`: "run out tmpfile" -/
  | tmpfileRunOut
  /-- `syscallDevice`: "dev file on FAT" -/
  | devOnFat
deriving DecidableEq

namespace Kernel

def setFile (k : Kernel) (f : Nat) (file : File) : Kernel := { k with files := update k.files f file }

/-- `p->ofile[fd] = file` -/
def setSlot (k : Kernel) (p fd : Nat) (file : Option Nat) : Kernel :=
  let proc := { k.procs p with ofile := update (k.procs p).ofile fd file }
  { k with procs := update k.procs p proc }

/-- `fd < 0 || fd >= NOFILE || (f = myProcess()->ofile[fd]) == NULL`, or the file. -/
def argfd (k : Kernel) (p : Nat) (fd : Int) : Option Nat :=
  if 0 ≤ fd ∧ fd < NOFILE then (k.procs p).ofile fd.toNat else none

end Kernel

/-! ## `file.c` -/

def filealloc (k : Kernel) : Option (Nat × Kernel) :=
  match (List.range NFILE).find? fun f => (k.files f).ref = 0 with
  | none => none
  | some f => some (f, k.setFile f { k.files f with ref := 1 })

def filedup (f : Nat) (k : Kernel) : Except Halt Kernel :=
  if (k.files f).ref < 1 then .error .filedup
  else .ok (k.setFile f { k.files f with ref := (k.files f).ref + 1 })

def socketFree (s : Nat) (k : Kernel) : Kernel := { k with sockets := update k.sockets s false }

def tmpfileClose (t : Nat) (k : Kernel) : Kernel :=
  { k with tmpfiles := update k.tmpfiles t { k.tmpfiles t with used := false } }

def fileclose (f : Nat) (k : Kernel) : Except Halt Kernel :=
  let ff := k.files f
  if ff.ref < 1 then .error .fileclose
  else if ff.ref - 1 > 0 then .ok (k.setFile f { ff with ref := ff.ref - 1 })
  else
    let k := k.setFile f { ff with ref := 0, type := .none }
    match ff.type with
    | .pipe => .ok { k with world := Pipes.pipeClose ff.pipe ff.writable k.world }
    | .socket => .ok (socketFree ff.socket k)
    | .tmpfile => .ok (tmpfileClose ff.tmpfile k)
    | _ => .ok k

/-! ## Descriptors -/

/-- `fdalloc`; `none` is `-1`. -/
def fdalloc (p f : Nat) (k : Kernel) : Option Nat × Kernel :=
  match (List.range (k.procs p).hard).find? fun fd => ((k.procs p).ofile fd).isNone with
  | none => (none, k)
  | some fd => (some fd, k.setSlot p fd (some f))

def syscallDup (p : Nat) (fd : Int) (k : Kernel) : Except Halt (Int × Kernel) :=
  match k.argfd p fd with
  | none => .ok (-1, k)
  | some f =>
    match fdalloc p f k with
    | (none, k) => .ok (-EMFILE, k)
    | (some fd, k) => (filedup f k).map fun k => (fd, k)

def syscallDupAndSet (p : Nat) (fd fdnew : Int) (k : Kernel) : Except Halt (Int × Kernel) :=
  match k.argfd p fd with
  | none => .ok (-1, k)
  | some f =>
    if fdnew < 0 ∨ NOFILE ≤ fdnew then .ok (-1, k)
    else do
      let k ← match (k.procs p).ofile fdnew.toNat with
        | none => .ok k
        | some f2 => fileclose f2 k
      (filedup f (k.setSlot p fdnew.toNat (some f))).map fun k => (fdnew, k)

/-- `syscall_fcntl` with `FCNTL_DUPFD_CLOEXEC`. -/
def fcntlDupfd (p : Nat) (fd : Int) (k : Kernel) : Except Halt (Int × Kernel) :=
  match k.argfd p fd with
  | none => .ok (-1, k)
  | some f =>
    let (fd, k) := fdalloc p f k
    (filedup f k).map fun k => ((fd.map Int.ofNat).getD (-1), k)

def syscallClose (p : Nat) (fd : Int) (k : Kernel) : Except Halt (Int × Kernel) :=
  match k.argfd p fd with
  | none => .ok (-1, k)
  | some f => (fileclose f (k.setSlot p fd.toNat none)).map fun k => (0, k)

/-! ## Opening -/

/-- `if ((file = filealloc()) == NULL || (fd = fdalloc(file)) < 0)`, with the file closed again when there
is no descriptor for it. -/
def allocPair (p : Nat) (k : Kernel) : Except Halt (Option (Nat × Nat) × Kernel) :=
  match filealloc k with
  | none => .ok (none, k)
  | some (f, k) =>
    match fdalloc p f k with
    | (none, k) => (fileclose f k).map fun k => (none, k)
    | (some fd, k) => .ok (some (f, fd), k)

/-- What the opening calls do with the new file. -/
def openWith (p : Nat) (fail : Int) (fill : File → File) (k : Kernel) : Except Halt (Int × Kernel) :=
  (allocPair p k).map fun r =>
    match r with
    | (none, k) => (fail, k)
    | (some (f, fd), k) => ((fd : Int), k.setFile f (fill (k.files f)))

/-- `readable` and `writable` by the flags. -/
def File.modes (file : File) (flags : Nat) : File :=
  { file with
    readable := decide (flags &&& O_WRONLY = 0)
    writable := decide (flags &&& O_WRONLY ≠ 0 ∨ flags &&& O_RDWR ≠ 0) }

/-- `syscallOpenAt` on the file system, which answers `found` for the path: no error, or the result of the
call. -/
def openEntry (p : Nat) (found : Option Int) (flags : Nat) (k : Kernel) : Except Halt (Int × Kernel) :=
  match found with
  | some r => .ok (r, k)
  | none => openWith p (-24) (fun file => { file.modes flags with type := .entry }) k

def tmpfileAlloc (name : List UInt8) (k : Kernel) : Except Halt (Nat × Kernel) :=
  match (List.range TMPFILE_COUNT).find? fun t => (k.tmpfiles t).used = false with
  | none => .error .tmpfileRunOut
  | some t => .ok (t, { k with tmpfiles := update k.tmpfiles t { used := true, filename := name } })

def tmpfileName (name : List UInt8) (k : Kernel) : Option Nat :=
  (List.range TMPFILE_COUNT).find? fun t => (k.tmpfiles t).used ∧ (k.tmpfiles t).filename = name

/-- `tmpfileOpenAt` -/
def tmpfileOpenAt (p : Nat) (name : List UInt8) (flags : Nat) (k : Kernel) : Except Halt (Int × Kernel) :=
  if flags &&& O_CREATE ≠ 0 then do
    let (t, k) ← tmpfileAlloc name k
    openWith p (-24) (fun file => { file.modes flags with type := .tmpfile, tmpfile := t }) k
  else
    match tmpfileName name k with
    | none => .ok (-ENOENT, k)
    | some t => openWith p (-24) (fun file => { file.modes flags with type := .tmpfile, tmpfile := t }) k

/-- `interpfileOpenAt` -/
def interpfileOpenAt (p : Nat) (k : Kernel) : Except Halt (Int × Kernel) :=
  openWith p (-24) (fun file => { file with type := .interpfile, readable := true, writable := false }) k

def syscallDevice (p : Nat) (major : Int) (omode : Nat) (k : Kernel) : Except Halt (Int × Kernel) :=
  if omode &&& O_CREATE ≠ 0 then .error .devOnFat
  else if major < 0 ∨ NDEV ≤ major then .ok (-1, k)
  else openWith p (-1) (fun file => { file.modes omode with type := .device }) k

/-! ## Pipes and sockets -/

/-- `pipeNew`; `none` is `-1`. -/
def pipeNew (k : Kernel) : Except Halt (Option (Nat × Nat) × Kernel) :=
  match filealloc k with
  | none => .ok (none, k)
  | some (f0, k) =>
    match filealloc k with
    | none => (fileclose f0 k).map fun k => (none, k)
    | some (f1, k) =>
      match Pipes.pipeNew k.world with
      | .error e => .error (.pipe e)
      | .ok (pi, w) =>
        let k := { k with world := w }
        let k := k.setFile f0 { k.files f0 with type := .pipe, readable := true, writable := false, pipe := pi }
        let k := k.setFile f1 { k.files f1 with type := .pipe, readable := false, writable := true, pipe := pi }
        .ok (some (f0, f1), k)

/-- The way out of `syscallPipe` once both ends have been made. -/
def closeBoth (rf wf : Nat) (k : Kernel) : Except Halt (Int × Kernel) := do
  let k ← fileclose rf k
  (fileclose wf k).map fun k => (-1, k)

/-- `syscallPipe`; `copied` says whether both `copyout`s succeed. -/
def syscallPipe (p : Nat) (copied : Bool) (k : Kernel) : Except Halt (Int × Kernel) := do
  let (ends, k) ← pipeNew k
  match ends with
  | none => .ok (-1, k)
  | some (rf, wf) =>
    match fdalloc p rf k with
    | (none, k) => closeBoth rf wf k
    | (some fd0, k) =>
      match fdalloc p wf k with
      | (none, k) => closeBoth rf wf (k.setSlot p fd0 none)
      | (some fd1, k) =>
        if copied then .ok (0, k)
        else closeBoth rf wf ((k.setSlot p fd0 none).setSlot p fd1 none)

def socketAlloc (page : Bool) (k : Kernel) : Except Halt (Nat × Kernel) :=
  match (List.range SOCKET_COUNT).find? fun s => k.sockets s = false with
  | none => .error .socketRunOut
  | some s => if page then .ok (s, { k with sockets := update k.sockets s true }) else .error .socketRunOut

/-- `createSocket`; the file is filled before its descriptor is looked for. -/
def createSocket (p : Nat) (page : Bool) (k : Kernel) : Except Halt (Int × Kernel) :=
  match filealloc k with
  | none => .error .nullFile
  | some (f, k) => do
    let (s, k) ← socketAlloc page k
    let k := k.setFile f { k.files f with socket := s, type := .socket, readable := true, writable := true }
    let (fd, k) := fdalloc p f k
    return ((fd.map Int.ofNat).getD (-1), k)

/-- `accept`; `pending` says whether a peer waits. -/
def accept (p : Nat) (sockfd : Int) (pending page : Bool) (k : Kernel) : Except Halt (Int × Kernel) :=
  match k.argfd p sockfd with
  | none => .error .accept
  | some f =>
    if (k.files f).type ≠ .socket then .error .accept
    else if pending = false then .ok (-11, k)
    else do
      let (s, k) ← socketAlloc page k
      match filealloc k with
      | none => .error .accept
      | some (f, k) =>
        let k := k.setFile f { k.files f with socket := s, type := .socket, readable := true, writable := true }
        let (fd, k) := fdalloc p f k
        return ((fd.map Int.ofNat).getD (-1), k)

/-! ## Processes -/

/-- The process block of `setupProcess`; `ofile` is what the last owner left. -/
def setupProc (c : Nat) (pgdir : Ppn) (k : Kernel) : Kernel :=
  { k with procs := update k.procs c { k.procs c with live := true, hard := NOFILE, pgdir := pgdir } }

/-- One turn of the loop over descriptors in `processFork`. -/
def forkSlot (p c : Nat) (k : Kernel) (i : Nat) : Except Halt Kernel :=
  match (k.procs p).ofile i with
  | none => .ok k
  | some f => (filedup f k).map fun k => k.setSlot c i (some f)

/-- The descriptors of `processFork`, with process block `c` and main thread `th` for the child. -/
def processFork (p c th : Nat) (pgdir : Ppn) (k : Kernel) : Except Halt Kernel :=
  let k := setupProc c pgdir k
  ((List.range (k.procs c).hard).foldlM (forkSlot p c) k).map fun k =>
    { k with owner := update k.owner th (some c) }

/-- One turn of the loop over descriptors in `processFree`. -/
def freeSlot (p : Nat) (k : Kernel) (fd : Nat) : Except Halt Kernel :=
  match (k.procs p).ofile fd with
  | none => .ok k
  | some f => (fileclose f k).map fun k => k.setSlot p fd none

/-- The process block and the threads of `p` are given up. -/
def dropProc (p : Nat) (k : Kernel) : Kernel :=
  let idle : Pipes.Thread := { state := .runnable, channel := none, frame := none }
  let threads := fun t => if k.owner t = some p then idle else k.world.threads t
  { k with
    procs := update k.procs p { k.procs p with live := false }
    owner := fun t => if k.owner t = some p then none else k.owner t
    world := { k.world with threads := threads } }

/-- `processFree` with the last thread of the process. -/
def processFree (p : Nat) (k : Kernel) : Except Halt Kernel :=
  ((List.range NOFILE).foldlM (freeSlot p) k).map (dropProc p)

/-! ## Runs -/

inductive Op
  | create (p th : Nat) (pgdir : Ppn)
  | openEntry (p : Nat) (found : Option Int) (flags : Nat)
  | openTmp (p : Nat) (name : List UInt8) (flags : Nat)
  | openInterp (p : Nat)
  | device (p : Nat) (major : Int) (omode : Nat)
  | dup (p : Nat) (fd : Int)
  | dup3 (p : Nat) (fd fdnew : Int)
  | fcntl (p : Nat) (fd : Int)
  | close (p : Nat) (fd : Int)
  | pipe (p : Nat) (copied : Bool)
  | socket (p : Nat) (page : Bool)
  | accept (p : Nat) (sockfd : Int) (pending page : Bool)
  | fork (p c th : Nat) (pgdir : Ppn)
  | exit (p : Nat)

/-- The process that acts. -/
def Op.actor : Op → Nat
  | .create p .. | .openEntry p .. | .openTmp p .. | .openInterp p | .device p .. | .dup p _ | .dup3 p .. |
    .fcntl p _ | .close p _ | .pipe p _ | .socket p _ | .accept p .. | .fork p .. | .exit p => p

def exec (op : Op) (k : Kernel) : Except Halt Kernel :=
  match op with
  | .create p th pgdir => .ok { setupProc p pgdir k with owner := update k.owner th (some p) }
  | .openEntry p found flags => (openEntry p found flags k).map (·.2)
  | .openTmp p name flags => (tmpfileOpenAt p name flags k).map (·.2)
  | .openInterp p => (interpfileOpenAt p k).map (·.2)
  | .device p major omode => (syscallDevice p major omode k).map (·.2)
  | .dup p fd => (syscallDup p fd k).map (·.2)
  | .dup3 p fd fdnew => (syscallDupAndSet p fd fdnew k).map (·.2)
  | .fcntl p fd => (fcntlDupfd p fd k).map (·.2)
  | .close p fd => (syscallClose p fd k).map (·.2)
  | .pipe p copied => (syscallPipe p copied k).map (·.2)
  | .socket p page => (createSocket p page k).map (·.2)
  | .accept p sockfd pending page => (accept p sockfd pending page k).map (·.2)
  | .fork p c th pgdir => processFork p c th pgdir k
  | .exit p => processFree p k

/-- The kernel makes a process from a free block; a call is a live process's, and a fork takes a free block
and a free thread. -/
def Op.Enabled (op : Op) (k : Kernel) : Prop :=
  k.world.cur = none ∧ op.actor < PROCESS_TOTAL_NUMBER ∧
    match op with
    | .create p th _ => (k.procs p).live = false ∧ k.owner th = none
    | .fork p c th _ => (k.procs p).live = true ∧ c < PROCESS_TOTAL_NUMBER ∧ (k.procs c).live = false ∧ k.owner th = none
    | op => (k.procs op.actor).live = true

end Exaros.Files
