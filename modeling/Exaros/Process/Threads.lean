import Exaros.Files.Table

/-!
# Threads and run queues

`kernel/process/thread.c`, the scheduler of `kernel/process/process.c`, `kernel/process/sched.c` and
`kernel/util/futex.c`, on one hart. A run queue is the sequence of the threads its list links. `LIST_REMOVE`
clears the links of what it takes out, so taking out a thread that is in no list stores through a null
pointer; putting in a thread that is in a list already never ends, or cuts that list. Both stop the model.
Page tables, segments, signals and the file system enter a call as an argument or not at all.
-/

namespace Exaros.Sched

open Files (File NOFILE PROCESS_TOTAL_NUMBER)
open Function (update)

def SCHED_OTHER : Int := 0
def SCHED_FIFO : Int := 1
def PRI_MIN : Int := -100
def PRI_MAX : Int := 39
def LOG_PROCESS_NUM : Nat := 10
def FUTEX_COUNT : Nat := 64
def CLONE_VM : Nat := 0x100
def KERNEL_PROCESS_SP_TOP : Nat := 1 <<< 36
def ESRCH : Int := 3
def EINVAL : Int := 22
def NO_FREE_PROCESS : Int := 3

/-- `PRI_MAX - PRI_MIN + 1`, the size of `priSchedList`. -/
def PRI_COUNT : Nat := 140

inductive ProcessState
  | unused
  | sleeping
  | runnable
  | running
  | zombie
deriving DecidableEq

/-- The fields of a `Trapframe`. -/
inductive Reg
  | kernelSatp | kernelSp | trapHandler | epc | kernelHartId
  | ra | sp | gp | tp | t0 | t1 | t2 | s0 | s1
  | a0 | a1 | a2 | a3 | a4 | a5 | a6 | a7
  | s2 | s3 | s4 | s5 | s6 | s7 | s8 | s9 | s10 | s11
  | t3 | t4 | t5 | t6
  | ft0 | ft1 | ft2 | ft3 | ft4 | ft5 | ft6 | ft7 | fs0 | fs1
  | fa0 | fa1 | fa2 | fa3 | fa4 | fa5 | fa6 | fa7
  | fs2 | fs3 | fs4 | fs5 | fs6 | fs7 | fs8 | fs9 | fs10 | fs11
  | ft8 | ft9 | ft10 | ft11
deriving DecidableEq

abbrev Trapframe := Reg → Nat

/-- What a thread sleeps on: an end of a pipe, a process in `wait`, or a disk buffer or descriptor. -/
inductive Chan
  | nread (pi : Nat)
  | nwrite (pi : Nat)
  | process (p : Nat)
  | disk (a : Nat)
deriving DecidableEq

structure Thread where
  trapframe : Trapframe
  awakeTime : Nat
  threadId : Nat
  state : ProcessState
  channel : Option Chan
  reason : Bool
  retValue : Nat
  clearChildTid : Nat
  process : Option Nat
  schedPolicy : Int
  schedPriority : Int
  killed : Bool

structure Proc where
  processId : Nat
  parentId : Nat
  state : ProcessState
  retValue : Nat
  threadCount : Int
  ofile : Nat → Option Nat

structure FutexQueue where
  addr : Nat
  thread : Nat
  valid : Bool

structure Machine where
  threads : Nat → Thread
  procs : Nat → Proc
  files : Nat → File
  freeThreads : List Nat
  usedThreads : List Nat
  freeProcesses : List Nat
  usedProcesses : List Nat
  priSchedList : Nat → List Nat
  currentThread : Option Nat
  futexQueue : Nat → FutexQueue
  /-- `getHartTrapFrame()` -/
  hart : Trapframe
  nextThreadId : Nat
  nextProcessId : Nat

inductive Halt
  /-- `priSchedList[pri]` with no such list -/
  | outOfBounds (pri : Int)
  /-- `callYield`, `timeYield`: "Unsupported schedPolicy" -/
  | schedPolicy (policy : Int)
  /-- `LIST_REMOVE` of a thread that no list links -/
  | unlinked
  /-- `LIST_INSERT_TAIL` of a thread that a list links -/
  | relinked
  /-- a null `Thread *` or `Process *` -/
  | null
  /-- `fileclose`, `filedup` -/
  | file
  /-- `threadSetup`, `setupProcess`: no page -/
  | noPage
  /-- `futexWait`: "No futex Resource!" -/
  | noFutex
deriving DecidableEq

namespace Machine

def setThread (m : Machine) (t : Nat) (th : Thread) : Machine :=
  { m with threads := update m.threads t th }

def setProc (m : Machine) (p : Nat) (proc : Proc) : Machine :=
  { m with procs := update m.procs p proc }

def setFile (m : Machine) (f : Nat) (file : File) : Machine :=
  { m with files := update m.files f file }

def setList (m : Machine) (pri : Nat) (l : List Nat) : Machine :=
  { m with priSchedList := update m.priSchedList pri l }

def setState (m : Machine) (t : Nat) (state : ProcessState) : Machine :=
  m.setThread t { m.threads t with state := state }

/-- Whether a run queue links the thread. -/
def linked (m : Machine) (t : Nat) : Bool :=
  (List.range PRI_COUNT).any fun pri => t ∈ m.priSchedList pri

end Machine

/-! ## Run queues -/

/-- The list `priSchedList[99 - th->schedParam.schedPriority]`. -/
def Thread.pri (th : Thread) : Int := 99 - th.schedPriority

/-- `priSchedList[pri]`, changed by `f`. -/
def insertWith (f : List Nat → List Nat) (t : Nat) (m : Machine) : Except Halt Machine :=
  let pri := (m.threads t).pri
  if 0 ≤ pri ∧ pri < PRI_COUNT then
    if m.linked t then .error .relinked
    else .ok (m.setList pri.toNat (f (m.priSchedList pri.toNat)))
  else .error (.outOfBounds pri)

/-- `LIST_INSERT_TAIL(&priSchedList[99 - th->schedParam.schedPriority], th, priSchedLink)` -/
def insertTail (t : Nat) (m : Machine) : Except Halt Machine := insertWith (· ++ [t]) t m

/-- `LIST_INSERT_HEAD(&priSchedList[99 - th->schedParam.schedPriority], th, priSchedLink)` -/
def insertHead (t : Nat) (m : Machine) : Except Halt Machine := insertWith (t :: ·) t m

/-- `LIST_REMOVE(th, priSchedLink)` -/
def remove (t : Nat) (m : Machine) : Except Halt Machine :=
  if m.linked t then .ok { m with priSchedList := fun pri => (m.priSchedList pri).erase t }
  else .error .unlinked

/-- `th->state = RUNNABLE` and `th` to the end of its list. -/
def enqueue (t : Nat) (m : Machine) : Except Halt Machine := insertTail t (m.setState t .runnable)

/-- One turn of `LIST_FOREACH` in `wakeup`. -/
def wakeOne (channel : Chan) (m : Machine) (t : Nat) : Except Halt Machine :=
  if (m.threads t).state = .sleeping ∧ (m.threads t).channel = some channel then enqueue t m else .ok m

def wakeup (channel : Chan) (m : Machine) : Except Halt Machine := m.usedThreads.foldlM (wakeOne channel) m

/-! ## Futexes -/

/-- One turn of the loop of `futexWake`. -/
def futexWakeOne (addr : Nat) (s : Int × Machine) (i : Nat) : Except Halt (Int × Machine) :=
  let (n, m) := s
  let q := m.futexQueue i
  if n ≠ 0 ∧ q.valid ∧ q.addr = addr then do
    let m ← (if (m.threads q.thread).state ≠ .runnable then enqueue q.thread m else .ok m)
    let th := m.threads q.thread
    let m := m.setThread q.thread { th with trapframe := update th.trapframe .a0 0 }
    return (n - 1, { m with futexQueue := update m.futexQueue i { q with valid := false } })
  else .ok (n, m)

def futexWake (addr : Nat) (n : Int) (m : Machine) : Except Halt Machine :=
  ((List.range FUTEX_COUNT).foldlM (futexWakeOne addr) (n, m)).map (·.2)

def futexRequeue (addr : Nat) (n : Int) (newAddr : Nat) (m : Machine) : Except Halt Machine :=
  (futexWake addr n m).map fun m =>
    { m with futexQueue := fun i =>
        let q := m.futexQueue i
        if i < FUTEX_COUNT ∧ q.valid ∧ q.addr = addr then { q with addr := newAddr } else q }

def futexClear (t : Nat) (m : Machine) : Machine :=
  { m with futexQueue := fun i =>
      let q := m.futexQueue i
      if i < FUTEX_COUNT ∧ q.valid ∧ q.thread = t then { q with valid := false } else q }

/-! ## The end of a thread -/

/-- `fileclose`, as far as threads can tell. -/
def fileclose (f : Nat) (m : Machine) : Except Halt Machine :=
  let ff := m.files f
  if ff.ref < 1 then .error .file
  else if ff.ref - 1 > 0 then .ok (m.setFile f { ff with ref := ff.ref - 1 })
  else
    let m := m.setFile f { ff with ref := 0, type := .none }
    match ff.type with
    | .pipe => wakeup (if ff.writable then .nread ff.pipe else .nwrite ff.pipe) m
    | _ => .ok m

/-- One turn of the loop over descriptors in `processFree`. -/
def freeSlot (p : Nat) (m : Machine) (fd : Nat) : Except Halt Machine :=
  match (m.procs p).ofile fd with
  | none => .ok m
  | some f => (fileclose f m).map fun m =>
      m.setProc p { m.procs p with ofile := update (m.procs p).ofile fd none }

/-- `PROCESS_OFFSET(id)` -/
def processOffset (id : Nat) : Nat := id % PROCESS_TOTAL_NUMBER

/-- `pid2Process(processId, &process, 0)` for an id that is not 0. -/
def pid2Process (processId : Nat) (m : Machine) : Option Nat :=
  let p := processOffset processId
  if (m.procs p).state = .unused ∨ (m.procs p).processId ≠ processId then none else some p

/-- The end of `processFree`: the parent may be in `wait`. -/
def wakeParent (p : Nat) (m : Machine) : Except Halt Machine :=
  if (m.procs p).parentId > 0 then
    match pid2Process (m.procs p).parentId m with
    | some parentProcess => wakeup (.process parentProcess) m
    | none => .ok m
  else .ok m

def processFree (p : Nat) (m : Machine) : Except Halt Machine :=
  (List.range NOFILE).foldlM (freeSlot p) (m.setProc p { m.procs p with state := .zombie }) >>= wakeParent p

/-- `p->threadCount--`, and the process goes with its last thread. -/
def dropThread (p t : Nat) (m : Machine) : Except Halt Machine :=
  let m := m.setProc p { m.procs p with threadCount := (m.procs p).threadCount - 1 }
  if (m.procs p).threadCount = 0 then
    processFree p (m.setProc p { m.procs p with retValue := (m.threads t).retValue })
  else .ok m

/-- The end of `threadFree`: `th` goes to `freeThreads`. -/
def retire (t : Nat) (m : Machine) : Machine :=
  { m.setState t .unused with
    usedThreads := m.usedThreads.erase t
    freeThreads := t :: m.freeThreads.erase t }

def threadFree (t : Nat) (m : Machine) : Except Halt Machine :=
  match (m.threads t).process with
  | none => .error .null
  | some p => do
    let m ← (if (m.threads t).clearChildTid ≠ 0 then futexWake (m.threads t).clearChildTid 1 m else .ok m)
    let m ← dropThread p t m
    let m ← (if (m.threads t).state = .runnable then remove t m else .ok m)
    return retire t m

/-! ## The scheduler -/

/-- How a pass of `fifoSched` over the lists ends: with nobody to run, with a thread, or with the thread that
was running destroyed, whereupon `threadDestroy` schedules anew. -/
inductive Pass
  | idle
  | picked (t : Nat)
  | restart
deriving DecidableEq

/-- A killed thread at the head of its list: `threadDestroy`, up to `callYield`. -/
def threadDestroy (t : Nat) (m : Machine) : Except Halt (Bool × Machine) :=
  (threadFree t m).map fun m =>
    if m.currentThread = some t then (true, { m with currentThread := none }) else (false, m)

/-- The `for` loop of `fifoSched` over the lists `pris`, with `now` for `r_time()`. The pass reads the clock once, and no
interrupt falls into it, where the source asks `r_time()` anew at each head and lets device interrupts in. -/
def scan (now : Nat) : List Nat → Machine → Except Halt (Pass × Machine)
  | [], m => .ok (.idle, m)
  | pri :: pris, m =>
    match m.priSchedList pri with
    | [] => scan now pris m
    | t :: _ =>
      if (m.threads t).killed then do
        let (own, m) ← threadDestroy t m
        if own then return (.restart, m)
        scan now pris m
      else if (m.threads t).awakeTime > now then do
        let m ← remove t m
        let m ← insertTail t m
        scan now pris m
      else return (.picked t, m)

/-- One pass of `fifoSched` over `priSchedList`. -/
def pass (now : Nat) (m : Machine) : Except Halt (Pass × Machine) := scan now (List.range PRI_COUNT) m

/-- `threadRun(th)`, up to the switch. -/
def threadRun (t : Nat) (m : Machine) : Machine :=
  let m := match m.currentThread with
    | some c => m.setThread c { m.threads c with trapframe := m.hart }
    | none => m
  let m := m.setThread t { m.threads t with state := .running, reason := false }
  { m with currentThread := some t, hart := (m.threads t).trapframe }

/-- `fifoSched` with the thread it found. -/
def dispatch (t : Nat) (m : Machine) : Except Halt Machine := do
  let m ← remove t m
  let m :=
    if (m.threads t).awakeTime > 0 then
      { m.setThread t { m.threads t with awakeTime := 0 } with hart := update m.hart .a0 0 }
    else m
  return threadRun t (futexClear t m)

/-- `fifoSched`, with the clock readings of its passes; it is still looking when these end. -/
def fifoSched : List Nat → Machine → Except Halt Machine
  | [], m => .ok m
  | now :: clock, m => do
    let (r, m) ← pass now m
    match r with
    | .picked t => dispatch t m
    | _ => fifoSched clock m

/-- `callYield` and `timeYield`, which put a `SCHED_FIFO` thread back with `putFifo`. -/
def yieldWith (putFifo : Nat → Machine → Except Halt Machine) (clock : List Nat) (m : Machine) : Except Halt Machine :=
  match m.currentThread with
  | none => fifoSched clock m
  | some t =>
    let th := m.threads t
    if th.state ≠ .running then fifoSched clock m
    else if th.schedPolicy = SCHED_FIFO then putFifo t (m.setState t .runnable) >>= fifoSched clock
    else if th.schedPolicy = SCHED_OTHER then insertTail t (m.setState t .runnable) >>= fifoSched clock
    else .error (.schedPolicy th.schedPolicy)

def callYield (clock : List Nat) (m : Machine) : Except Halt Machine := yieldWith insertTail clock m

def timeYield (clock : List Nat) (m : Machine) : Except Halt Machine := yieldWith insertHead clock m

/-! ## New threads -/

/-- `threadSetup`; `pages` says whether there are pages for the kernel stack. -/
def threadSetup (pages : Bool) (t : Nat) (m : Machine) : Except Halt Machine :=
  if pages then
    .ok (m.setThread t { m.threads t with
      channel := none, retValue := 0, state := .unused, reason := false, awakeTime := 0,
      schedPolicy := SCHED_OTHER, schedPriority := 0, killed := false, clearChildTid := 0 })
  else .error .noPage

def getThreadTopSp (t : Nat) : Nat := KERNEL_PROCESS_SP_TOP - t * 10 * PAGE_SIZE

/-- `((++nextId) << (1 + LOG_PROCESS_NUM)) | slot` in 32 bits. -/
def makeId (nextId slot : Nat) : Nat :=
  (nextId <<< (1 + LOG_PROCESS_NUM)) % 2 ^ 32 ||| slot

/-- What the allocators answer while a thread is made: pages for its kernel stack, a page directory and a
page for signal handlers. -/
structure Pages where
  stack : Bool
  pgdir : Bool
  signal : Bool

/-- The first free thread, taken and set up, as in `mainThreadAlloc` and `threadAlloc`; `sp` is its stack. -/
def takeThread (pages : Pages) (sp : Nat) (m : Machine) : Except Halt (Option Nat × Machine) :=
  match m.freeThreads with
  | [] => .ok (none, m)
  | t :: rest => do
    let m := { m with freeThreads := rest, usedThreads := t :: m.usedThreads }
    let m ← threadSetup pages.stack t m
    let nextId := (m.nextThreadId + 1) % 2 ^ 32
    let frame := update (update (m.threads t).trapframe .kernelSp (getThreadTopSp t)) .sp sp
    let m := m.setThread t { m.threads t with threadId := makeId nextId t, state := .runnable, trapframe := frame }
    return (some t, { m with nextThreadId := nextId })

/-- `processAlloc`; a negative result is the error. -/
def processAlloc (pages : Pages) (parentId : Nat) (m : Machine) : Except Halt ((Int ⊕ Nat) × Machine) :=
  match m.freeProcesses with
  | [] => .ok (.inl (-NO_FREE_PROCESS), m)
  | p :: rest =>
    let m := { m with freeProcesses := rest, usedProcesses := p :: m.usedProcesses }
    if pages.pgdir = false then .error .noPage
    else
      let m := m.setProc p { m.procs p with state := .unused, retValue := 0, parentId := 0 }
      if pages.signal = false then .ok (.inl (-1), m)
      else
        let nextId := (m.nextProcessId + 1) % 2 ^ 32
        let proc := { m.procs p with processId := makeId nextId p, state := .runnable, parentId := parentId }
        .ok (.inr p, { m.setProc p proc with nextProcessId := nextId })

/-- `th->process = process; process->threadCount++` -/
def attach (t p : Nat) (m : Machine) : Machine :=
  let m := m.setThread t { m.threads t with process := some p }
  m.setProc p { m.procs p with threadCount := (m.procs p).threadCount + 1 }

def mainThreadAlloc (pages : Pages) (parentId : Nat) (m : Machine) : Except Halt ((Int ⊕ Nat) × Machine) := do
  let (new, m) ← takeThread pages (USER_STACK_TOP - 24) m
  match new with
  | none => return (.inl (-ESRCH), m)
  | some t =>
    let (r, m) ← processAlloc pages parentId m
    match r with
    | .inl e => return (.inl e, m)
    | .inr p => return (.inr t, attach t p m)

def threadAlloc (pages : Pages) (p userSp : Nat) (m : Machine) : Except Halt ((Int ⊕ Nat) × Machine) := do
  let (new, m) ← takeThread pages userSp m
  match new with
  | none => return (.inl (-ESRCH), m)
  | some t => return (.inr t, attach t p m)

/-- How a creation ends: the thread is `RUNNABLE` with this policy and priority, at the end of its list. -/
def start (t : Nat) (policy priority : Int) (m : Machine) : Except Halt Machine :=
  insertTail t (m.setThread t { m.threads t with
    state := .runnable, schedPolicy := policy, schedPriority := priority })

/-- `processCreatePriority`, which leaves the entry point and the stack in `frame`. -/
def processCreatePriority (pages : Pages) (frame : Trapframe) (m : Machine) : Except Halt Machine := do
  let (r, m) ← mainThreadAlloc pages 0 m
  match r with
  | .inl _ => return m
  | .inr t => start t SCHED_OTHER 0 (m.setThread t { m.threads t with trapframe := frame })

/-- `filedup` -/
def filedup (f : Nat) (m : Machine) : Except Halt Machine :=
  if (m.files f).ref < 1 then .error .file
  else .ok (m.setFile f { m.files f with ref := (m.files f).ref + 1 })

/-- One turn of the loop over descriptors in `processFork`. -/
def forkSlot (p c : Nat) (m : Machine) (i : Nat) : Except Halt Machine :=
  match (m.procs p).ofile i with
  | none => .ok m
  | some f => (filedup f m).map fun m =>
      m.setProc c { m.procs c with ofile := update (m.procs c).ofile i (some f) }

/-- The thread that runs, with its process. -/
def myThread (m : Machine) : Except Halt (Nat × Nat) :=
  match m.currentThread with
  | none => .error .null
  | some t =>
    match (m.threads t).process with
    | none => .error .null
    | some p => .ok (t, p)

/-- `processFork` -/
def processFork (pages : Pages) (m : Machine) : Except Halt (Int × Machine) := do
  let (mth, myprocess) ← myThread m
  let (r, m) ← mainThreadAlloc pages (m.procs myprocess).processId m
  match r with
  | .inl e => return (e, m)
  | .inr t =>
    match (m.threads t).process with
    | none => .error .null
    | some c =>
      let m ← (List.range NOFILE).foldlM (forkSlot myprocess c) m
      let frame := update (update m.hart .a0 0) .kernelSp (getThreadTopSp t)
      let m := m.setThread t { m.threads t with trapframe := frame }
      let m ← start t (m.threads mth).schedPolicy (m.threads mth).schedPriority m
      return ((m.procs c).processId, m)

/-- `threadFork` -/
def threadFork (pages : Pages) (stackVa tls ctid : Nat) (m : Machine) : Except Halt (Int × Machine) := do
  let (mth, current) ← myThread m
  let (r, m) ← threadAlloc pages current stackVa m
  match r with
  | .inl e => return (e, m)
  | .inr t =>
    let frame := update (update m.hart .a0 0) .tp tls
    let frame := update (update frame .kernelSp (getThreadTopSp t)) .sp stackVa
    let m := m.setThread t { m.threads t with trapframe := frame, clearChildTid := ctid }
    let m ← start t (m.threads mth).schedPolicy (m.threads mth).schedPriority m
    return ((m.threads t).threadId, m)

def clone (pages : Pages) (flags stackVa tls ctid : Nat) (m : Machine) : Except Halt (Int × Machine) :=
  if flags &&& CLONE_VM ≠ 0 then threadFork pages stackVa tls ctid m else processFork pages m

/-! ## Scheduling parameters -/

/-- `tid2Thread(threadId, &thread, 0)` -/
def tid2Thread (threadId : Nat) (m : Machine) : Except Halt (Option Nat) :=
  if threadId = 0 then
    match m.currentThread with
    | none => .error .null
    | some t => .ok (some t)
  else
    let t := processOffset threadId
    if (m.threads t).state = .unused ∨ (m.threads t).threadId ≠ threadId then .ok none else .ok (some t)

/-- `sched_setscheduler`; `pid` is cut to 32 bits on the way to `tid2Thread`. -/
def schedSetscheduler (pid : Nat) (policy priority : Int) (m : Machine) : Except Halt (Int × Machine) := do
  match ← tid2Thread (pid % 2 ^ 32) m with
  | none => return (-ESRCH, m)
  | some t =>
    if policy = SCHED_OTHER ∧ priority ≠ 0 then return (-EINVAL, m)
    let m := m.setThread t { m.threads t with schedPolicy := policy, schedPriority := priority }
    if (m.threads t).state = .runnable then
      let m ← remove t m
      let m ← insertHead t m
      return (0, m)
    else return (0, m)

/-! ## Sleeping and waiting -/

/-- `threadDestroy(th)`, which schedules anew when `th` was running. -/
def destroy (t : Nat) (clock : List Nat) (m : Machine) : Except Halt Machine := do
  let (own, m) ← threadDestroy t m
  if own then callYield clock m else return m

/-- `sleep(channel, lk)`, up to the switch to another thread. -/
def sleep (channel : Chan) (clock : List Nat) (m : Machine) : Except Halt Machine := do
  let (t, _) ← myThread m
  let m := m.setThread t { m.threads t with channel := some channel, state := .sleeping, reason := true }
  if (m.threads t).killed then destroy t clock m else callYield clock m

/-- The rest of `sleep`, when the thread runs again. -/
def resume (clock : List Nat) (m : Machine) : Except Halt Machine := do
  let (t, _) ← myThread m
  let m := m.setThread t { m.threads t with channel := none }
  if (m.threads t).killed then destroy t clock m else return m

/-- `futexWait`; `ts` is the timeout in microseconds. -/
def futexWait (addr : Nat) (ts : Option Nat) (clock : List Nat) (m : Machine) : Except Halt Machine := do
  let (t, _) ← myThread m
  match (List.range FUTEX_COUNT).find? fun i => (m.futexQueue i).valid = false with
  | none => .error .noFutex
  | some i =>
    let m := { m with futexQueue := update m.futexQueue i { addr := addr, thread := t, valid := true } }
    match ts with
    | some time => callYield clock (m.setThread t { m.threads t with awakeTime := time })
    | none =>
      let m ← (if (m.threads t).state = .runnable then remove t m else .ok m)
      callYield clock (m.setState t .sleeping)

/-- `syscallNanosleep`, to wake at `time`. -/
def nanosleep (time : Nat) (clock : List Nat) (m : Machine) : Except Halt Machine := do
  let (t, _) ← myThread m
  let m := m.setThread t { m.threads t with awakeTime := time }
  callYield clock { m with hart := update m.hart .a0 0 }

/-- `threadSignalSend(thread, SIGKILL)` -/
def sigkill (t : Nat) (m : Machine) : Except Halt Machine := do
  let m ← (if (m.threads t).state ≠ .runnable then enqueue t m else .ok m)
  return m.setThread t { m.threads t with killed := true }

/-- `syscallExit` -/
def exit (ec : Nat) (clock : List Nat) (m : Machine) : Except Halt Machine := do
  let (t, _) ← myThread m
  destroy t clock (m.setThread t { m.threads t with retValue := (ec <<< 8) % 2 ^ 32 })

/-- The turn of the loop of `wait` that takes the zombie `c`. -/
def reap (c : Nat) (m : Machine) : Machine :=
  { m.setProc c { m.procs c with state := .unused } with
    usedProcesses := m.usedProcesses.erase c
    freeProcesses := c :: m.freeProcesses }

end Exaros.Sched
