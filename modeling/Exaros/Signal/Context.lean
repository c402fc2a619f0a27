import Exaros.Process.Threads

/-!
# Signals

`kernel/process/signal.c`, with what `kernel/process/thread.c` and `kernel/process/process.c` do for it: the
pool of contexts and the lists that link them, the mask and the two lists of each thread, and the handler
tables, which lie one page per process from `KERNEL_PROCESS_SIGNAL_BASE` on and are read there in words of
eight bytes. Threads and processes are those of the scheduler. A list of contexts is the sequence it links;
user memory enters a call as the values copied.
-/

namespace Exaros.Signal

open Sched (Trapframe Pages)
open Function (update)

def SIGNAL_COUNT : Nat := 64
def SIGNAL_CONTEXT_COUNT : Nat := 4096

def SIGHUP : Nat := 1
def SIGINT : Nat := 2
def SIGQUIT : Nat := 3
def SIGILL : Nat := 4
def SIGTRAP : Nat := 5
def SIGABRT : Nat := 6
def SIGBUS : Nat := 7
def SIGFPE : Nat := 8
def SIGKILL : Nat := 9
def SIGUSR1 : Nat := 10
def SIGSEGV : Nat := 11
def SIGUSR2 : Nat := 12
def SIGPIPE : Nat := 13
def SIGALRM : Nat := 14
def SIGTERM : Nat := 15
def SIGSTKFLT : Nat := 16
def SIGCHLD : Nat := 17
def SIGCONT : Nat := 18
def SIGSTOP : Nat := 19
def SIGTSTP : Nat := 20
def SIGTTIN : Nat := 21
def SIGTTOU : Nat := 22
def SIGURG : Nat := 23
def SIGXCPU : Nat := 24
def SIGXFSZ : Nat := 25
def SIGVTALRM : Nat := 26
def SIGPROF : Nat := 27
def SIGWINCH : Nat := 28
def SIGIO : Nat := 29
def SIGPWR : Nat := 30
def SIGSYS : Nat := 31

def SIG_BLOCK : Int := 0
def SIG_UNBLOCK : Int := 1
def SIG_SETMASK : Int := 2

/-! ## Sets -/

/-- The word of a `SignalSet`. -/
abbrev SignalSet := BitVec 64

/-- `1ULL << (signal - 1)` for a byte `signal`; the hardware shifts by the low six bits. -/
def signalBit (signal : Nat) : SignalSet := 1#64 <<< ((signal + 63) % 64)

def signalSetAdd (set : SignalSet) (signal : Nat) : SignalSet :=
  if signal < 1 ∨ signal > SIGNAL_COUNT then set else set ||| signalBit signal

def signalSetOr (set set1 : SignalSet) : SignalSet := set ||| set1

def signalSetIsMember (set : SignalSet) (signal : Nat) : Bool := set &&& signalBit signal ≠ 0

/-- The signals of `a` are in `b`. -/
def Within (a b : SignalSet) : Prop := a &&& b = a

section Within

variable {a b c : SignalSet} {signal : Nat}

theorem within_iff : Within a b ↔ ∀ i : Nat, a.getLsbD i = true → b.getLsbD i = true := by
  constructor
  · intro h i hi
    have hbit := congrArg (fun x : SignalSet => x.getLsbD i) h
    simp only [BitVec.getLsbD_and, hi, Bool.true_and] at hbit
    exact hbit
  · intro h
    apply BitVec.eq_of_getLsbD_eq
    intro i _
    rw [BitVec.getLsbD_and]
    cases ha : a.getLsbD i with
    | false => rfl
    | true => rw [h i ha, Bool.true_and]

theorem Within.refl (a : SignalSet) : Within a a := BitVec.and_self

theorem Within.or_left (h : Within a b) : Within a (b ||| c) := by
  rw [within_iff] at h ⊢
  intro i hi
  rw [BitVec.getLsbD_or, h i hi, Bool.true_or]

theorem within_or_right (a b : SignalSet) : Within a (b ||| a) := by
  rw [within_iff]
  intro i hi
  rw [BitVec.getLsbD_or, hi, Bool.or_true]

theorem Within.trans (h : Within a b) (h' : Within b c) : Within a c := by
  rw [within_iff] at h h' ⊢
  exact fun i hi => h' i (h i hi)

theorem Within.signalSetAdd (h : Within a b) (signal : Nat) : Within a (signalSetAdd b signal) := by
  unfold Signal.signalSetAdd
  split
  · exact h
  · exact h.or_left

/-- A signal is a member of a set exactly when its bit is. -/
theorem signalSetIsMember_of_within (h : Within (signalBit signal) b) : signalSetIsMember b signal = true := by
  unfold signalSetIsMember
  rw [BitVec.and_comm, show signalBit signal &&& b = signalBit signal from h]
  apply decide_eq_true
  intro hzero
  have hlt : (signal + 63) % 64 < 64 := Nat.mod_lt _ (by decide)
  have hbit := congrArg (fun x : SignalSet => x.getLsbD ((signal + 63) % 64)) hzero
  simp [signalBit, hlt] at hbit

theorem Within.isMember (h : Within a b) (hs : signalSetIsMember a signal = true) : signalSetIsMember b signal = true := by
  apply decide_eq_true
  intro hzero
  have hne := of_decide_eq_true hs
  refine hne (BitVec.eq_of_getLsbD_eq fun i _ => ?_)
  have hbit := congrArg (fun x : SignalSet => x.getLsbD i) hzero
  simp only [BitVec.getLsbD_and] at hbit ⊢
  cases ha : a.getLsbD i with
  | false => simp
  | true =>
    rw [within_iff.mp h i ha] at hbit
    exact hbit

end Within

/-! ## The machine -/

structure SignalAction where
  sa_handler : BitVec 64
  sa_flags : BitVec 64
  sa_mask : SignalSet
deriving DecidableEq

structure SignalContext where
  contextRecover : Trapframe
  blockedRecover : SignalSet
  signal : Nat

/-- The lists a context may be in: `freeSignalContextList`, and two of each thread. -/
inductive Home
  | free
  | pending (t : Nat)
  | handling (t : Nat)
deriving DecidableEq

structure Machine where
  sched : Sched.Machine
  context : Nat → SignalContext
  list : Home → List Nat
  blocked : Nat → SignalSet
  /-- the words from `KERNEL_PROCESS_SIGNAL_BASE` on -/
  words : Int → BitVec 64
  /-- the pages of these words that are mapped -/
  mapped : Int → Bool

inductive Stop
  | sched (e : Sched.Halt)
  /-- `threadSignalSend`: "there's no signal context left!" -/
  | noContext
  /-- `LIST_REMOVE` of a context that no list links -/
  | unlinked
  /-- an access to a page of the tables that is not mapped -/
  | kernelTrap
  /-- a null pointer -/
  | null
  /-- `handleSignal` still at its loop -/
  | looping
deriving DecidableEq

/-- A step of the scheduler. -/
def onSched {α : Type} (x : Except Sched.Halt α) : Except Stop α := x.mapError .sched

namespace Machine

def setSched (m : Machine) (s : Sched.Machine) : Machine := { m with sched := s }

/-- `*getHartTrapFrame() = tf` -/
def setHart (m : Machine) (tf : Trapframe) : Machine := m.setSched { m.sched with hart := tf }

def setContext (m : Machine) (sc : Nat) (c : SignalContext) : Machine :=
  { m with context := update m.context sc c }

def setBlocked (m : Machine) (t : Nat) (set : SignalSet) : Machine :=
  { m with blocked := update m.blocked t set }

def setList (m : Machine) (h : Home) (l : List Nat) : Machine :=
  { m with list := update m.list h l }

/-- Whether a list links the context. -/
def linked (m : Machine) (sc : Nat) : Bool :=
  decide (sc ∈ m.list .free) ||
    (List.range Files.PROCESS_TOTAL_NUMBER).any fun t => sc ∈ m.list (.pending t) ∨ sc ∈ m.list (.handling t)

/-- A word of the handler tables. -/
def load (m : Machine) (w : Int) : Except Stop (BitVec 64) :=
  if m.mapped (w / 512) then .ok (m.words w) else .error .kernelTrap

def store (m : Machine) (w : Int) (x : BitVec 64) : Machine := { m with words := update m.words w x }

end Machine

/-! ## Contexts -/

/-- `LIST_REMOVE(sc, link)` -/
def unlink (sc : Nat) (m : Machine) : Except Stop Machine :=
  if m.linked sc then .ok { m with list := fun h => (m.list h).erase sc } else .error .unlinked

/-- `LIST_INSERT_HEAD` -/
def insertHead (h : Home) (sc : Nat) (m : Machine) : Machine := m.setList h (sc :: m.list h)

/-- `LIST_INSERT_TAIL` -/
def insertTail (h : Home) (sc : Nat) (m : Machine) : Machine := m.setList h (m.list h ++ [sc])

/-- `signalContextAlloc` -/
def signalContextAlloc (m : Machine) : Except Stop (Option Nat × Machine) :=
  match m.list .free with
  | [] => .ok (none, m)
  | sc :: _ => (unlink sc m).map fun m => (some sc, m)

def signalContextFree (sc : Nat) (m : Machine) : Except Stop Machine :=
  (unlink sc m).map fun m => insertHead .free sc m

def getFirstPendingSignal (t : Nat) (m : Machine) : Option Nat :=
  (m.list (.pending t)).find? fun sc => !signalSetIsMember (m.blocked t) (m.context sc).signal

/-! ## Handler tables -/

/-- The first word of a process' table. -/
def getSignalHandler (p : Nat) : Int := p * 512

/-- `getSignalHandler(p) + (signal - 1)` -/
def action (p signal : Nat) : Int := getSignalHandler p + 3 * ((signal : Int) - 1)

/-- The entry of a signal. -/
def Machine.disposition (m : Machine) (p signal : Nat) : SignalAction where
  sa_handler := m.words (action p signal)
  sa_flags := m.words (action p signal + 1)
  sa_mask := m.words (action p signal + 2)

/-! ## Default actions -/

inductive DefaultAction
  | core
  | term
  | ign
  | stop
  | cont
  /-- "No default signal action" -/
  | none
deriving DecidableEq

/-- The `case` labels of `SignalActionDefault`. -/
def actionCase (label : Nat) : DefaultAction :=
  if label ∈ [SIGABRT, SIGBUS, SIGFPE, SIGILL, SIGQUIT, SIGSEGV, SIGSYS, SIGTRAP, SIGXCPU, SIGXFSZ] then .core
  else if label ∈ [SIGALRM, SIGHUP, SIGINT, SIGIO, SIGKILL, SIGPIPE, SIGPROF, SIGPWR, SIGSTKFLT, SIGTERM, SIGUSR1,
    SIGUSR2, SIGVTALRM] then .term
  else if label ∈ [SIGCHLD, SIGURG, SIGWINCH] then .ign
  else if label ∈ [SIGSTOP, SIGTSTP, SIGTTIN, SIGTTOU] then .stop
  else if label = SIGCONT then .cont
  else .none

def SignalActionDefault (signal : Nat) : DefaultAction := actionCase (signal + 1)

/-- The actions that call `threadDestroy`. -/
def DefaultAction.fatal (a : DefaultAction) : Bool := a = .core ∨ a = .term

/-! ## Delivery -/

/-- What one turn of the loop of `handleSignal` does. -/
inductive Turn
  /-- no signal to deliver -/
  | idle
  /-- the default action, and the context freed -/
  | consumed (sc : Nat)
  /-- the default action, which does not return -/
  | destroyed (sc : Nat)
  /-- the handler entered -/
  | entered (sc : Nat)
deriving DecidableEq

/-- The part of the loop of `handleSignal` that enters the handler at `sa`. -/
def enterHandler (t sc : Nat) (sa : Int) (m : Machine) : Except Stop Machine := do
  let sa_handler ← m.load sa
  let sa_mask ← m.load (sa + 2)
  let sa_flags ← m.load (sa + 1)
  let tf := m.sched.hart
  let c := m.context sc
  let m := m.setContext sc { c with contextRecover := tf, blockedRecover := m.blocked t }
  let m := m.setBlocked t (signalSetOr (signalSetAdd (m.blocked t) c.signal) sa_mask)
  let tf := update tf .sp (alignDown (tf .sp))
  let tf := update tf .ra SIGNAL_TRAMPOLINE
  let m := m.setHart (update tf .epc sa_handler.toNat)
  let m := if sa_flags &&& 4 ≠ 0 then (m.store sa 0).store (sa + 2) 0 else m
  let m ← unlink sc m
  return insertHead (.handling t) sc m

/-- One turn of the loop of `handleSignal` in a thread of process `p`. -/
def handleTurn (t p : Nat) (m : Machine) : Except Stop (Turn × Machine) :=
  match getFirstPendingSignal t m with
  | none => .ok (.idle, m)
  | some sc => do
    let signal := (m.context sc).signal
    let sa_handler ← m.load (action p signal)
    if sa_handler = 0 then
      if (SignalActionDefault signal).fatal then return (.destroyed sc, m)
      else
        let m ← signalContextFree sc m
        return (.consumed sc, m)
    else
      let m ← enterHandler t sc (action p signal) m
      return (.entered sc, m)

/-- How `handleSignal` ends: it returns to the user, or calls `threadDestroy(thread)`, which does not return,
because the thread is killed or at the default action of a context. -/
inductive Exit
  | user
  | killed
  | destroyed (sc : Nat)
deriving DecidableEq

/-- The loop of `handleSignal`. -/
def handleLoop (t p : Nat) : Nat → Machine → Except Stop (Exit × Machine)
  | 0, _ => .error .looping
  | n + 1, m => do
    let (turn, m) ← handleTurn t p m
    match turn with
    | .idle => return (.user, m)
    | .destroyed sc => return (.destroyed sc, m)
    | _ => handleLoop t p n m

/-- `handleSignal`, up to a call of `threadDestroy`. -/
def handleSignal (m : Machine) : Except Stop (Exit × Machine) := do
  let (t, p) ← onSched (Sched.myThread m.sched)
  if (m.sched.threads t).killed then return (.killed, m)
  else handleLoop t p ((m.list (.pending t)).length + 1) m

def rt_sigreturn (m : Machine) : Except Stop Machine := do
  let (t, _) ← onSched (Sched.myThread m.sched)
  match m.list (.handling t) with
  | [] => .error .null
  | sc :: _ =>
    let m := m.setHart (m.context sc).contextRecover
    let m := m.setBlocked t (m.context sc).blockedRecover
    let m ← unlink sc m
    return insertHead .free sc m

/-! ## Dispositions and masks -/

/-- `rt_sigaction`, with the action `copyin` reads and whether the old one is asked for. -/
def rt_sigaction (sig : Int) (act : Option SignalAction) (oldAction : Bool) (m : Machine) :
    Except Stop (Int × Option SignalAction × Machine) := do
  let (_, p) ← onSched (Sched.myThread m.sched)
  if sig < 1 ∨ sig > SIGNAL_COUNT then return (-1, none, m)
  else
    let k := action p sig.toNat
    if m.mapped (k / 512) then
      let old := if oldAction then some (m.disposition p sig.toNat) else none
      let m := match act with
        | some a => ((m.store k a.sa_handler).store (k + 1) a.sa_flags).store (k + 2) a.sa_mask
        | none => m
      return (0, old, m)
    else .error .kernelTrap

def rt_sigprocmask (how : Int) (set : SignalSet) (m : Machine) : Except Stop (Int × Machine) := do
  let (t, _) ← onSched (Sched.myThread m.sched)
  if how = SIG_BLOCK then return (0, m.setBlocked t (m.blocked t ||| set))
  else if how = SIG_UNBLOCK then return (0, m.setBlocked t (m.blocked t &&& ~~~set))
  else if how = SIG_SETMASK then return (0, m.setBlocked t set)
  else return (-1, m)

/-! ## Sending -/

def threadSignalSend (t : Nat) (sig : Int) (m : Machine) : Except Stop (Int × Machine) := do
  let (new, m) ← signalContextAlloc m
  match new with
  | none => .error .noContext
  | some sc =>
    let m := m.setContext sc { m.context sc with signal := (sig % 256).toNat }
    let s ← (if sig = SIGKILL then onSched (Sched.sigkill t m.sched) else .ok m.sched)
    return (0, insertTail (.pending t) sc (m.setSched s))

/-- The loop of `kill` and `tgkill` over `usedThreads`: the first thread that `found` holds of, with its
process. -/
def findThread (found : Nat → Nat → Bool) (s : Sched.Machine) : List Nat → Except Stop (Option Nat)
  | [] => .ok none
  | t :: ts =>
    match (s.threads t).process with
    | none => .error .null
    | some p => if found t p then .ok (some t) else findThread found s ts

/-- `kill`; an id is compared in 32 bits. -/
def kill (pid sig : Int) (m : Machine) : Except Stop (Int × Machine) := do
  let found ← findThread (fun _ p => pid % 2 ^ 32 = (m.sched.procs p).processId) m.sched m.sched.usedThreads
  match found with
  | none => return (0, m)
  | some t =>
    let (ret, m) ← threadSignalSend t sig m
    return (if ret = -Sched.ESRCH then 0 else ret, m)

def tgkill (tgid tid sig : Int) (m : Machine) : Except Stop (Int × Machine) := do
  let found ← findThread
    (fun t p => tgid % 2 ^ 32 = (m.sched.procs p).processId ∧ tid % 2 ^ 32 = (m.sched.threads t).threadId)
    m.sched m.sched.usedThreads
  match found with
  | none => return (-Sched.ESRCH, m)
  | some t => threadSignalSend t sig m

def tkill (tid sig : Int) (m : Machine) : Except Stop (Int × Machine) := do
  let found ← onSched (Sched.tid2Thread (tid % 2 ^ 32).toNat m.sched)
  match found with
  | none => return (-Sched.ESRCH, m)
  | some t => threadSignalSend t sig m

/-! ## Threads and processes -/

/-- The loop `while (!LIST_EMPTY) signalContextFree(LIST_FIRST)` over a list, for at most `n` turns. -/
def drain (h : Home) : Nat → Machine → Except Stop Machine
  | 0, m => .ok m
  | n + 1, m =>
    match m.list h with
    | [] => .ok m
    | sc :: _ => signalContextFree sc m >>= drain h n

/-- `threadFree` -/
def threadFree (t : Nat) (m : Machine) : Except Stop Machine := do
  let m ← drain (.pending t) (m.list (.pending t)).length m
  let m ← drain (.handling t) (m.list (.handling t)).length m
  let s ← onSched (Sched.threadFree t m.sched)
  return m.setSched s

/-- `threadDestroy`, up to `callYield`. -/
def threadDestroy (t : Nat) (m : Machine) : Except Stop Machine := do
  let m ← threadFree t m
  return if m.sched.currentThread = some t then m.setSched { m.sched with currentThread := none } else m

/-- What `threadSetup` does for signals. -/
def threadSetup (t : Nat) (m : Machine) : Machine :=
  ((m.setBlocked t 0).setList (.pending t) []).setList (.handling t) []

/-- What `setupProcess` does for signals: a cleared page in place of the one of the slot's last process. -/
def setupProcess (p : Nat) (m : Machine) : Machine :=
  { m with
    words := fun w => if w / 512 = p then 0 else m.words w
    mapped := update m.mapped p true }

def takeThread (pages : Pages) (sp : Nat) (m : Machine) : Except Stop (Option Nat × Machine) := do
  let (new, s) ← onSched (Sched.takeThread pages sp m.sched)
  match new with
  | none => return (none, m.setSched s)
  | some t => return (some t, threadSetup t (m.setSched s))

def processAlloc (pages : Pages) (parentId : Nat) (m : Machine) : Except Stop ((Int ⊕ Nat) × Machine) := do
  let (r, s) ← onSched (Sched.processAlloc pages parentId m.sched)
  match r with
  | .inl e => return (.inl e, m.setSched s)
  | .inr p => return (.inr p, setupProcess p (m.setSched s))

/-- `mainThreadAlloc`, with the thread and the process it is attached to. -/
def mainThreadAlloc (pages : Pages) (parentId : Nat) (m : Machine) : Except Stop ((Int ⊕ (Nat × Nat)) × Machine) := do
  let (new, m) ← takeThread pages (USER_STACK_TOP - 24) m
  match new with
  | none => return (.inl (-Sched.ESRCH), m)
  | some t =>
    let (r, m) ← processAlloc pages parentId m
    match r with
    | .inl e => return (.inl e, m)
    | .inr p => return (.inr (t, p), m.setSched (Sched.attach t p m.sched))

/-- `processCreatePriority`, with the process it makes. -/
def processCreatePriority (pages : Pages) (frame : Trapframe) (m : Machine) : Except Stop (Option Nat × Machine) := do
  let (r, m) ← mainThreadAlloc pages 0 m
  match r with
  | .inl _ => return (none, m)
  | .inr (t, p) =>
    let s := m.sched.setThread t { m.sched.threads t with trapframe := frame }
    let s ← onSched (Sched.start t Sched.SCHED_OTHER 0 s)
    return (some p, m.setSched s)

/-- The words after `bcopy(parentAction, newAction, sizeof(SignalAction) * 128)`. -/
def copiedWords (p c : Nat) (words : Int → BitVec 64) (w : Int) : BitVec 64 :=
  if getSignalHandler c ≤ w ∧ w < getSignalHandler c + 3 * 128 then words (w - getSignalHandler c + getSignalHandler p)
  else words w

/-- The copy of the table of `p` to the one of `c` in `processFork`. -/
def copyActions (p c : Nat) (m : Machine) : Except Stop Machine :=
  if m.mapped p then .ok { m with words := copiedWords p c m.words } else .error .kernelTrap

/-- `processFork`, with the process it makes. -/
def processFork (pages : Pages) (m : Machine) : Except Stop ((Int × Option Nat) × Machine) := do
  let (mth, myprocess) ← onSched (Sched.myThread m.sched)
  let (r, m) ← mainThreadAlloc pages (m.sched.procs myprocess).processId m
  match r with
  | .inl e => return ((e, none), m)
  | .inr (t, c) =>
    let s ← onSched ((List.range Files.NOFILE).foldlM (Sched.forkSlot myprocess c) m.sched)
    let frame := update (update s.hart .a0 0) .kernelSp (Sched.getThreadTopSp t)
    let m := m.setSched (s.setThread t { s.threads t with trapframe := frame })
    let m ← copyActions myprocess c m
    let s ← onSched (Sched.start t (m.sched.threads mth).schedPolicy (m.sched.threads mth).schedPriority m.sched)
    return (((s.procs c).processId, some c), m.setSched s)

/-- `threadFork` -/
def threadFork (pages : Pages) (stackVa tls ctid : Nat) (m : Machine) : Except Stop (Int × Machine) := do
  let (mth, current) ← onSched (Sched.myThread m.sched)
  let (new, m) ← takeThread pages stackVa m
  match new with
  | none => return (-Sched.ESRCH, m)
  | some t =>
    let s := Sched.attach t current m.sched
    let frame := update (update s.hart .a0 0) .tp tls
    let frame := update (update frame .kernelSp (Sched.getThreadTopSp t)) .sp stackVa
    let s := s.setThread t { s.threads t with trapframe := frame, clearChildTid := ctid }
    let s ← onSched (Sched.start t (s.threads mth).schedPolicy (s.threads mth).schedPriority s)
    return ((s.threads t).threadId, m.setSched s)

/-- `exec`, as far as signals can tell: it fails, or leaves the new image's frame. -/
def exec (frame : Option Trapframe) (m : Machine) : Except Stop (Int × Machine) := do
  let (t, _) ← onSched (Sched.myThread m.sched)
  match frame with
  | none => return (-1, m)
  | some tf =>
    let s := m.sched.setThread t { m.sched.threads t with clearChildTid := 0 }
    return (0, m.setSched { s with hart := tf })

end Exaros.Signal
