import Exaros.Lib.Bitmap
import Exaros.Lib.Fifo
import Exaros.Lib.Run
import Exaros.Memory.Bytes

/-!
# Pipes

`kernel/fs/pipe.c`, with `sleep` and `wakeup` of `kernel/process/thread.c`, on one hart. A thread that is
inside a pipe keeps its locals in a `Frame`; one turn of a loop of `pipeWrite` or `pipeRead` is one step.
The hart stays with the thread `cur` from the time it takes the pipe's lock, or wakes, until it returns or
sleeps, so between those points nothing else moves: the lock itself needs no state. The kernel reaches a
buffer's bytes at their physical address.
-/

namespace Exaros.Pipes

open Function (update)

def PIPESIZE : Nat := 65536
def MAX_PIPE : Nat := 128

structure Pipe where
  data : Nat → UInt8
  nread : UInt64
  nwrite : UInt64
  readopen : Bool
  writeopen : Bool

/-- `&pi->nread` and `&pi->nwrite`, the addresses threads sleep on. -/
inductive Chan
  | nread (pi : Nat)
  | nwrite (pi : Nat)
deriving DecidableEq

inductive RunState
  | running
  | runnable
  | sleeping
deriving DecidableEq

/-- The loop a thread is in. `copy` remembers the pipe as it was when the reader stopped waiting. -/
inductive Phase
  | write
  | wait
  | copy (stopped : Pipe)

/-- The arguments and locals of a call of `pipeWrite` or `pipeRead`. -/
structure Frame where
  pi : Nat
  isUser : Bool
  pgdir : Ppn
  addr : Nat
  n : Int
  i : Nat
  pa : Nat
  phase : Phase

structure Thread where
  state : RunState
  channel : Option Chan
  frame : Option Frame

/-- A call that has returned, with its argument and result. -/
inductive Done
  | write (n : Int) (result : Nat)
  | read (n : Int) (result : Nat) (stopped : Pipe)

/-- The pipes, the threads and what the pipes have carried since they were made. -/
structure World where
  mem : Mem
  pipes : Nat → Pipe
  pipeBitMap : Bitmap.Words
  threads : Nat → Thread
  cur : Option Nat
  sent : Nat → List UInt8
  rcvd : Nat → List UInt8
  done : List Done

/-- Where the kernel stops for good inside a pipe. -/
inductive Halt
  /-- a panic of the memory functions -/
  | mem (e : Panic)
  /-- `pipeWrite`: `panic("")` with the read end closed -/
  | readerGone
  /-- `pipeWrite`: `assert(i != 0)` -/
  | emptyWrite
  /-- `pipeAlloc`: "no pipe!" -/
  | noPipe
deriving DecidableEq

/-- What `passiveAlloc` finds of the process: its segments and the contents of the page to load. -/
structure Loader where
  segs : List SegmentMap
  data : Idx → BitVec 64

namespace World

def setThread (s : World) (t : Nat) (th : Thread) : World :=
  { s with threads := update s.threads t th }

def setPipe (s : World) (p : Nat) (pi : Pipe) : World :=
  { s with pipes := update s.pipes p pi }

/-- `wakeup(channel)` -/
def wakeup (s : World) (channel : Chan) : World :=
  { s with threads := fun t =>
      if (s.threads t).state = .sleeping ∧ (s.threads t).channel = some channel then
        { s.threads t with state := .runnable }
      else s.threads t }

/-- `sleep(channel, lk)`, up to the switch to another thread. -/
def sleep (s : World) (t : Nat) (channel : Chan) : World :=
  { s.setThread t { s.threads t with state := .sleeping, channel := some channel } with cur := none }

/-- The rest of `sleep`, when the thread runs again. -/
def resume (s : World) (t : Nat) : World :=
  { s.setThread t { s.threads t with state := .running, channel := none } with cur := some t }

/-- The call of thread `t` goes on with frame `f`. -/
def goOn (s : World) (t : Nat) (f : Frame) : World :=
  { s.setThread t { s.threads t with state := .running, frame := some f } with cur := some t }

/-- The call of thread `t` returns. -/
def ret (s : World) (t : Nat) (d : Done) : World :=
  { s.setThread t { s.threads t with state := .runnable, frame := none } with cur := none, done := d :: s.done }

end World

/-! ## Buffers -/

def liftMem {α : Type} : Except Panic α → Except Halt α
  | .ok a => .ok a
  | .error e => .error (.mem e)

/-- How `pipeWrite` reaches the page of `va`; a copy-on-write page is copied at the address `cowVa`. -/
def writePage (ld : Loader) (pgdir : Ppn) (va cowVa : Nat) (m : Mem) : Except Halt (Nat × Mem) :=
  match va2PA pgdir va m with
  | none => liftMem (passiveAlloc ld.segs ld.data pgdir va m)
  | some (_, true) => liftMem (cowHandler pgdir cowVa m)
  | some (pa, false) => .ok (pa, m)

/-- How `pipeRead` reaches the page of `va`. -/
def readPage (ld : Loader) (pgdir : Ppn) (va : Nat) (m : Mem) : Except Halt (Nat × Mem) :=
  match va2PA pgdir va m with
  | none => liftMem (passiveAlloc ld.segs ld.data pgdir va m)
  | some (pa, _) => .ok (pa, m)

/-! ## `pipeWrite` and `pipeRead` -/

/-- `x & (PIPESIZE - 1)` -/
def cell (x : UInt64) : Nat := (x &&& UInt64.ofNat (PIPESIZE - 1)).toNat

def Pipe.full (pi : Pipe) : Bool := pi.nwrite = pi.nread + UInt64.ofNat PIPESIZE

def Pipe.empty (pi : Pipe) : Bool := pi.nread = pi.nwrite

/-- `pi->data[(pi->nwrite++) & (PIPESIZE - 1)] = ch` -/
def Pipe.push (pi : Pipe) (ch : UInt8) : Pipe :=
  { pi with data := update pi.data (cell pi.nwrite) ch, nwrite := pi.nwrite + 1 }

/-- `ch = pi->data[(pi->nread++) & (PIPESIZE - 1)]` -/
def Pipe.pop (pi : Pipe) : UInt8 × Pipe :=
  (pi.data (cell pi.nread), { pi with nread := pi.nread + 1 })

/-- The address `pipeWrite` copies from first. -/
def writeStart (ld : Loader) (isUser : Bool) (pgdir : Ppn) (addr : Nat) (m : Mem) : Except Halt (Nat × Mem) :=
  if isUser then writePage ld pgdir addr addr m else .ok (addr, m)

/-- The address `pipeWrite` copies from after one more byte: a user buffer is looked up again at each page
boundary, where a copy-on-write page is copied at `addr`, not at `addr + i`. -/
def writeNext (ld : Loader) (f : Frame) (m : Mem) : Except Halt (Nat × Mem) :=
  if f.isUser ∧ u64 (f.addr + (f.i + 1)) % PAGE_SIZE = 0 then writePage ld f.pgdir (u64 (f.addr + (f.i + 1))) f.addr m
  else .ok (f.pa + 1, m)

def readStart (ld : Loader) (isUser : Bool) (pgdir : Ppn) (addr : Nat) (m : Mem) : Except Halt (Nat × Mem) :=
  if isUser then readPage ld pgdir addr m else .ok (addr, m)

def readNext (ld : Loader) (f : Frame) (m : Mem) : Except Halt (Nat × Mem) :=
  if f.isUser ∧ u64 (f.addr + (f.i + 1)) % PAGE_SIZE = 0 then readPage ld f.pgdir (u64 (f.addr + (f.i + 1))) m
  else .ok (f.pa + 1, m)

/-- `pipeWrite` up to its loop. -/
def enterWrite (ld : Loader) (t pi : Nat) (isUser : Bool) (pgdir : Ppn) (addr : Nat) (n : Int) (s : World) :
    Except Halt World :=
  (writeStart ld isUser pgdir addr s.mem).map fun r =>
    { s with mem := r.2 }.goOn t { pi, isUser, pgdir, addr, n, i := 0, pa := r.1, phase := .write }

/-- The state after a byte has gone in. -/
def World.written (s : World) (t : Nat) (f : Frame) (ch : UInt8) (pa : Nat) (mem : Mem) : World :=
  ({ s with mem := mem, sent := update s.sent f.pi (s.sent f.pi ++ [ch]) }.setPipe f.pi
    ((s.pipes f.pi).push ch)).goOn t { f with i := f.i + 1, pa := pa }

/-- One turn of the loop of `pipeWrite`, or what follows it. -/
def writeTurn (ld : Loader) (t : Nat) (f : Frame) (s : World) : Except Halt World :=
  if f.i < f.n then
    if (s.pipes f.pi).readopen = false then .error .readerGone
    else if (s.pipes f.pi).full then .ok ((s.wakeup (.nread f.pi)).sleep t (.nwrite f.pi))
    else (writeNext ld f s.mem).map fun r => s.written t f (loadByte s.mem f.pa) r.1 r.2
  else if f.i = 0 then .error .emptyWrite
  else .ok ((s.wakeup (.nread f.pi)).ret t (.write f.n f.i))

/-- `pipeRead` up to its first loop. -/
def enterRead (ld : Loader) (t pi : Nat) (isUser : Bool) (pgdir : Ppn) (addr : Nat) (n : Int) (s : World) :
    Except Halt World :=
  (readStart ld isUser pgdir addr s.mem).map fun r =>
    { s with mem := r.2 }.goOn t { pi, isUser, pgdir, addr, n, i := 0, pa := r.1, phase := .wait }

/-- One turn of the first loop of `pipeRead`. -/
def waitTurn (t : Nat) (f : Frame) (s : World) : World :=
  if (s.pipes f.pi).empty ∧ (s.pipes f.pi).writeopen then s.sleep t (.nread f.pi)
  else s.goOn t { f with phase := .copy (s.pipes f.pi) }

/-- The state after a byte has come out. -/
def World.taken (s : World) (t : Nat) (f : Frame) (pa : Nat) (mem : Mem) : World :=
  ({ s with mem := mem, rcvd := update s.rcvd f.pi (s.rcvd f.pi ++ [(s.pipes f.pi).pop.1]) }.setPipe f.pi
    (s.pipes f.pi).pop.2).goOn t { f with i := f.i + 1, pa := pa }

/-- One turn of the second loop of `pipeRead`, or what follows it. -/
def copyTurn (ld : Loader) (t : Nat) (f : Frame) (stopped : Pipe) (s : World) : Except Halt World :=
  if f.i < f.n ∧ (s.pipes f.pi).empty = false then
    (readNext ld f (storeByte s.mem f.pa (s.pipes f.pi).pop.1)).map fun r => s.taken t f r.1 r.2
  else .ok ((s.wakeup (.nwrite f.pi)).ret t (.read f.n f.i stopped))

/-- One turn of the thread on the hart. -/
def turn (ld : Loader) (t : Nat) (f : Frame) (s : World) : Except Halt World :=
  match f.phase with
  | .write => writeTurn ld t f s
  | .wait => .ok (waitTurn t f s)
  | .copy stopped => copyTurn ld t f stopped s

/-! ## Making and closing pipes -/

/-- `pipeAlloc`; a new pipe has carried nothing. -/
def pipeAlloc (s : World) : Except Halt (Nat × World) :=
  match Bitmap.findClear s.pipeBitMap (MAX_PIPE / 64) 0 with
  | none => .error .noPipe
  | some p =>
    .ok (p, { s.setPipe p { s.pipes p with nread := 0, nwrite := 0 } with
      pipeBitMap := Bitmap.set s.pipeBitMap p
      sent := update s.sent p []
      rcvd := update s.rcvd p [] })

def pipeFree (p : Nat) (s : World) : World :=
  { s with pipeBitMap := Bitmap.clear s.pipeBitMap p }

/-- `pipeNew`, once both `filealloc`s have succeeded. -/
def pipeNew (s : World) : Except Halt (Nat × World) := do
  let (p, s) ← pipeAlloc s
  return (p, s.setPipe p { s.pipes p with readopen := true, writeopen := true })

def pipeClose (p : Nat) (writable : Bool) (s : World) : World :=
  let s :=
    if writable then (s.setPipe p { s.pipes p with writeopen := false }).wakeup (.nread p)
    else (s.setPipe p { s.pipes p with readopen := false }).wakeup (.nwrite p)
  if (s.pipes p).readopen = false ∧ (s.pipes p).writeopen = false then pipeFree p s else s

/-! ## What a turn does -/

section Cases

variable {ld : Loader} {t pi : Nat} {isUser : Bool} {pgdir : Ppn} {addr : Nat} {n : Int} {f : Frame} {stopped : Pipe}
  {s s' : World}

theorem map_eq_ok {α β : Type} {x : Except Halt α} {g : α → β} {b : β} (h : x.map g = .ok b) :
    ∃ a, x = .ok a ∧ b = g a := by
  cases x with
  | error e => cases h
  | ok a =>
    cases h
    exact ⟨a, rfl, rfl⟩

theorem enterWrite_cases (h : enterWrite ld t pi isUser pgdir addr n s = .ok s') :
    ∃ pa mem, s' = { s with mem := mem }.goOn t { pi, isUser, pgdir, addr, n, i := 0, pa, phase := .write } := by
  obtain ⟨r, -, rfl⟩ := map_eq_ok h
  exact ⟨r.1, r.2, rfl⟩

theorem enterRead_cases (h : enterRead ld t pi isUser pgdir addr n s = .ok s') :
    ∃ pa mem, s' = { s with mem := mem }.goOn t { pi, isUser, pgdir, addr, n, i := 0, pa, phase := .wait } := by
  obtain ⟨r, -, rfl⟩ := map_eq_ok h
  exact ⟨r.1, r.2, rfl⟩

/-- What one turn of the loop of `pipeWrite` can do. -/
theorem writeTurn_cases (h : writeTurn ld t f s = .ok s') :
    (f.i < f.n ∧ (s.pipes f.pi).readopen = true ∧ (s.pipes f.pi).full = true ∧
      s' = (s.wakeup (.nread f.pi)).sleep t (.nwrite f.pi)) ∨
    (f.i < f.n ∧ (s.pipes f.pi).readopen = true ∧ (s.pipes f.pi).full = false ∧
      ∃ pa mem, s' = s.written t f (loadByte s.mem f.pa) pa mem) ∨
    (f.n ≤ f.i ∧ f.i ≠ 0 ∧ s' = (s.wakeup (.nread f.pi)).ret t (.write f.n f.i)) := by
  unfold writeTurn at h
  split at h
  case isTrue hi =>
    split at h
    · cases h
    · next hro =>
      split at h
      · next hfull =>
        cases h
        exact .inl ⟨hi, by simpa using hro, hfull, rfl⟩
      · next hfull =>
        obtain ⟨r, -, rfl⟩ := map_eq_ok h
        exact .inr (.inl ⟨hi, by simpa using hro, by simpa using hfull, r.1, r.2, rfl⟩)
  case isFalse hi =>
    split at h
    · cases h
    · next h0 =>
      cases h
      exact .inr (.inr ⟨by omega, h0, rfl⟩)

theorem copyTurn_cases (h : copyTurn ld t f stopped s = .ok s') :
    (f.i < f.n ∧ (s.pipes f.pi).empty = false ∧ ∃ pa mem, s' = s.taken t f pa mem) ∨
    ((f.n ≤ f.i ∨ (s.pipes f.pi).empty = true) ∧ s' = (s.wakeup (.nwrite f.pi)).ret t (.read f.n f.i stopped)) := by
  unfold copyTurn at h
  split at h
  · next hgo =>
    obtain ⟨r, -, rfl⟩ := map_eq_ok h
    exact .inl ⟨hgo.1, hgo.2, r.1, r.2, rfl⟩
  · next hgo =>
    cases h
    refine .inr ⟨?_, rfl⟩
    by_cases hi : (f.i : Int) < f.n
    · exact .inr (by simpa [hi] using hgo)
    · exact .inl (by omega)

/-- The state after pipe `p` has been made. -/
def World.made (s : World) (p : Nat) : World :=
  { s.setPipe p { s.pipes p with nread := 0, nwrite := 0, readopen := true, writeopen := true } with
    pipeBitMap := Bitmap.set s.pipeBitMap p
    sent := update s.sent p []
    rcvd := update s.rcvd p [] }

theorem pipeNew_cases {p : Nat} (h : pipeNew s = .ok (p, s')) :
    p < MAX_PIPE ∧ Bitmap.get s.pipeBitMap p = false ∧ s' = s.made p := by
  cases hf : Bitmap.findClear s.pipeBitMap (MAX_PIPE / 64) 0 with
  | none =>
    simp only [pipeNew, pipeAlloc, hf] at h
    cases h
  | some q =>
    have hq := Bitmap.findClear_eq_some hf
    simp only [pipeNew, pipeAlloc, hf] at h
    cases h
    refine ⟨hq.2.1, hq.2.2.1, ?_⟩
    simp [World.made, World.setPipe]

/-- What a close leaves: one flag down, the other side awake, and the pipe freed with the second flag. -/
theorem pipeClose_cases (p : Nat) (writable : Bool) (s : World) :
    let s₁ := if writable then (s.setPipe p { s.pipes p with writeopen := false }).wakeup (.nread p)
      else (s.setPipe p { s.pipes p with readopen := false }).wakeup (.nwrite p)
    (pipeClose p writable s).pipes = s₁.pipes ∧ (pipeClose p writable s).threads = s₁.threads ∧
      (pipeClose p writable s).cur = s.cur ∧ (pipeClose p writable s).sent = s.sent ∧
      (pipeClose p writable s).rcvd = s.rcvd ∧ (pipeClose p writable s).done = s.done ∧
      ∀ q, Bitmap.get (pipeClose p writable s).pipeBitMap q = false →
        Bitmap.get s.pipeBitMap q = false ∨ q = p ∧ (s₁.pipes p).readopen = false ∧ (s₁.pipes p).writeopen = false := by
  intro s₁
  have hbase : s₁.cur = s.cur ∧ s₁.sent = s.sent ∧ s₁.rcvd = s.rcvd ∧ s₁.done = s.done ∧ s₁.pipeBitMap = s.pipeBitMap := by
    cases writable with
    | true => exact ⟨rfl, rfl, rfl, rfl, rfl⟩
    | false => exact ⟨rfl, rfl, rfl, rfl, rfl⟩
  obtain ⟨hcur, hsent, hrcvd, hdone, hbm⟩ := hbase
  have heq : pipeClose p writable s =
      if (s₁.pipes p).readopen = false ∧ (s₁.pipes p).writeopen = false then pipeFree p s₁ else s₁ := rfl
  by_cases hboth : (s₁.pipes p).readopen = false ∧ (s₁.pipes p).writeopen = false
  · rw [heq, if_pos hboth]
    refine ⟨rfl, rfl, hcur, hsent, hrcvd, hdone, fun q hq => ?_⟩
    simp only [pipeFree, Bitmap.get_clear, Bool.and_eq_false_iff, Bool.not_eq_false', decide_eq_true_eq, hbm] at hq
    rcases hq with hq | hq
    · exact .inr ⟨hq, hboth⟩
    · exact .inl hq
  · rw [heq, if_neg hboth]
    exact ⟨rfl, rfl, hcur, hsent, hrcvd, hdone, fun q hq => .inl (hbm ▸ hq)⟩

end Cases

/-! ## Runs -/

/-- The kernel's static data, with any threads ready to run in any memory. -/
def World.Init (s : World) : Prop :=
  (∀ p, s.pipes p = { data := fun _ => 0, nread := 0, nwrite := 0, readopen := false, writeopen := false }) ∧
    s.pipeBitMap = (fun _ => 0) ∧ (∀ t, (s.threads t).state ≠ .sleeping ∧ (s.threads t).frame = none) ∧ s.cur = none ∧
    (∀ p, s.sent p = [] ∧ s.rcvd p = []) ∧ s.done = []

/-- What can happen: a thread enters a pipe, takes a turn in it or runs again after a sleep; a pipe is made
or closed; memory changes while no thread is inside a pipe. -/
inductive Step : World → World → Prop
  | write {s s' : World} (ld : Loader) (t pi : Nat) (isUser : Bool) (pgdir : Ppn) (addr : Nat) (n : Int) :
      s.cur = none → (s.threads t).state ≠ .sleeping → (s.threads t).frame = none →
      enterWrite ld t pi isUser pgdir addr n s = .ok s' → Step s s'
  | read {s s' : World} (ld : Loader) (t pi : Nat) (isUser : Bool) (pgdir : Ppn) (addr : Nat) (n : Int) :
      s.cur = none → (s.threads t).state ≠ .sleeping → (s.threads t).frame = none →
      enterRead ld t pi isUser pgdir addr n s = .ok s' → Step s s'
  | turn {s s' : World} (ld : Loader) (t : Nat) (f : Frame) :
      s.cur = some t → (s.threads t).frame = some f → turn ld t f s = .ok s' → Step s s'
  | resume {s : World} (t : Nat) :
      s.cur = none → (s.threads t).state = .runnable → (s.threads t).frame.isSome → Step s (s.resume t)
  | pipeNew {s s' : World} (p : Nat) : s.cur = none → pipeNew s = .ok (p, s') → Step s s'
  | pipeClose {s : World} (p : Nat) (writable : Bool) : s.cur = none → Step s (pipeClose p writable s)
  | memory {s : World} (m : Mem) : s.cur = none → Step s { s with mem := m }

/-- The states a run of pipe operations reaches. -/
def Reached : World → Prop := Run.Reach World.Init Step

/-- The steps by what they change. -/
inductive Move (s : World) : World → Prop
  | enter (t : Nat) (f : Frame) (m : Mem) : s.cur = none → (s.threads t).state ≠ .sleeping → f.i = 0 →
      (f.phase = .write ∨ f.phase = .wait) → Move s ({ s with mem := m }.goOn t f)
  | block (t : Nat) (f : Frame) : s.cur = some t → (s.threads t).frame = some f → f.phase = .write →
      f.i < f.n → (s.pipes f.pi).readopen = true → (s.pipes f.pi).full = true →
      Move s ((s.wakeup (.nread f.pi)).sleep t (.nwrite f.pi))
  | written (t : Nat) (f : Frame) (pa : Nat) (m : Mem) : s.cur = some t → (s.threads t).frame = some f →
      f.phase = .write → f.i < f.n → (s.pipes f.pi).readopen = true → (s.pipes f.pi).full = false →
      Move s (s.written t f (loadByte s.mem f.pa) pa m)
  | wrote (t : Nat) (f : Frame) : s.cur = some t → (s.threads t).frame = some f → f.phase = .write → f.n ≤ f.i →
      f.i ≠ 0 → Move s ((s.wakeup (.nread f.pi)).ret t (.write f.n f.i))
  | wait (t : Nat) (f : Frame) : s.cur = some t → (s.threads t).frame = some f → f.phase = .wait →
      (s.pipes f.pi).empty = true → (s.pipes f.pi).writeopen = true → Move s (s.sleep t (.nread f.pi))
  | stop (t : Nat) (f : Frame) : s.cur = some t → (s.threads t).frame = some f → f.phase = .wait →
      ((s.pipes f.pi).empty = true → (s.pipes f.pi).writeopen = false) →
      Move s (s.goOn t { f with phase := .copy (s.pipes f.pi) })
  | taken (t : Nat) (f : Frame) (stopped : Pipe) (pa : Nat) (m : Mem) : s.cur = some t →
      (s.threads t).frame = some f → f.phase = .copy stopped → f.i < f.n → (s.pipes f.pi).empty = false →
      Move s (s.taken t f pa m)
  | took (t : Nat) (f : Frame) (stopped : Pipe) : s.cur = some t → (s.threads t).frame = some f →
      f.phase = .copy stopped → (f.n ≤ f.i ∨ (s.pipes f.pi).empty = true) →
      Move s ((s.wakeup (.nwrite f.pi)).ret t (.read f.n f.i stopped))
  | resume (t : Nat) : s.cur = none → (s.threads t).state = .runnable → (s.threads t).frame.isSome →
      Move s (s.resume t)
  | made (p : Nat) : s.cur = none → Bitmap.get s.pipeBitMap p = false → Move s (s.made p)
  | pipeClose (p : Nat) (writable : Bool) : s.cur = none → Move s (pipeClose p writable s)
  | memory (m : Mem) : s.cur = none → Move s { s with mem := m }

/-- A turn of a loop is one move. -/
theorem turn_move {ld : Loader} {t : Nat} {f : Frame} {s s' : World} (hc : s.cur = some t)
    (hf : (s.threads t).frame = some f) (h : turn ld t f s = .ok s') : Move s s' := by
  unfold turn at h
  cases hph : f.phase with
  | write =>
    rw [hph] at h
    rcases writeTurn_cases h with ⟨hi, hro, hfull, rfl⟩ | ⟨hi, hro, hfull, pa, m, rfl⟩ | ⟨hi, h0, rfl⟩
    · exact .block t f hc hf hph hi hro hfull
    · exact .written t f pa m hc hf hph hi hro hfull
    · exact .wrote t f hc hf hph hi h0
  | wait =>
    rw [hph] at h
    cases h
    unfold waitTurn
    split
    · next hw => exact .wait t f hc hf hph hw.1 hw.2
    · next hw => exact .stop t f hc hf hph fun he => by simpa [he] using hw
  | copy stopped =>
    rw [hph] at h
    rcases copyTurn_cases h with ⟨hi, he, pa, m, rfl⟩ | ⟨hend, rfl⟩
    · exact .taken t f stopped pa m hc hf hph hi he
    · exact .took t f stopped hc hf hph hend

theorem Step.move {s s' : World} (h : Step s s') : Move s s' := by
  cases h with
  | write ld t pi isUser pgdir addr n hc hs _ h =>
    obtain ⟨pa, m, rfl⟩ := enterWrite_cases h
    exact .enter t _ m hc hs rfl (.inl rfl)
  | read ld t pi isUser pgdir addr n hc hs _ h =>
    obtain ⟨pa, m, rfl⟩ := enterRead_cases h
    exact .enter t _ m hc hs rfl (.inr rfl)
  | turn ld t f hc hf h => exact turn_move hc hf h
  | resume t hc hs hf => exact .resume t hc hs hf
  | pipeNew p hc h =>
    obtain ⟨-, hfree, rfl⟩ := pipeNew_cases h
    exact .made p hc hfree
  | pipeClose p w hc => exact .pipeClose p w hc
  | memory m hc => exact .memory m hc

/-! ## Boot -/

/-- The kernel at boot, its threads ready. -/
def boot (m : Mem) : World where
  mem := m
  pipes := fun _ => { data := fun _ => 0, nread := 0, nwrite := 0, readopen := false, writeopen := false }
  pipeBitMap := fun _ => 0
  threads := fun _ => { state := .runnable, channel := none, frame := none }
  cur := none
  sent := fun _ => []
  rcvd := fun _ => []
  done := []

theorem boot_init (m : Mem) : (boot m).Init :=
  ⟨fun _ => rfl, rfl, fun _ => ⟨by simp [boot], rfl⟩, rfl, fun _ => ⟨rfl, rfl⟩, rfl⟩

/-- `pipeNew` at boot gives pipe 0. -/
theorem pipeNew_boot (m : Mem) : pipeNew (boot m) = .ok (0, (boot m).made 0) := by
  have hf : Bitmap.findClear (boot m).pipeBitMap (MAX_PIPE / 64) 0 = some 0 := by
    show Bitmap.findClear (fun _ => 0) (MAX_PIPE / 64) 0 = some 0
    decide
  simp only [pipeNew, pipeAlloc, hf]
  simp [World.made, World.setPipe, bind, Except.bind, pure, Except.pure]

def noMem : Mem := { ram := fun _ _ => 0, ref := fun _ => 0, freePageList := [] }

def noLoader : Loader := { segs := [], data := fun _ => 0 }

end Exaros.Pipes
