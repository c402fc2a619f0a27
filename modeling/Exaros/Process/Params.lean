import Exaros.Process.Queues

/-!
# Scheduling parameters

Every list insertion and both yields rely on the policy and priority of a thread. They are inherited, and set
in one place from outside: `sched_setscheduler`, which turns away a `SCHED_OTHER` priority that is not 0 and
nothing else. As long as what it lets through has a policy the scheduler knows and a list, every thread slot
keeps such parameters.
-/

namespace Exaros.Sched

open Loop Run

/-! ## Calls -/

inductive Op
  | create (pages : Pages) (frame : Trapframe)
  | clone (pages : Pages) (flags stackVa tls ctid : Nat)
  | setscheduler (pid : Nat) (policy priority : Int)
  | callYield (clock : List Nat)
  | timeYield (clock : List Nat)
  | sleep (channel : Chan) (clock : List Nat)
  | resume (clock : List Nat)
  | wakeup (channel : Chan)
  | futexWait (addr : Nat) (ts : Option Nat) (clock : List Nat)
  | futexWake (addr : Nat) (n : Int)
  | futexRequeue (addr : Nat) (n : Int) (newAddr : Nat)
  | nanosleep (time : Nat) (clock : List Nat)
  | sigkill (t : Nat)
  | exit (ec : Nat) (clock : List Nat)
  | reap (c : Nat)

def exec (op : Op) (m : Machine) : Except Halt Machine :=
  match op with
  | .create pages frame => processCreatePriority pages frame m
  | .clone pages flags stackVa tls ctid => (clone pages flags stackVa tls ctid m).map (·.2)
  | .setscheduler pid policy priority => (schedSetscheduler pid policy priority m).map (·.2)
  | .callYield clock => callYield clock m
  | .timeYield clock => timeYield clock m
  | .sleep channel clock => sleep channel clock m
  | .resume clock => resume clock m
  | .wakeup channel => wakeup channel m
  | .futexWait addr ts clock => futexWait addr ts clock m
  | .futexWake addr n => futexWake addr n m
  | .futexRequeue addr n newAddr => futexRequeue addr n newAddr m
  | .nanosleep time clock => nanosleep time clock m
  | .sigkill t => sigkill t m
  | .exit ec clock => exit ec clock m
  | .reap c => .ok (reap c m)

/-- `processInit` and `threadInit`: everything zero, every block on its free list. -/
def boot : Machine where
  threads := fun _ =>
    { trapframe := fun _ => 0, awakeTime := 0, threadId := 0, state := .unused, channel := none, reason := false
      retValue := 0, clearChildTid := 0, process := none, schedPolicy := 0, schedPriority := 0, killed := false }
  procs := fun _ => { processId := 0, parentId := 0, state := .unused, retValue := 0, threadCount := 0, ofile := fun _ => none }
  files := fun _ => { type := .none, ref := 0, readable := false, writable := false, pipe := 0, socket := 0, tmpfile := 0 }
  freeThreads := List.range Files.PROCESS_TOTAL_NUMBER
  usedThreads := []
  freeProcesses := List.range Files.PROCESS_TOTAL_NUMBER
  usedProcesses := []
  priSchedList := fun _ => []
  currentThread := none
  futexQueue := fun _ => { addr := 0, thread := 0, valid := false }
  hart := fun _ => 0
  nextThreadId := 0
  nextProcessId := 0

/-- A call of `sched_setscheduler` is turned away, or asks for a policy the scheduler knows and a priority that
has a list. -/
def Op.Fits (op : Op) (m : Machine) : Prop :=
  match op with
  | .setscheduler pid policy priority =>
    tid2Thread (pid % 2 ^ 32) m = .ok none ∨ (policy = SCHED_OTHER ∧ priority ≠ 0) ∨
      ((policy = SCHED_OTHER ∨ policy = SCHED_FIFO) ∧ 99 - PRI_MAX + PRI_MIN ≤ priority ∧ priority ≤ 99)
  | _ => True

/-- One call, on a machine that goes on. -/
def Step (ok : Op → Machine → Prop) (m m' : Machine) : Prop := ∃ op, ok op m ∧ exec op m = .ok m'

/-! ## Parameters in range -/

/-- No error for want of a list or a policy, and all parameters in range afterwards. -/
def Safe (r : Except Halt Machine) : Prop := Outcome (fun e : Halt => ¬ e.OutOfRange) InRange r

section Safe

variable {m m' : Machine} {t : Nat} {th : Thread} {r : Except Halt Machine}

theorem Woken.safe (h : Woken m r) (hm : InRange m) : Safe r :=
  Outcome.mono h (fun _ he => he hm) fun _ hw => hm.of_params hw.params

theorem InRange.setThread (hm : InRange m) (h : th.InRange) : InRange (m.setThread t th) := fun u => by
  unfold Machine.setThread
  by_cases hu : u = t
  · subst hu
    simp only [Function.update_self]
    exact h
  · simp only [Function.update_of_ne hu]
    exact hm u

theorem InRange.keep (hm : InRange m) (hpol : th.schedPolicy = (m.threads t).schedPolicy)
    (hpri : th.schedPriority = (m.threads t).schedPriority) : InRange (m.setThread t th) :=
  hm.of_params (params_setThread hpol hpri)

theorem InRange.setState (hm : InRange m) (state : ProcessState) : InRange (m.setState t state) := hm.keep rfl rfl

theorem safe_insertWith (f : List Nat → List Nat) (hm : InRange m) : Safe (insertWith f t m) := by
  cases h : insertWith f t m with
  | error e => exact .error (insertWith_error h (hm t))
  | ok m' =>
    obtain ⟨pri, -, -, -, rfl⟩ := insertWith_ok h
    exact .ok hm

theorem safe_remove (hm : InRange m) : Safe (remove t m) := by
  unfold remove
  split
  · exact .ok hm
  · exact .error id

theorem safe_threadFree (hm : InRange m) : Safe (threadFree t m) := by
  refine threadFree_spec.mono (fun e he => he hm) ?_
  rintro _ ⟨m₁, hw, rfl⟩
  have hm₁ := hm.of_params hw.params
  refine InRange.setState (m := if (m₁.threads t).state = .runnable then m₁.unlink t else m₁) ?_ .unused
  split
  · exact hm₁
  · exact hm₁

theorem safe_threadDestroy (hm : InRange m) :
    Outcome (fun e : Halt => ¬ e.OutOfRange) (fun s : Bool × Machine => InRange s.2) (threadDestroy t m) := by
  refine Outcome.map (safe_threadFree hm) fun m₁ hm₁ => ?_
  split
  · exact hm₁
  · exact hm₁

theorem safe_scan (now : Nat) (pris : List Nat) (hm : InRange m) :
    Outcome (fun e : Halt => ¬ e.OutOfRange) (fun s : Pass × Machine => InRange s.2) (scan now pris m) := by
  induction pris generalizing m with
  | nil => exact .ok hm
  | cons pri pris ih =>
    unfold scan
    split
    · exact ih hm
    · split
      · refine (safe_threadDestroy hm).bind ?_
        rintro ⟨own, m₁⟩ hm₁
        cases own with
        | true => exact .ok hm₁
        | false => exact ih hm₁
      · split
        · refine (safe_remove hm).bind fun m₁ hm₁ => ?_
          exact (safe_insertWith _ hm₁).bind fun m₂ hm₂ => ih hm₂
        · exact .ok hm

theorem inRange_threadRun (hm : InRange m) : InRange (threadRun t m) := by
  have h₁ : ∀ m : Machine, InRange m → InRange (m.setThread t { m.threads t with state := .running, reason := false }) :=
    fun m hm => hm.keep rfl rfl
  unfold threadRun
  cases m.currentThread with
  | none => exact h₁ m hm
  | some c => exact h₁ _ (hm.keep rfl rfl)

theorem safe_dispatch (hm : InRange m) : Safe (dispatch t m) := by
  refine (safe_remove hm).bind fun m₁ hm₁ => .ok (inRange_threadRun ?_)
  split
  · exact hm₁.keep rfl rfl
  · exact hm₁

theorem safe_fifoSched (clock : List Nat) (hm : InRange m) : Safe (fifoSched clock m) := by
  induction clock generalizing m with
  | nil => exact .ok hm
  | cons now clock ih =>
    refine (safe_scan now _ hm).bind ?_
    rintro ⟨res, m₁⟩ hm₁
    cases res with
    | idle => exact ih hm₁
    | restart => exact ih hm₁
    | picked t => exact safe_dispatch hm₁

/-- Neither yield meets a policy it does not know. -/
theorem safe_yieldWith {put : Nat → Machine → Except Halt Machine} (hput : ∀ m t, InRange m → Safe (put t m))
    (clock : List Nat) (hm : InRange m) : Safe (yieldWith put clock m) := by
  unfold yieldWith
  split
  · exact safe_fifoSched clock hm
  · rename_i t _
    dsimp only
    split
    · exact safe_fifoSched clock hm
    · split
      · exact (hput _ t (hm.setState .runnable)).bind fun m₁ hm₁ => safe_fifoSched clock hm₁
      · split
        · exact (safe_insertWith _ (hm.setState .runnable)).bind fun m₁ hm₁ => safe_fifoSched clock hm₁
        · rename_i hfifo hother
          exact absurd (hm t).1 (by simp [hfifo, hother])

theorem safe_callYield (clock : List Nat) (hm : InRange m) : Safe (callYield clock m) :=
  safe_yieldWith (fun _ _ => safe_insertWith _) clock hm

theorem safe_timeYield (clock : List Nat) (hm : InRange m) : Safe (timeYield clock m) :=
  safe_yieldWith (fun _ _ => safe_insertWith _) clock hm

/-! ## New threads -/

theorem safe_threadSetup (pages : Bool) (hm : InRange m) : Safe (threadSetup pages t m) := by
  unfold threadSetup
  split
  · refine .ok (hm.setThread ⟨.inl rfl, ?_⟩)
    show 0 ≤ (99 - 0 : Int) ∧ (99 - 0 : Int) < PRI_COUNT
    decide
  · exact .error id

theorem safe_takeThread (pages : Pages) (sp : Nat) (hm : InRange m) :
    Outcome (fun e : Halt => ¬ e.OutOfRange) (fun s : Option Nat × Machine => InRange s.2) (takeThread pages sp m) := by
  unfold takeThread
  split
  · exact .ok hm
  · rename_i t rest _
    have hm₀ : InRange { m with freeThreads := rest, usedThreads := t :: m.usedThreads } := hm
    refine (safe_threadSetup pages.stack hm₀).bind fun m₁ hm₁ => .ok ?_
    exact hm₁.keep rfl rfl

theorem safe_processAlloc (pages : Pages) (parentId : Nat) (hm : InRange m) :
    Outcome (fun e : Halt => ¬ e.OutOfRange) (fun s : (Int ⊕ Nat) × Machine => InRange s.2) (processAlloc pages parentId m) := by
  unfold processAlloc
  split
  · exact .ok hm
  · dsimp only
    split
    · exact .error id
    · split
      · exact .ok hm
      · exact .ok hm

theorem inRange_attach (hm : InRange m) (p : Nat) : InRange (attach t p m) :=
  show InRange (m.setThread t { m.threads t with process := some p }) from hm.keep rfl rfl

theorem safe_mainThreadAlloc (pages : Pages) (parentId : Nat) (hm : InRange m) :
    Outcome (fun e : Halt => ¬ e.OutOfRange) (fun s : (Int ⊕ Nat) × Machine => InRange s.2) (mainThreadAlloc pages parentId m) := by
  refine (safe_takeThread pages _ hm).bind ?_
  rintro ⟨new, m₁⟩ hm₁
  cases new with
  | none => exact .ok hm₁
  | some t =>
    refine (safe_processAlloc pages parentId hm₁).bind ?_
    rintro ⟨res, m₂⟩ hm₂
    cases res with
    | inl e => exact .ok hm₂
    | inr p => exact .ok (inRange_attach hm₂ p)

theorem safe_threadAlloc (pages : Pages) (p userSp : Nat) (hm : InRange m) :
    Outcome (fun e : Halt => ¬ e.OutOfRange) (fun s : (Int ⊕ Nat) × Machine => InRange s.2) (threadAlloc pages p userSp m) := by
  refine (safe_takeThread pages _ hm).bind ?_
  rintro ⟨new, m₁⟩ hm₁
  cases new with
  | none => exact .ok hm₁
  | some t => exact .ok (inRange_attach hm₁ p)

theorem safe_start {policy priority : Int} (hm : InRange m)
    (h : (policy = SCHED_OTHER ∨ policy = SCHED_FIFO) ∧ 0 ≤ 99 - priority ∧ 99 - priority < PRI_COUNT) :
    Safe (start t policy priority m) := by
  unfold start
  refine safe_insertWith _ (hm.setThread ?_)
  exact h

/-- A thread starts with the parameters of another. -/
theorem safe_start_as (hm : InRange m) (mth : Nat) :
    Safe (start t (m.threads mth).schedPolicy (m.threads mth).schedPriority m) :=
  safe_start hm (hm mth)

theorem safe_processCreatePriority (pages : Pages) (frame : Trapframe) (hm : InRange m) :
    Safe (processCreatePriority pages frame m) := by
  refine (safe_mainThreadAlloc pages 0 hm).bind ?_
  rintro ⟨res, m₁⟩ hm₁
  cases res with
  | inl e => exact .ok hm₁
  | inr t =>
    exact safe_start (hm₁.keep rfl rfl) ⟨.inl rfl, by decide⟩

theorem safe_forkSlot (p c i : Nat) (hm : InRange m) : Safe (forkSlot p c m i) := by
  unfold forkSlot
  split
  · exact .ok hm
  · refine Outcome.map (Q := InRange) ?_ fun m₁ hm₁ => hm₁
    unfold filedup
    split
    · exact .error id
    · exact .ok hm

theorem myThread_error {e : Halt} (h : myThread m = .error e) : ¬ e.OutOfRange := by
  unfold myThread at h
  split at h
  · cases h
    exact id
  · split at h
    · cases h
      exact id
    · cases h

/-- A call that asks for the running thread first. -/
theorem safe_myThread {α : Type} {Q : α → Prop} {f : Nat × Nat → Except Halt α}
    (h : ∀ s, Outcome (fun e : Halt => ¬ e.OutOfRange) Q (f s)) :
    Outcome (fun e : Halt => ¬ e.OutOfRange) Q (myThread m >>= f) := by
  refine Outcome.bind (Q := fun _ => True) ?_ fun s _ => h s
  cases hmy : myThread m with
  | error e => exact .error (myThread_error hmy)
  | ok s => exact .ok trivial

theorem safe_processFork (pages : Pages) (hm : InRange m) :
    Outcome (fun e : Halt => ¬ e.OutOfRange) (fun s : Int × Machine => InRange s.2) (processFork pages m) := by
  unfold processFork
  generalize List.range Files.NOFILE = slots
  refine safe_myThread fun ⟨mth, myprocess⟩ => ?_
  refine (safe_mainThreadAlloc pages _ hm).bind ?_
  rintro ⟨res, m₁⟩ hm₁
  cases res with
  | inl e => exact .ok hm₁
  | inr t =>
    dsimp only
    split
    · exact .error id
    · rename_i c _
      have hslots : Safe (slots.foldlM (forkSlot myprocess c) m₁) :=
        outcome_foldlM slots hm₁ fun m₂ i hm₂ => safe_forkSlot myprocess c i hm₂
      refine hslots.bind fun m₂ hm₂ => ?_
      refine Outcome.bind (Q := InRange) ?_ fun m₃ hm₃ => .ok hm₃
      refine safe_start_as ?_ mth
      exact hm₂.keep rfl rfl

theorem safe_threadFork (pages : Pages) (stackVa tls ctid : Nat) (hm : InRange m) :
    Outcome (fun e : Halt => ¬ e.OutOfRange) (fun s : Int × Machine => InRange s.2) (threadFork pages stackVa tls ctid m) := by
  refine safe_myThread fun ⟨mth, current⟩ => ?_
  refine (safe_threadAlloc pages _ _ hm).bind ?_
  rintro ⟨res, m₁⟩ hm₁
  cases res with
  | inl e => exact .ok hm₁
  | inr t =>
    refine Outcome.bind (Q := InRange) ?_ fun m₃ hm₃ => .ok hm₃
    refine safe_start_as ?_ mth
    exact hm₁.keep rfl rfl

theorem safe_clone (pages : Pages) (flags stackVa tls ctid : Nat) (hm : InRange m) :
    Outcome (fun e : Halt => ¬ e.OutOfRange) (fun s : Int × Machine => InRange s.2) (clone pages flags stackVa tls ctid m) := by
  unfold clone
  split
  · exact safe_threadFork pages stackVa tls ctid hm
  · exact safe_processFork pages hm

/-! ## The other calls -/

/-- `schedSetscheduler` keeps the parameters in range. -/
theorem safe_schedSetscheduler {pid : Nat} {policy priority : Int} (hm : InRange m)
    (hfits : (Op.setscheduler pid policy priority).Fits m) :
    Outcome (fun e : Halt => ¬ e.OutOfRange) (fun s : Int × Machine => InRange s.2) (schedSetscheduler pid policy priority m) := by
  unfold schedSetscheduler
  cases hth : tid2Thread (pid % 2 ^ 32) m with
  | error e =>
    refine .error ?_
    unfold tid2Thread at hth
    split at hth
    · split at hth
      · cases hth
        exact id
      · cases hth
    · dsimp only at hth
      split at hth <;> cases hth
  | ok th =>
    cases th with
    | none => exact .ok hm
    | some t =>
      rw [ok_bind]
      dsimp only
      by_cases hother : policy = SCHED_OTHER ∧ priority ≠ 0
      · rw [if_pos hother]
        exact .ok hm
      · rw [if_neg hother]
        rcases hfits with hnone | hrefused | ⟨hpol, hlow, hhigh⟩
        · rw [hth] at hnone
          cases hnone
        · exact absurd hrefused hother
        · have hm₁ : InRange (m.setThread t { m.threads t with schedPolicy := policy, schedPriority := priority }) := by
            refine hm.setThread ⟨hpol, ?_⟩
            show 0 ≤ 99 - priority ∧ 99 - priority < PRI_COUNT
            unfold PRI_MAX PRI_MIN at hlow
            unfold PRI_COUNT
            omega
          split
          · refine (safe_remove hm₁).bind fun m₂ hm₂ => ?_
            exact Outcome.bind (safe_insertWith _ hm₂) fun m₃ hm₃ => .ok hm₃
          · exact .ok hm₁

theorem safe_destroy (clock : List Nat) (hm : InRange m) : Safe (destroy t clock m) := by
  refine (safe_threadDestroy hm).bind ?_
  rintro ⟨own, m₁⟩ hm₁
  cases own with
  | true => exact safe_callYield clock hm₁
  | false => exact .ok hm₁

theorem safe_sleep (channel : Chan) (clock : List Nat) (hm : InRange m) : Safe (sleep channel clock m) := by
  refine safe_myThread fun ⟨t, _⟩ => ?_
  dsimp only
  split
  · exact safe_destroy clock (hm.keep rfl rfl)
  · exact safe_callYield clock (hm.keep rfl rfl)

theorem safe_resume (clock : List Nat) (hm : InRange m) : Safe (resume clock m) := by
  refine safe_myThread fun ⟨t, _⟩ => ?_
  dsimp only
  split
  · exact safe_destroy clock (hm.keep rfl rfl)
  · exact .ok (hm.keep rfl rfl)

theorem safe_futexWait (addr : Nat) (ts : Option Nat) (clock : List Nat) (hm : InRange m) :
    Safe (futexWait addr ts clock m) := by
  refine safe_myThread fun ⟨t, _⟩ => ?_
  dsimp only
  split
  · exact .error id
  · rename_i i _
    have hm₁ : InRange { m with futexQueue := Function.update m.futexQueue i { addr := addr, thread := t, valid := true } } := hm
    cases ts with
    | some time => exact safe_callYield clock (hm₁.keep rfl rfl)
    | none =>
      refine Outcome.bind (Q := InRange) ?_ fun m₂ hm₂ => safe_callYield clock (hm₂.setState _)
      split
      · exact safe_remove hm₁
      · exact .ok hm₁

theorem safe_nanosleep (time : Nat) (clock : List Nat) (hm : InRange m) : Safe (nanosleep time clock m) := by
  refine safe_myThread fun ⟨t, _⟩ => safe_callYield clock ?_
  exact hm.keep rfl rfl

theorem safe_sigkill (hm : InRange m) : Safe (sigkill t m) := by
  refine Outcome.bind (Q := InRange) ?_ fun m₁ hm₁ => .ok (hm₁.keep rfl rfl)
  split
  · exact (woken_enqueue ‹_›).safe hm
  · exact .ok hm

theorem safe_exit (ec : Nat) (clock : List Nat) (hm : InRange m) : Safe (exit ec clock m) := by
  exact safe_myThread fun ⟨t, _⟩ => safe_destroy clock (hm.keep rfl rfl)

/-- **One call.** Parameters in range stay in range, and nothing goes wrong for want of a list or a policy. -/
theorem safe_exec {op : Op} (hm : InRange m) (hfits : op.Fits m) : Safe (exec op m) := by
  cases op with
  | create pages frame => exact safe_processCreatePriority pages frame hm
  | clone pages flags stackVa tls ctid => exact (safe_clone pages flags stackVa tls ctid hm).map fun _ h => h
  | setscheduler pid policy priority => exact (safe_schedSetscheduler hm hfits).map fun _ h => h
  | callYield clock => exact safe_callYield clock hm
  | timeYield clock => exact safe_timeYield clock hm
  | sleep channel clock => exact safe_sleep channel clock hm
  | resume clock => exact safe_resume clock hm
  | wakeup channel => exact (woken_wakeup channel).safe hm
  | futexWait addr ts clock => exact safe_futexWait addr ts clock hm
  | futexWake addr n => exact (woken_futexWake addr n).safe hm
  | futexRequeue addr n newAddr => exact Outcome.map ((woken_futexWake addr n).safe hm) fun _ h => h
  | nanosleep time clock => exact safe_nanosleep time clock hm
  | sigkill t => exact safe_sigkill hm
  | exit ec clock => exact safe_exit ec clock hm
  | reap c => exact .ok hm

end Safe

/-! ## Runs -/

theorem inRange_boot : InRange boot := fun t => by
  refine ⟨.inl rfl, ?_⟩
  show 0 ≤ (99 - 0 : Int) ∧ (99 - 0 : Int) < PRI_COUNT
  decide

theorem inRange_of_reach {m : Machine} (h : Reach (· = boot) (Step Op.Fits) m) : InRange m := by
  refine h.invariant (fun m hm => hm ▸ inRange_boot) fun m m' hm hstep => ?_
  obtain ⟨op, hfits, hok⟩ := hstep
  exact (safe_exec hm hfits).of_ok hok

/-- **Parameters stay valid** in every run whose calls of `sched_setscheduler` fit: every thread has a policy
the scheduler knows and a list, and the next call meets neither a missing list nor an unknown policy. -/
theorem params_valid {m : Machine} (h : Reach (· = boot) (Step Op.Fits) m) :
    (∀ t ∈ m.usedThreads, (m.threads t).InRange) ∧
      ∀ op : Op, op.Fits m → ∀ e, exec op m = .error e → ¬ e.OutOfRange := by
  have hm := inRange_of_reach h
  exact ⟨fun t _ => hm t, fun op hfits e he => (safe_exec hm hfits).of_error he⟩

/-- The calls `ops`, one after the other. -/
def execAll (ops : List Op) (m : Machine) : Except Halt Machine := ops.foldlM (fun m op => exec op m) m

theorem reach_execAll {ok : Op → Machine → Prop} {m m' : Machine} {ops : List Op} (h : Reach (· = boot) (Step ok) m)
    (hall : ∀ op ∈ ops, ∀ m, ok op m) (hok : execAll ops m = .ok m') : Reach (· = boot) (Step ok) m' := by
  induction ops generalizing m with
  | nil =>
    cases hok
    exact h
  | cons op ops ih =>
    unfold execAll at hok
    rw [List.foldlM_cons] at hok
    obtain ⟨m₁, h₁, hok⟩ := bind_ok hok
    exact ih (h.step ⟨op, hall op (List.mem_cons_self ..) m, h₁⟩) (fun o ho => hall o (List.mem_cons_of_mem _ ho)) hok

/-- The first process is made and runs, and sets its own parameters. -/
def settingRun (policy priority : Int) : List Op :=
  [.create ⟨true, true, true⟩ fun _ => 0, .callYield [0], .setscheduler 0 policy priority]

/-- The policy thread 0 has at the end, with the threads in use. -/
def settingEnd (policy priority : Int) : Option (List Nat × Int) :=
  (execAll (settingRun policy priority) boot).toOption.map fun m => (m.usedThreads, (m.threads 0).schedPolicy)

theorem settingEnd_ok {policy priority : Int} {r : List Nat × Int} (h : settingEnd policy priority = some r) :
    ∃ m, execAll (settingRun policy priority) boot = .ok m ∧ m.usedThreads = r.1 ∧ (m.threads 0).schedPolicy = r.2 := by
  unfold settingEnd at h
  cases hok : execAll (settingRun policy priority) boot with
  | error e =>
    rw [hok] at h
    cases h
  | ok m =>
    rw [hok] at h
    cases h
    exact ⟨m, rfl, rfl, rfl⟩

/-- A thread set to `SCHED_FIFO` with priority 50. -/
theorem params_valid_fifo : ∃ m, Reach (· = boot) (Step Op.Fits) m ∧ 0 ∈ m.usedThreads ∧ (m.threads 0).InRange := by
  obtain ⟨m, hok, hused, -⟩ := settingEnd_ok (show settingEnd 1 50 = some ([0], 1) by decide +kernel)
  have hreach : Reach (· = boot) (Step Op.Fits) m := by
    refine reach_execAll (.init rfl) (fun op hop m => ?_) hok
    simp only [settingRun, List.mem_cons, List.not_mem_nil, or_false] at hop
    rcases hop with rfl | rfl | rfl
    · exact trivial
    · exact trivial
    · exact .inr (.inr ⟨.inr rfl, by decide, by decide⟩)
  have hmem : 0 ∈ m.usedThreads := by
    rw [hused]
    exact List.mem_cons_self ..
  exact ⟨m, hreach, hmem, (params_valid hreach).1 0 hmem⟩

/-- Policy 5 with priority 200 is let through. -/
theorem setscheduler_out_of_range :
    ∃ m, Reach (· = boot) (Step fun _ _ => True) m ∧ 0 ∈ m.usedThreads ∧ ¬ (m.threads 0).InRange := by
  obtain ⟨m, hok, hused, hpol⟩ := settingEnd_ok (show settingEnd 5 200 = some ([0], 5) by decide +kernel)
  refine ⟨m, reach_execAll (.init rfl) (fun _ _ _ => trivial) hok, ?_, fun hr => ?_⟩
  · rw [hused]
    exact List.mem_cons_self ..
  · rcases hr.1 with h | h
    · rw [hpol] at h
      cases h
    · rw [hpol] at h
      cases h

end Exaros.Sched
