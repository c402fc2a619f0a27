import Exaros.Process.Moves

/-!
# Timed waits

A thread that waits on a futex with a timeout stays `RUNNABLE` and in its list, with the timeout in
`awakeTime`, where the scheduler looks for a moment of the clock. `Timeline` runs the machine against a
clock and remembers, for the statements alone, which threads are in a timed wait: until when, and whether a
wake has ended it. No call but a dispatch makes a thread `RUNNING`, and none but its own changes the
`awakeTime` of a thread to anything but 0 (`Calm`).

**What it does not establish.** How soon after its deadline a thread runs.
-/

namespace Exaros.Sched

open Loop Run
open Function (update update_self update_of_ne)

/-- What `r_time` adds to the time counter. -/
def R_TIME_BASE : Nat := 1 <<< 35

/-- The readings of the clock that the passes of a call take. -/
def Op.clock : Op → List Nat
  | .callYield clock | .timeYield clock | .sleep _ clock | .resume clock | .futexWait _ _ clock | .nanosleep _ clock
  | .exit _ clock => clock
  | _ => []

/-- Some thread runs. -/
def Machine.busy (m : Machine) : Prop := ∃ t, m.currentThread = some t ∧ (m.threads t).state = .running

/-- Who calls: the first process is made at boot, an interrupt may wake sleepers, and the rest is for threads. -/
def Op.Called (op : Op) (m : Machine) : Prop :=
  match op with
  | .create _ _ | .wakeup _ => True
  | _ => m.busy

/-- A timed wait. -/
structure Wait where
  deadline : Nat
  woken : Bool

structure Timeline where
  machine : Machine
  clock : Nat
  /-- The timed wait a thread is in, or was woken from and has not run since. -/
  waits : Nat → Option Wait

/-- Whether an entry of the thread was taken out between `m` and `m'`. -/
def takenOut (m m' : Machine) (t : Nat) : Bool :=
  (List.range FUTEX_COUNT).any fun i => (m.futexQueue i).valid ∧ (m.futexQueue i).thread = t ∧ (m'.futexQueue i).valid = false

namespace Timeline

/-- The timed waits after a step of the machine to `m'`: wakes are noted, and the dead forgotten. -/
def follow (w : Timeline) (m' : Machine) (t : Nat) : Option Wait :=
  if t ∈ m'.usedThreads then (w.waits t).map fun x => { x with woken := x.woken || takenOut w.machine m' t } else none

/-- The timed waits after a call. -/
def after (w : Timeline) (op : Op) (m' : Machine) : Nat → Option Wait :=
  match op, w.machine.currentThread with
  | .futexWait _ (some time) _, some t => update (w.follow m') t (some ⟨w.clock + time, false⟩)
  | _, _ => w.follow m'

/-- A call, the clock going on, or a pass of `fifoSched` at the hour. -/
inductive Step (ok : Op → Timeline → Prop) : Timeline → Timeline → Prop
  | call {w : Timeline} {m' : Machine} (op : Op) : op.clock = [] → op.Called w.machine → ok op w →
      exec op w.machine = .ok m' → Step ok w { w with machine := m', waits := w.after op m' }
  | tick {w : Timeline} {now : Nat} : w.clock ≤ now → Step ok w { w with clock := now }
  | look {w : Timeline} {m' : Machine} {r : Pass} : ¬ w.machine.busy → pass w.clock w.machine = .ok (r, m') →
      (∀ t, r ≠ .picked t) → Step ok w { w with machine := m', waits := w.follow m' }
  | select {w : Timeline} {m₁ m' : Machine} {t : Nat} : ¬ w.machine.busy → pass w.clock w.machine = .ok (.picked t, m₁) →
      dispatch t m₁ = .ok m' → Step ok w { w with machine := m', waits := update (w.follow m₁) t none }

/-- The machine just booted. -/
def Start (w : Timeline) : Prop := w.machine = boot ∧ R_TIME_BASE ≤ w.clock ∧ ∀ t, w.waits t = none

/-- Nobody is selected out of a timed wait before its time, and a wake leaves nobody to sleep on. -/
structure Timely (w : Timeline) : Prop where
  selected : ∀ t m', pass w.clock w.machine = .ok (.picked t, m') →
    ∀ x, w.follow m' t = some x → x.woken = false → x.deadline ≤ w.clock
  woken : ∀ t x, w.waits t = some x → x.woken = true → (w.machine.threads t).awakeTime ≤ w.clock

/-- A wait for no time. -/
def Meets (op : Op) (_ : Timeline) : Prop := ∀ addr time clock, op = .futexWait addr (some time) clock → time = 0

end Timeline

/-! ## Threads that are left alone -/

/-- Nobody begins to run, and every `awakeTime` stays or is reset. -/
structure Calm (m m' : Machine) : Prop where
  running : ∀ t, (m'.threads t).state = .running → (m.threads t).state = .running
  awakeTime : ∀ t, (m'.threads t).awakeTime = (m.threads t).awakeTime ∨ (m'.threads t).awakeTime = 0

section Calm

variable {m m₁ m' : Machine} {t u : Nat} {th : Thread} {pages : Pages} {r : Int ⊕ Nat}

theorem Calm.refl (m : Machine) : Calm m m := ⟨fun _ h => h, fun _ => .inl rfl⟩

theorem Calm.trans (h : Calm m m₁) (h' : Calm m₁ m') : Calm m m' where
  running := fun t ht => h.running t (h'.running t ht)
  awakeTime := fun t => by
    rcases h'.awakeTime t with hs | hz
    · rw [hs]
      exact h.awakeTime t
    · exact .inr hz

theorem Calm.of_threads (h : m'.threads = m.threads) : Calm m m' :=
  ⟨fun t ht => by rw [← h]; exact ht, fun t => .inl (by rw [h])⟩

theorem Wakes.calm (h : Wakes m m') : Calm m m' := ⟨fun _ => h.running, fun t => .inl (h.awakeTime t)⟩

theorem setThread_self (m : Machine) (t : Nat) (th : Thread) : (m.setThread t th).threads t = th := update_self ..

theorem setThread_of_ne (m : Machine) (th : Thread) (h : u ≠ t) : (m.setThread t th).threads u = m.threads u :=
  update_of_ne h ..

theorem calm_setThread (hrun : th.state = .running → (m.threads t).state = .running)
    (htime : th.awakeTime = (m.threads t).awakeTime ∨ th.awakeTime = 0) : Calm m (m.setThread t th) where
  running := fun u hu => by
    by_cases hut : u = t
    · subst hut
      rw [setThread_self] at hu
      exact hrun hu
    · rw [setThread_of_ne m th hut] at hu
      exact hu
  awakeTime := fun u => by
    by_cases hut : u = t
    · subst hut
      rw [setThread_self]
      exact htime
    · rw [setThread_of_ne m th hut]
      exact .inl rfl

theorem calm_setState {state : ProcessState} (h : state ≠ .running) : Calm m (m.setState t state) :=
  calm_setThread (fun hs => absurd hs h) (.inl rfl)

theorem calm_insertWith {f : List Nat → List Nat} (h : insertWith f t m = .ok m') : Calm m m' := by
  obtain ⟨_, -, -, -, rfl⟩ := insertWith_ok h
  exact Calm.of_threads rfl

theorem calm_remove (h : remove t m = .ok m') : Calm m m' := by
  rw [remove_ok h]
  exact Calm.of_threads rfl

theorem calm_threadFree (h : threadFree t m = .ok m') : Calm m m' := by
  obtain ⟨m₁, hw, rfl⟩ := threadFree_spec.of_ok h
  refine hw.calm.trans ?_
  have hunlink : Calm m₁ (if (m₁.threads t).state = .runnable then m₁.unlink t else m₁) := by
    split
    · exact Calm.of_threads rfl
    · exact Calm.refl m₁
  have hretire : ∀ m₀ : Machine, Calm m₀ (retire t m₀) := fun m₀ => by
    have hset : Calm m₀ (m₀.setState t .unused) := calm_setState (by decide)
    exact hset.trans (Calm.of_threads rfl)
  exact hunlink.trans (hretire _)

theorem calm_threadDestroy {own : Bool} (h : threadDestroy t m = .ok (own, m')) : Calm m m' := by
  unfold threadDestroy at h
  obtain ⟨m₁, h₁, heq⟩ := map_ok h
  refine (calm_threadFree h₁).trans (Calm.of_threads ?_)
  split at heq
  · cases heq
    rfl
  · cases heq
    rfl

/-- A pass sets no deadline. -/
theorem calm_scan {now : Nat} {pris : List Nat} {r : Pass} (h : scan now pris m = .ok (r, m')) : Calm m m' := by
  induction pris generalizing m with
  | nil =>
    cases h
    exact Calm.refl _
  | cons pri pris ih =>
    unfold scan at h
    split at h
    · exact ih h
    · split at h
      · obtain ⟨⟨own, m₁⟩, h₁, h⟩ := bind_ok h
        cases own with
        | true =>
          cases h
          exact calm_threadDestroy h₁
        | false => exact (calm_threadDestroy h₁).trans (ih h)
      · split at h
        · obtain ⟨m₁, h₁, h⟩ := bind_ok h
          obtain ⟨m₂, h₂, h⟩ := bind_ok h
          exact (calm_remove h₁).trans ((calm_insertWith h₂).trans (ih h))
        · cases h
          exact Calm.refl _

/-- A yield, with the passes still to come. -/
theorem calm_yieldWith {put : Nat → Machine → Except Halt Machine} (hput : ∀ m t m', put t m = .ok m' → Calm m m')
    (h : yieldWith put [] m = .ok m') : Calm m m' := by
  unfold yieldWith at h
  split at h
  · cases h
    exact Calm.refl _
  · dsimp only at h
    split at h
    · cases h
      exact Calm.refl _
    · split at h
      · obtain ⟨m₁, h₁, h⟩ := bind_ok h
        cases h
        exact (calm_setState (by decide)).trans (hput _ _ _ h₁)
      · split at h
        · obtain ⟨m₁, h₁, h⟩ := bind_ok h
          cases h
          exact (calm_setState (by decide)).trans (calm_insertWith h₁)
        · cases h

theorem calm_callYield (h : callYield [] m = .ok m') : Calm m m' := calm_yieldWith (fun _ _ _ => calm_insertWith) h

theorem calm_destroy (h : destroy t [] m = .ok m') : Calm m m' := by
  unfold destroy at h
  obtain ⟨⟨own, m₁⟩, h₁, h⟩ := bind_ok h
  cases own with
  | true => exact (calm_threadDestroy h₁).trans (calm_callYield h)
  | false =>
    cases h
    exact calm_threadDestroy h₁

/-! ## Calls -/

theorem calm_threadSetup {pages : Bool} (h : threadSetup pages t m = .ok m') : Calm m m' := by
  unfold threadSetup at h
  split at h
  · cases h
    exact calm_setThread (fun hs => by cases hs) (.inr rfl)
  · cases h

theorem calm_takeThread {sp : Nat} {new : Option Nat} (h : takeThread pages sp m = .ok (new, m')) : Calm m m' := by
  unfold takeThread at h
  split at h
  · cases h
    exact Calm.refl _
  · rename_i t rest _
    obtain ⟨m₁, h₁, h⟩ := bind_ok h
    cases h
    have hlists : Calm m { m with freeThreads := rest, usedThreads := t :: m.usedThreads } := Calm.of_threads rfl
    refine hlists.trans ((calm_threadSetup h₁).trans ?_)
    refine Calm.trans (calm_setThread ?_ (.inl ?_)) (Calm.of_threads rfl)
    · exact fun hs => by cases hs
    · rfl

theorem calm_processAlloc {parentId : Nat} (h : processAlloc pages parentId m = .ok (r, m')) :
    Calm m m' := by
  rcases processAlloc_taken h with ⟨-, rfl⟩ | ⟨p, rest, -, -, hm'⟩
  · exact Calm.refl _
  · exact Calm.of_threads (by rw [hm'])

theorem calm_attach (t p : Nat) (m : Machine) : Calm m (attach t p m) := by
  have hset : Calm m (m.setThread t { m.threads t with process := some p }) := calm_setThread id (.inl rfl)
  exact hset.trans (Calm.of_threads rfl)

theorem calm_mainThreadAlloc {parentId : Nat} (h : mainThreadAlloc pages parentId m = .ok (r, m')) : Calm m m' := by
  unfold mainThreadAlloc at h
  obtain ⟨⟨new, m₁⟩, h₁, h⟩ := bind_ok h
  cases new with
  | none =>
    cases h
    exact calm_takeThread h₁
  | some t =>
    obtain ⟨⟨res, m₂⟩, h₂, h⟩ := bind_ok h
    have hm₂ := (calm_takeThread h₁).trans (calm_processAlloc h₂)
    cases res with
    | inl e =>
      cases h
      exact hm₂
    | inr p =>
      cases h
      exact hm₂.trans (calm_attach _ _ _)

theorem calm_threadAlloc {p sp : Nat} (h : threadAlloc pages p sp m = .ok (r, m')) :
    Calm m m' := by
  unfold threadAlloc at h
  obtain ⟨⟨new, m₁⟩, h₁, h⟩ := bind_ok h
  cases new with
  | none =>
    cases h
    exact calm_takeThread h₁
  | some t =>
    cases h
    exact (calm_takeThread h₁).trans (calm_attach _ _ _)

theorem calm_start {policy priority : Int} (h : start t policy priority m = .ok m') : Calm m m' := by
  unfold start insertTail at h
  refine Calm.trans ?_ (calm_insertWith h)
  exact calm_setThread (fun hs => by cases hs) (.inl rfl)

theorem calm_processCreatePriority {frame : Trapframe} (h : processCreatePriority pages frame m = .ok m') :
    Calm m m' := by
  unfold processCreatePriority at h
  obtain ⟨⟨res, m₁⟩, h₁, h⟩ := bind_ok h
  cases res with
  | inl e =>
    cases h
    exact calm_mainThreadAlloc h₁
  | inr t =>
    refine (calm_mainThreadAlloc h₁).trans (Calm.trans ?_ (calm_start h))
    exact calm_setThread id (.inl rfl)

theorem Moves.calm (h : Moves m m') : Calm m m' := by
  induction h with
  | refl => exact Calm.refl m
  | tail _ hmove ih =>
    refine ih.trans ?_
    cases hmove with
    | file => exact Calm.of_threads rfl
    | slots => exact Calm.of_threads rfl
    | ready _ hok =>
      unfold enqueue insertTail at hok
      exact (calm_setState (by decide)).trans (calm_insertWith hok)

theorem calm_processFork {r : Int} (h : processFork pages m = .ok (r, m')) : Calm m m' := by
  unfold processFork at h
  generalize List.range Files.NOFILE = slots at h
  obtain ⟨⟨mth, myprocess⟩, -, h⟩ := bind_ok h
  obtain ⟨⟨res, m₁⟩, h₁, h⟩ := bind_ok h
  cases res with
  | inl e =>
    cases h
    exact calm_mainThreadAlloc h₁
  | inr t =>
    dsimp only at h
    split at h
    · cases h
    · obtain ⟨m₂, h₂, h⟩ := bind_ok h
      obtain ⟨m₃, h₃, h⟩ := bind_ok h
      cases h
      have hslots : Calm m₁ m₂ := foldlM_inv h₂ (Calm.refl m₁) fun _ _ _ hc hs => hc.trans (moves_forkSlot hs).calm
      refine (calm_mainThreadAlloc h₁).trans (hslots.trans (Calm.trans ?_ (calm_start h₃)))
      exact calm_setThread id (.inl rfl)

theorem calm_threadFork {stackVa tls ctid : Nat} {r : Int}
    (h : threadFork pages stackVa tls ctid m = .ok (r, m')) : Calm m m' := by
  unfold threadFork at h
  obtain ⟨⟨mth, current⟩, -, h⟩ := bind_ok h
  obtain ⟨⟨res, m₁⟩, h₁, h⟩ := bind_ok h
  cases res with
  | inl e =>
    cases h
    exact calm_threadAlloc h₁
  | inr t =>
    obtain ⟨m₂, h₂, h⟩ := bind_ok h
    cases h
    refine (calm_threadAlloc h₁).trans (Calm.trans ?_ (calm_start h₂))
    exact calm_setThread id (.inl rfl)

theorem calm_schedSetscheduler {pid : Nat} {policy priority : Int} {r : Int}
    (h : schedSetscheduler pid policy priority m = .ok (r, m')) : Calm m m' := by
  unfold schedSetscheduler at h
  obtain ⟨found, -, h⟩ := bind_ok h
  cases found with
  | none =>
    cases h
    exact Calm.refl _
  | some t =>
    dsimp only at h
    split at h
    · cases h
      exact Calm.refl _
    · have hset : Calm m (m.setThread t { m.threads t with schedPolicy := policy, schedPriority := priority }) :=
        calm_setThread id (.inl rfl)
      split at h
      · obtain ⟨m₁, h₁, h⟩ := bind_ok h
        obtain ⟨m₂, h₂, h⟩ := bind_ok h
        cases h
        exact hset.trans ((calm_remove h₁).trans (calm_insertWith h₂))
      · cases h
        exact hset

theorem calm_sleep {channel : Chan} (h : sleep channel [] m = .ok m') : Calm m m' := by
  unfold sleep at h
  obtain ⟨⟨t, _⟩, -, h⟩ := bind_ok h
  have hset : Calm m (m.setThread t { m.threads t with channel := some channel, state := .sleeping, reason := true }) :=
    calm_setThread (fun hs => by cases hs) (.inl rfl)
  dsimp only at h
  split at h
  · exact hset.trans (calm_destroy h)
  · exact hset.trans (calm_callYield h)

theorem calm_resume (h : resume [] m = .ok m') : Calm m m' := by
  unfold resume at h
  obtain ⟨⟨t, _⟩, -, h⟩ := bind_ok h
  have hset : Calm m (m.setThread t { m.threads t with channel := none }) := calm_setThread id (.inl rfl)
  dsimp only at h
  split at h
  · exact hset.trans (calm_destroy h)
  · cases h
    exact hset

theorem calm_sigkill (h : sigkill t m = .ok m') : Calm m m' := by
  unfold sigkill at h
  obtain ⟨m₁, h₁, h⟩ := bind_ok h
  cases h
  have henq : Calm m m₁ := by
    split at h₁
    · unfold enqueue at h₁
      exact (calm_setState (by decide)).trans (calm_insertWith h₁)
    · cases h₁
      exact Calm.refl _
  refine henq.trans ?_
  exact calm_setThread id (.inl rfl)

theorem calm_exit {ec : Nat} (h : exit ec [] m = .ok m') : Calm m m' := by
  unfold exit at h
  obtain ⟨⟨t, _⟩, -, h⟩ := bind_ok h
  refine Calm.trans ?_ (calm_destroy h)
  exact calm_setThread id (.inl rfl)

/-- A thread that yields does not run on. -/
theorem callYield_not_running (hcur : m.currentThread = some t) (h : callYield [] m = .ok m') :
    (m'.threads t).state ≠ .running := by
  intro hrun
  have hbefore := (calm_callYield h).running t hrun
  unfold callYield yieldWith at h
  rw [hcur] at h
  dsimp only at h
  rw [if_neg (not_not.mpr hbefore)] at h
  have hset : ((m.setState t .runnable).threads t).state = .runnable := by
    unfold Machine.setState
    rw [setThread_self]
  have habsurd : ∀ m₁, insertTail t (m.setState t .runnable) = .ok m₁ → m' = m₁ → False := fun m₁ h₁ heq => by
    subst heq
    have := (calm_insertWith h₁).running t hrun
    rw [hset] at this
    cases this
  split at h
  · obtain ⟨m₁, h₁, h⟩ := bind_ok h
    cases h
    exact habsurd _ h₁ rfl
  · split at h
    · obtain ⟨m₁, h₁, h⟩ := bind_ok h
      cases h
      exact habsurd _ h₁ rfl
    · cases h

theorem myThread_ok {p : Nat} (h : myThread m = .ok (t, p)) : m.currentThread = some t := by
  unfold myThread at h
  split at h
  · cases h
  · split at h
    · cases h
    · cases h
      assumption

theorem calm_futexWait {addr : Nat} (h : futexWait addr none [] m = .ok m') : Calm m m' := by
  unfold futexWait at h
  obtain ⟨⟨t, _⟩, -, h⟩ := bind_ok h
  dsimp only at h
  split at h
  · cases h
  · obtain ⟨m₁, h₁, h⟩ := bind_ok h
    have hout : Calm m m₁ := by
      split at h₁
      · refine Calm.trans ?_ (calm_remove h₁)
        exact Calm.of_threads rfl
      · cases h₁
        exact Calm.of_threads rfl
    exact hout.trans (Calm.trans (calm_setState (by decide)) (calm_callYield h))

/-- A timed wait: the timeout is set, and the thread yields. -/
theorem futexWait_timed {addr time : Nat} (h : futexWait addr (some time) [] m = .ok m') :
    ∃ (t : Nat) (m₁ : Machine), m.currentThread = some t ∧ m₁.threads = m.threads ∧ m₁.currentThread = some t ∧
      callYield [] (m₁.setThread t { m₁.threads t with awakeTime := time }) = .ok m' := by
  unfold futexWait at h
  obtain ⟨⟨t, _⟩, hmy, h⟩ := bind_ok h
  have hcur := myThread_ok hmy
  dsimp only at h
  split at h
  · cases h
  · refine ⟨t, _, hcur, ?_, ?_, h⟩
    · rfl
    · exact hcur

end Calm

/-! ## Waits for no time -/

/-- The threads in a timed wait do not run and have no time to wait for. -/
def Still (waits : Nat → Option Wait) (m : Machine) : Prop :=
  ∀ t x, waits t = some x → (m.threads t).awakeTime = 0 ∧ (m.threads t).state ≠ .running

section Still

variable {m m' : Machine} {waits : Nat → Option Wait} {t : Nat} {w w' : Timeline}

theorem Still.calm (h : Still waits m) (hc : Calm m m') : Still waits m' := fun t x hx => by
  obtain ⟨htime, hstate⟩ := h t x hx
  refine ⟨?_, fun hrun => hstate (hc.running t hrun)⟩
  rcases hc.awakeTime t with hs | hz
  · rw [hs, htime]
  · exact hz

/-- What is done to a thread in no timed wait. -/
theorem Still.setThread (h : Still waits m) (ht : waits t = none) (th : Thread) : Still waits (m.setThread t th) := fun u x hx => by
  have hut : u ≠ t := fun hut => by
    rw [hut, ht] at hx
    cases hx
  rw [setThread_of_ne m th hut]
  exact h u x hx

theorem follow_some {x : Wait} (h : w.follow m' t = some x) : ∃ y, w.waits t = some y ∧ x.deadline = y.deadline := by
  unfold Timeline.follow at h
  split at h
  · obtain ⟨y, hy, rfl⟩ := Option.map_eq_some_iff.mp h
    exact ⟨y, hy, rfl⟩
  · cases h

theorem Still.follow (h : Still w.waits m) : Still (w.follow m') m := fun t x hx => by
  obtain ⟨y, hy, -⟩ := follow_some hx
  exact h t y hy

/-- The state between the calls of a run whose timed waits are for no time. -/
structure Timeline.Inv (w : Timeline) : Prop where
  still : Still w.waits w.machine
  due : ∀ t x, w.waits t = some x → x.deadline ≤ w.clock

/-- The thread that runs is in no timed wait. -/
theorem Still.busy (h : Still waits m) (hb : m.busy) (hcur : m.currentThread = some t) : waits t = none := by
  obtain ⟨u, hu, hrun⟩ := hb
  rw [hcur] at hu
  cases hu
  cases hx : waits t with
  | none => rfl
  | some x => exact absurd hrun (h t x hx).2

theorem Timeline.Inv.timely (h : w.Inv) : w.Timely where
  selected := fun t m' _ x hx _ => by
    obtain ⟨y, hy, heq⟩ := follow_some hx
    rw [heq]
    exact h.due t y hy
  woken := fun t x hx _ => by
    rw [(h.still t x hx).1]
    exact Nat.zero_le _

/-- What a call that is no timed wait leaves of the threads in a timed wait. -/
theorem still_exec {op : Op} (hclock : op.clock = []) (hcalled : op.Called m) (h : Still waits m)
    (hwait : ∀ addr time clock, op ≠ .futexWait addr (some time) clock) (hok : exec op m = .ok m') : Still waits m' := by
  unfold exec at hok
  cases op with
  | create pages frame => exact h.calm (calm_processCreatePriority hok)
  | clone pages flags stackVa tls ctid =>
    obtain ⟨⟨r, m₁⟩, h₁, rfl⟩ := map_ok hok
    unfold clone at h₁
    split at h₁
    · exact h.calm (calm_threadFork h₁)
    · exact h.calm (calm_processFork h₁)
  | setscheduler pid policy priority =>
    obtain ⟨⟨r, m₁⟩, h₁, rfl⟩ := map_ok hok
    exact h.calm (calm_schedSetscheduler h₁)
  | callYield clock =>
    cases (show clock = [] from hclock)
    exact h.calm (calm_callYield hok)
  | timeYield clock =>
    cases (show clock = [] from hclock)
    exact h.calm (calm_yieldWith (fun _ _ _ => calm_insertWith) hok)
  | sleep channel clock =>
    cases (show clock = [] from hclock)
    exact h.calm (calm_sleep hok)
  | resume clock =>
    cases (show clock = [] from hclock)
    exact h.calm (calm_resume hok)
  | wakeup channel => exact h.calm (woken_wakeup channel |>.of_ok hok).calm
  | futexWait addr ts clock =>
    cases (show clock = [] from hclock)
    cases ts with
    | some time => exact absurd rfl (hwait addr time [])
    | none => exact h.calm (calm_futexWait hok)
  | futexWake addr n => exact h.calm (woken_futexWake addr n |>.of_ok hok).calm
  | futexRequeue addr n newAddr =>
    obtain ⟨m₁, h₁, rfl⟩ := map_ok hok
    exact h.calm (Calm.trans (woken_futexWake addr n |>.of_ok h₁).calm (Calm.of_threads rfl))
  | nanosleep time clock =>
    cases (show clock = [] from hclock)
    obtain ⟨⟨t, p⟩, hmy, hok⟩ := bind_ok hok
    refine Still.calm ?_ (calm_callYield hok)
    exact h.setThread (h.busy hcalled (myThread_ok hmy)) _
  | sigkill t => exact h.calm (calm_sigkill hok)
  | exit ec clock =>
    cases (show clock = [] from hclock)
    exact h.calm (calm_exit hok)
  | reap c =>
    cases hok
    exact h.calm (Calm.of_threads rfl)

/-- A dispatch leaves the other threads as they are. -/
theorem dispatch_threads (h : dispatch t m = .ok m') {u : Nat} (hu : u ≠ t) :
    (m'.threads u).awakeTime = (m.threads u).awakeTime ∧ (m'.threads u).state = (m.threads u).state := by
  unfold dispatch at h
  obtain ⟨m₁, h₁, h⟩ := bind_ok h
  have hm₁ : m₁.threads = m.threads := by
    unfold remove at h₁
    split at h₁
    · cases h₁
      rfl
    · cases h₁
  rw [← hm₁]
  cases h
  have hrun : ∀ m₀ : Machine, ((threadRun t m₀).threads u).awakeTime = (m₀.threads u).awakeTime ∧
      ((threadRun t m₀).threads u).state = (m₀.threads u).state := fun m₀ => by
    unfold threadRun
    cases m₀.currentThread with
    | none =>
      have hsame := setThread_of_ne m₀ { m₀.threads t with state := .running, reason := false } hu
      exact ⟨congrArg Thread.awakeTime hsame, congrArg Thread.state hsame⟩
    | some c =>
      have hsaved : ∀ frame, ((m₀.setThread c { m₀.threads c with trapframe := frame }).threads u).awakeTime = (m₀.threads u).awakeTime ∧
          ((m₀.setThread c { m₀.threads c with trapframe := frame }).threads u).state = (m₀.threads u).state := fun frame => by
        by_cases huc : u = c
        · rw [huc, setThread_self]
          exact ⟨rfl, rfl⟩
        · rw [setThread_of_ne m₀ _ huc]
          exact ⟨rfl, rfl⟩
      obtain ⟨htime, hstate⟩ := hsaved m₀.hart
      rw [← htime, ← hstate]
      have hsame := fun th => setThread_of_ne (m₀.setThread c { m₀.threads c with trapframe := m₀.hart }) th hu
      exact ⟨congrArg Thread.awakeTime (hsame _), congrArg Thread.state (hsame _)⟩
  obtain ⟨htime, hstate⟩ := hrun (futexClear t _)
  rw [htime, hstate]
  show (Machine.threads (if (m₁.threads t).awakeTime > 0 then _ else m₁) u).awakeTime = _ ∧
    (Machine.threads (if (m₁.threads t).awakeTime > 0 then _ else m₁) u).state = _
  split
  · have hsame : (m₁.setThread t { m₁.threads t with awakeTime := 0 }).threads u = m₁.threads u := setThread_of_ne m₁ _ hu
    exact ⟨congrArg Thread.awakeTime hsame, congrArg Thread.state hsame⟩
  · exact ⟨rfl, rfl⟩

/-- **A step keeps** the state of the timed waits. -/
theorem Timeline.Inv.step (h : w.Inv) (hstep : Timeline.Step Timeline.Meets w w') : w'.Inv := by
  have hdue : ∀ m' t x, w.follow m' t = some x → x.deadline ≤ w.clock := fun m' t x hx => by
    obtain ⟨y, hy, heq⟩ := follow_some hx
    rw [heq]
    exact h.due t y hy
  cases hstep with
  | call op hclock hcalled hmeets hok =>
    rename_i m'
    by_cases hwait : ∃ addr time clock, op = .futexWait addr (some time) clock
    · obtain ⟨addr, time, clock, rfl⟩ := hwait
      cases (show clock = [] from hclock)
      cases hmeets addr time [] rfl
      obtain ⟨t, m₁, hcur, hthreads, hcur₁, hyield⟩ := futexWait_timed hok
      have hafter : w.after (.futexWait addr (some 0) []) m' = update (w.follow m') t (some ⟨w.clock + 0, false⟩) := by
        unfold Timeline.after
        rw [hcur]
      have hset : Still w.waits (m₁.setThread t { m₁.threads t with awakeTime := 0 }) := by
        refine Still.setThread (fun u x hx => ?_) (h.still.busy hcalled hcur) _
        rw [hthreads]
        exact h.still u x hx
      have hcalm := calm_callYield hyield
      have hnot := callYield_not_running (show (m₁.setThread t _).currentThread = some t from hcur₁) hyield
      refine ⟨show Still (w.after _ m') m' from ?_, show ∀ u x, w.after _ m' u = some x → x.deadline ≤ w.clock from ?_⟩
      · rw [hafter]
        intro u x hx
        by_cases hut : u = t
        · subst hut
          refine ⟨?_, hnot⟩
          rcases hcalm.awakeTime u with hs | hz
          · rw [hs, setThread_self]
          · exact hz
        · rw [update_of_ne hut] at hx
          exact (hset.calm hcalm).follow u x hx
      · rw [hafter]
        intro u x hx
        by_cases hut : u = t
        · subst hut
          rw [update_self] at hx
          cases hx
          exact Nat.le_refl _
        · rw [update_of_ne hut] at hx
          exact hdue m' u x hx
    · have hafter : w.after op m' = w.follow m' := by
        unfold Timeline.after
        split
        · exact absurd ⟨_, _, _, rfl⟩ hwait
        · rfl
      have hstill := still_exec hclock hcalled h.still (fun addr time clock heq => hwait ⟨addr, time, clock, heq⟩) hok
      refine ⟨?_, ?_⟩
      · show Still (w.after op m') m'
        rw [hafter]
        exact hstill.follow
      · show ∀ t x, w.after op m' t = some x → _
        rw [hafter]
        exact hdue m'
  | tick hle => exact ⟨h.still, fun t x hx => Nat.le_trans (h.due t x hx) hle⟩
  | look _ hpass _ => exact ⟨(h.still.calm (calm_scan hpass)).follow, hdue _⟩
  | select hidle hpass hdispatch =>
    rename_i m₁ m' t
    have hstill : Still (w.follow m₁) m₁ := (h.still.calm (calm_scan hpass)).follow
    refine ⟨show Still (update (w.follow m₁) t none) m' from fun u x hx => ?_,
      show ∀ u x, update (w.follow m₁) t none u = some x → x.deadline ≤ w.clock from fun u x hx => ?_⟩
    · by_cases hut : u = t
      · subst hut
        rw [update_self] at hx
        cases hx
      · rw [update_of_ne hut] at hx
        obtain ⟨htime, hstate⟩ := dispatch_threads hdispatch hut
        rw [htime, hstate]
        exact hstill u x hx
    · by_cases hut : u = t
      · subst hut
        rw [update_self] at hx
        cases hx
      · rw [update_of_ne hut] at hx
        exact hdue m₁ u x hx

/-- **Timed waits.** In every run whose timed waits are for no time, nobody is selected out of one too early, and
who was woken from one has nothing to wait for. -/
theorem timely_of_reach (h : Reach Timeline.Start (Timeline.Step Timeline.Meets) w) : w.Timely := by
  refine Timeline.Inv.timely (h.invariant (fun w hw => ?_) fun _ _ hi hs => hi.step hs)
  obtain ⟨-, -, hnone⟩ := hw
  have hempty : ∀ t x, w.waits t ≠ some x := fun t x hx => by
    rw [hnone] at hx
    cases hx
  exact ⟨fun t x hx => absurd hx (hempty t x), fun t x hx => absurd hx (hempty t x)⟩

end Still

/-! ## A timeout that is over at once -/

/-- The first process waits at 0x1000 for `time` microseconds, and the scheduler takes its next look. -/
def timedRun (time : Nat) : Except Halt ((Machine × Machine) × (Pass × Machine) × Machine × Pass × Machine) := do
  let m₁ ← processCreatePriority ⟨true, true, true⟩ (fun _ => 0) boot
  let s₂ ← pass R_TIME_BASE m₁
  let m₃ ← dispatch 0 s₂.2
  let m₄ ← futexWait 0x1000 (some time) [] m₃
  let s₅ ← pass R_TIME_BASE m₄
  return ((m₁, m₃), s₂, m₄, s₅)

/-- The thread is selected, waits, and is selected again out of its wait. -/
def timedAgain (time : Nat) : Option Bool :=
  (timedRun time).toOption.map fun s => decide (s.1.1.currentThread = none ∧ s.2.1.1 = .picked 0 ∧
    s.1.2.currentThread = some 0 ∧ (s.1.2.threads 0).state = .running ∧ (s.2.2.1.threads 0).state = .runnable ∧
    s.2.2.1.currentThread = some 0 ∧ s.2.2.2.1 = .picked 0 ∧ 0 ∈ s.2.2.2.2.usedThreads ∧
    takenOut s.2.2.1 s.2.2.2.2 0 = false)

/-- The timeline of `timedRun` when the thread waits. -/
theorem timedAgain_reach {time : Nat} (ok : Op → Timeline → Prop) (hcreate : ∀ w, ok (.create ⟨true, true, true⟩ fun _ => 0) w)
    (hwait : ∀ w, ok (.futexWait 0x1000 (some time) []) w) (hrun : timedAgain time = some true) :
    ∃ w m', Reach Timeline.Start (Timeline.Step ok) w ∧ w.clock = R_TIME_BASE ∧ ¬ w.machine.busy ∧
      w.waits 0 = some ⟨R_TIME_BASE + time, false⟩ ∧ pass w.clock w.machine = .ok (.picked 0, m') ∧
      w.follow m' 0 = some ⟨R_TIME_BASE + time, false⟩ := by
  obtain ⟨⟨⟨m₁, m₃⟩, ⟨r₂, m₂⟩, m₄, r₅, m₅⟩, hok, hlook⟩ := exists_of_toOption hrun
  unfold timedRun at hok
  obtain ⟨_, h₁, hok⟩ := bind_ok hok
  obtain ⟨_, h₂, hok⟩ := bind_ok hok
  obtain ⟨_, h₃, hok⟩ := bind_ok hok
  obtain ⟨_, h₄, hok⟩ := bind_ok hok
  obtain ⟨_, h₅, hok⟩ := bind_ok hok
  cases hok
  obtain ⟨hnone, hpick, hcur, hstate, hready, hcur₄, hagain, hused, hout⟩ := of_decide_eq_true hlook
  subst hpick hagain
  have hidle : ¬ m₁.busy := fun ⟨t, ht, _⟩ => by
    rw [hnone] at ht
    cases ht
  have hstart : Reach Timeline.Start (Timeline.Step ok) ⟨boot, R_TIME_BASE, fun _ => none⟩ :=
    .init ⟨rfl, Nat.le_refl _, fun _ => rfl⟩
  have hcreated := hstart.step (.call (.create ⟨true, true, true⟩ fun _ => 0) rfl trivial (hcreate _) h₁)
  have hselected := hcreated.step (.select hidle h₂ h₃)
  have hwaits := hselected.step (.call (.futexWait 0x1000 (some time) []) rfl ⟨0, hcur, hstate⟩ (hwait _) h₄)
  have hwait₀ : ∀ w : Timeline, w.machine = m₃ → w.clock = R_TIME_BASE →
      w.after (.futexWait 0x1000 (some time) []) m₄ 0 = some ⟨R_TIME_BASE + time, false⟩ := fun w hw hclock => by
    unfold Timeline.after
    rw [hw, hcur, hclock]
    exact update_self ..
  refine ⟨_, m₅, hwaits, rfl, fun ⟨t, ht, hrun⟩ => ?_, hwait₀ _ rfl rfl, h₅, ?_⟩
  · rw [show t = 0 from Option.some.inj (ht.symm.trans hcur₄)] at hrun
    rw [show (m₄.threads 0).state = .running from hrun] at hready
    cases hready
  · unfold Timeline.follow
    rw [if_pos hused, show takenOut m₄ m₅ 0 = false from hout]
    show Option.map _ (Timeline.after _ _ _ _) = _
    rw [hwait₀ _ rfl rfl]
    rfl

/-- A wait for no time is over at once, as it should be. -/
theorem timely_no_time : ∃ w, Reach Timeline.Start (Timeline.Step Timeline.Meets) w ∧
    w.waits 0 = some ⟨R_TIME_BASE, false⟩ ∧ w.Timely := by
  obtain ⟨w, -, hreach, -, -, hwaits, -⟩ := timedAgain_reach Timeline.Meets
    (fun _ _ _ _ h => by cases h) (fun _ _ _ _ h => by cases h; rfl) (show timedAgain 0 = some true by decide +kernel)
  exact ⟨w, hreach, hwaits, timely_of_reach hreach⟩

/-- A wait for a second is over at once too: the clock is past every timeout. -/
theorem timed_too_early : ∃ w, Reach Timeline.Start (Timeline.Step fun _ _ => True) w ∧ ¬ w.machine.busy ∧ ¬ w.Timely := by
  obtain ⟨w, m', hreach, hclock, hidle, -, hpass, hfollow⟩ := timedAgain_reach (fun _ _ => True)
    (fun _ => trivial) (fun _ => trivial) (show timedAgain 1000000 = some true by decide +kernel)
  refine ⟨w, hreach, hidle, fun h => ?_⟩
  have := h.selected 0 m' hpass _ hfollow rfl
  rw [hclock] at this
  exact absurd this (by decide)

end Exaros.Sched
