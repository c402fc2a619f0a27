import Exaros.Lib.Generations
import Exaros.Process.Members

/-!
# Process and thread ids

`generateProcessId` and `generateThreadId` count up and append the slot, `pid2Process` and `tid2Thread` cut the slot
out again. The steps are the functions that make and end threads and processes; `rest` is what the kernel does in
between, which writes no id and leaves `UNUSED` slots `UNUSED`. The ids of what has ended are kept for the statements.
-/

namespace Exaros.Sched

open Loop Run Generations
open Files (PROCESS_TOTAL_NUMBER)
open Function (update update_self update_of_ne update_idem)

/-- Ids stay, the slots that are taken, and the lists of slots. -/
structure Retains (m m' : Machine) : Prop where
  freeThreads : m'.freeThreads = m.freeThreads
  freeProcesses : m'.freeProcesses = m.freeProcesses
  nextThreadId : m'.nextThreadId = m.nextThreadId
  nextProcessId : m'.nextProcessId = m.nextProcessId
  threadId : ∀ t, (m'.threads t).threadId = (m.threads t).threadId
  thread : ∀ t, (m'.threads t).state = .unused ↔ (m.threads t).state = .unused
  processId : ∀ p, (m'.procs p).processId = (m.procs p).processId
  proc : ∀ p, (m'.procs p).state = .unused ↔ (m.procs p).state = .unused

structure Named where
  machine : Machine
  /-- the ids of threads and processes whose slot has been given back -/
  goneThreads : List Nat
  goneProcesses : List Nat

inductive IdOp
  | mainThreadAlloc (pages : Pages) (parentId : Nat)
  | threadAlloc (pages : Pages) (p userSp : Nat)
  | threadFree (t : Nat)
  | reap (c : Nat)
  | futexWake (addr : Nat) (n : Int)
  | rest (m : Machine)

namespace Named

def exec (w : Named) : IdOp → Except Halt Named
  | .mainThreadAlloc pages parentId => (Sched.mainThreadAlloc pages parentId w.machine).map fun r => { w with machine := r.2 }
  | .threadAlloc pages p userSp => (Sched.threadAlloc pages p userSp w.machine).map fun r => { w with machine := r.2 }
  | .threadFree t => (Sched.threadFree t w.machine).map fun m =>
      { w with machine := m, goneThreads := (w.machine.threads t).threadId :: w.goneThreads }
  | .reap c => .ok { w with
      machine := Sched.reap c w.machine
      goneProcesses := (w.machine.procs c).processId :: w.goneProcesses }
  | .futexWake addr n => (Sched.futexWake addr n w.machine).map fun m => { w with machine := m }
  | .rest m => .ok { w with machine := m }

/-- A thread ends once, and `wait` takes zombies. -/
def Enabled (w : Named) : IdOp → Prop
  | .threadFree t => t < PROCESS_TOTAL_NUMBER ∧ (w.machine.threads t).state ≠ .unused
  | .reap c => c < PROCESS_TOTAL_NUMBER ∧ (w.machine.procs c).state = .zombie
  | .rest m => Retains w.machine m
  | _ => True

/-- The next thread, if there is a free slot, is one of the first `2 ^ 20 - 1`. -/
def ThreadLeft (m : Machine) : Prop := m.freeThreads ≠ [] → m.nextThreadId + 1 < 2 ^ 20

/-- The next process likewise. -/
def ProcessLeft (pages : Pages) (m : Machine) : Prop :=
  m.freeThreads ≠ [] → m.freeProcesses ≠ [] → pages.signal = true → m.nextProcessId + 1 < 2 ^ 20

/-- A wake finds no thread that has ended. -/
def WakesLive (addr : Nat) (n : Int) (m : Machine) : Prop :=
  ∀ i ∈ served n (m.entriesFor addr), (m.threads (m.futexQueue i).thread).state ≠ .unused

/-- Fewer than `2 ^ 20` ids have been given, no thread that has ended is woken, and a last thread has a process. -/
def Meets (w : Named) : IdOp → Prop
  | .mainThreadAlloc pages _ => ThreadLeft w.machine ∧ ProcessLeft pages w.machine
  | .threadAlloc _ _ _ => ThreadLeft w.machine
  | .threadFree t => ((w.machine.threads t).clearChildTid ≠ 0 → WakesLive (w.machine.threads t).clearChildTid 1 w.machine) ∧
      ∀ p, (w.machine.threads t).process = some p → (w.machine.procs p).threadCount = 1 → (w.machine.procs p).state ≠ .unused
  | .futexWake addr n => WakesLive addr n w.machine
  | _ => True

/-- The states that steps of `P` reach from boot. -/
def Reached (P : Named → IdOp → Prop) : Named → Prop :=
  Reach (· = ⟨boot, [], []⟩) fun w w' => ∃ op, w.Enabled op ∧ P w op ∧ w.exec op = .ok w'

/-- Positive, nobody else's, and found in its slot while that is taken; afterwards found nowhere. -/
structure Sound (w : Named) : Prop where
  thread : ∀ t < PROCESS_TOTAL_NUMBER, (w.machine.threads t).state ≠ .unused →
    0 < (w.machine.threads t).threadId ∧ (w.machine.threads t).threadId < 2 ^ 31 ∧
    tid2Thread (w.machine.threads t).threadId w.machine = .ok (some t) ∧
    ∀ u < PROCESS_TOTAL_NUMBER, (w.machine.threads u).state ≠ .unused → u ≠ t →
      (w.machine.threads u).threadId ≠ (w.machine.threads t).threadId
  proc : ∀ p < PROCESS_TOTAL_NUMBER, (w.machine.procs p).state ≠ .unused →
    0 < (w.machine.procs p).processId ∧ (w.machine.procs p).processId < 2 ^ 31 ∧
    pid2Process (w.machine.procs p).processId w.machine = some p ∧
    ∀ q < PROCESS_TOTAL_NUMBER, (w.machine.procs q).state ≠ .unused → q ≠ p →
      (w.machine.procs q).processId ≠ (w.machine.procs p).processId
  goneThread : ∀ id ∈ w.goneThreads, tid2Thread id w.machine = .ok none
  goneProcess : ∀ id ∈ w.goneProcesses, id ≠ 0 ∧ pid2Process id w.machine = none

end Named

/-! ## What stays -/

section Retains

variable {m m₁ m' : Machine} {t p : Nat} {th : Thread}

theorem Retains.refl (m : Machine) : Retains m m :=
  ⟨rfl, rfl, rfl, rfl, fun _ => rfl, fun _ => Iff.rfl, fun _ => rfl, fun _ => Iff.rfl⟩

theorem Retains.trans (h : Retains m m₁) (h' : Retains m₁ m') : Retains m m' where
  freeThreads := h'.freeThreads.trans h.freeThreads
  freeProcesses := h'.freeProcesses.trans h.freeProcesses
  nextThreadId := h'.nextThreadId.trans h.nextThreadId
  nextProcessId := h'.nextProcessId.trans h.nextProcessId
  threadId := fun t => (h'.threadId t).trans (h.threadId t)
  thread := fun t => (h'.thread t).trans (h.thread t)
  processId := fun p => (h'.processId p).trans (h.processId p)
  proc := fun p => (h'.proc p).trans (h.proc p)

theorem retains_setThread (hid : th.threadId = (m.threads t).threadId) (hstate : th.state = .unused ↔ (m.threads t).state = .unused) :
    Retains m (m.setThread t th) := by
  refine ⟨rfl, rfl, rfl, rfl, fun u => ?_, fun u => ?_, fun _ => rfl, fun _ => Iff.rfl⟩
  · by_cases hu : u = t
    · rw [hu, setThread_self, hid]
    · rw [setThread_of_ne m th hu]
  · by_cases hu : u = t
    · rw [hu, setThread_self]
      exact hstate
    · rw [setThread_of_ne m th hu]

theorem retains_setProc {proc : Proc} (hid : proc.processId = (m.procs p).processId)
    (hstate : proc.state = .unused ↔ (m.procs p).state = .unused) : Retains m (m.setProc p proc) := by
  refine ⟨rfl, rfl, rfl, rfl, fun _ => rfl, fun _ => Iff.rfl, fun q => ?_, fun q => ?_⟩
  · show Proc.processId (update m.procs p proc q) = _
    by_cases hq : q = p
    · rw [hq, update_self, hid]
    · rw [update_of_ne hq]
  · show Proc.state (update m.procs p proc q) = _ ↔ _
    by_cases hq : q = p
    · rw [hq, update_self]
      exact hstate
    · rw [update_of_ne hq]

/-- A change of files, run queues and futexes. -/
theorem retains_of_rest (hrest : m' = { m with files := m'.files, priSchedList := m'.priSchedList, futexQueue := m'.futexQueue }) :
    Retains m m' := by
  rw [hrest]
  exact ⟨rfl, rfl, rfl, rfl, fun _ => rfl, fun _ => Iff.rfl, fun _ => rfl, fun _ => Iff.rfl⟩

theorem retains_enqueue (ht : (m.threads t).state ≠ .unused) (hok : enqueue t m = .ok m') : Retains m m' := by
  obtain ⟨pri, -, rfl⟩ := enqueue_ok hok
  have hset : Retains m (m.setState t .runnable) := retains_setThread rfl ⟨fun h => (by cases h), fun h => absurd h ht⟩
  exact hset.trans (retains_of_rest rfl)

theorem Moves.retains (hmoves : Moves m m') : Retains m m' := by
  induction hmoves with
  | refl => exact Retains.refl m
  | tail _ hmove ih =>
    refine ih.trans ?_
    cases hmove with
    | file => exact retains_of_rest rfl
    | slots => exact retains_setProc rfl Iff.rfl
    | ready hsleep hok =>
      refine retains_enqueue ?_ hok
      rw [hsleep]
      decide

/-- A process whose last thread goes has not been given up yet. -/
theorem retains_dropped (hp : (m.procs p).threadCount = 1 → (m.procs p).state ≠ .unused) : Retains m (m.setProc p (m.dropped p t)) := by
  refine retains_setProc ?_ ?_
  all_goals unfold Machine.dropped; dsimp only; split
  · rfl
  · rfl
  · rename_i hzero
    exact ⟨fun h => (by cases h), fun h => absurd h (hp (by omega))⟩
  · exact Iff.rfl

/-- A wake that finds no thread that has ended. -/
theorem retains_futexWake {addr : Nat} {n : Int} (hlive : Named.WakesLive addr n m) (hok : futexWake addr n m = .ok m') : Retains m m' := by
  have htook := took_futexWake hok
  have hthread : ∀ t, (m'.threads t).threadId = (m.threads t).threadId ∧
      ((m'.threads t).state = .unused ↔ (m.threads t).state = .unused) := fun t => by
    rw [htook.thread]
    split
    · rename_i hmem
      obtain ⟨i, hi, rfl⟩ := List.mem_map.mp hmem
      exact ⟨rfl, fun h => (by cases h), fun h => absurd h (hlive i hi)⟩
    · exact ⟨rfl, Iff.rfl⟩
  refine ⟨?_, ?_, ?_, ?_, fun t => (hthread t).1, fun t => (hthread t).2, fun p => ?_, fun p => ?_⟩
  all_goals rw [htook.rest]

theorem retains_attach (m : Machine) (t p : Nat) : Retains m (attach t p m) := by
  have hset : Retains m (m.setThread t { m.threads t with process := some p }) := retains_setThread rfl Iff.rfl
  exact hset.trans (retains_setProc rfl Iff.rfl)

end Retains

/-! ## The slots -/

/-- Both tables of slots name their slots by generations, and no count has been cut. -/
structure Kept (m : Machine) (goneThreads goneProcesses : List Nat) : Prop where
  threads : Names PROCESS_TOTAL_NUMBER (2 ^ 11) m.freeThreads (fun t => (m.threads t).state ≠ .unused) (fun t => (m.threads t).threadId)
    m.nextThreadId goneThreads
  procs : Names PROCESS_TOTAL_NUMBER (2 ^ 11) m.freeProcesses (fun p => (m.procs p).state ≠ .unused) (fun p => (m.procs p).processId)
    m.nextProcessId goneProcesses
  threadCount : m.nextThreadId < 2 ^ 20
  procCount : m.nextProcessId < 2 ^ 20

section Kept

variable {m m₁ m' : Machine} {goneThreads goneProcesses : List Nat} {t p : Nat} {pages : Pages} {r : Int ⊕ Nat}

theorem Kept.retains (h : Kept m goneThreads goneProcesses) (hs : Retains m m') : Kept m' goneThreads goneProcesses where
  threads := by
    rw [hs.freeThreads, hs.nextThreadId]
    exact h.threads.congr (fun t => not_congr (hs.thread t)) hs.threadId
  procs := by
    rw [hs.freeProcesses, hs.nextProcessId]
    exact h.procs.congr (fun p => not_congr (hs.proc p)) hs.processId
  threadCount := by
    rw [hs.nextThreadId]
    exact h.threadCount
  procCount := by
    rw [hs.nextProcessId]
    exact h.procCount

/-- The next count, uncut, makes the id it should. -/
theorem makeId_next {next slot : Nat} (hnext : next + 1 < 2 ^ 20) (hslot : slot < PROCESS_TOTAL_NUMBER) :
    (next + 1) % 2 ^ 32 = next + 1 ∧ makeId ((next + 1) % 2 ^ 32) slot = (next + 1) * 2 ^ 11 + slot := by
  have hmod : (next + 1) % 2 ^ 32 = next + 1 := Nat.mod_eq_of_lt (by omega)
  rw [hmod]
  exact ⟨rfl, makeId_eq (by omega) hslot⟩

theorem takeThread_cases {sp : Nat} {new : Option Nat} (hok : takeThread pages sp m = .ok (new, m')) :
    (new = none ∧ m' = m) ∨ ∃ t rest th, m.freeThreads = t :: rest ∧ new = some t ∧
      th.threadId = makeId ((m.nextThreadId + 1) % 2 ^ 32) t ∧ th.state = .runnable ∧ th.clearChildTid = 0 ∧
      m'.threads = update m.threads t th ∧
      m' = { m with threads := m'.threads, freeThreads := rest, usedThreads := t :: m.usedThreads,
                    nextThreadId := (m.nextThreadId + 1) % 2 ^ 32 } := by
  unfold takeThread at hok
  split at hok
  · cases hok
    exact .inl ⟨rfl, rfl⟩
  · rename_i t rest hfree
    obtain ⟨m₁, h₁, hok⟩ := bind_ok hok
    unfold threadSetup at h₁
    split at h₁
    · cases h₁
      cases hok
      refine .inr ⟨t, rest, _, hfree, rfl, rfl, rfl, ?_, update_idem .., rfl⟩
      show Thread.clearChildTid (update m.threads t _ t) = 0
      rw [update_self]
    · cases h₁

/-- **A new thread.** -/
theorem Kept.takeThread (h : Kept m goneThreads goneProcesses) (hleft : Named.ThreadLeft m) {sp : Nat} {new : Option Nat}
    (hok : Sched.takeThread pages sp m = .ok (new, m')) :
    Kept m' goneThreads goneProcesses ∧ m'.freeProcesses = m.freeProcesses ∧ m'.nextProcessId = m.nextProcessId ∧
      (∀ t, new = some t → m.freeThreads ≠ []) := by
  rcases takeThread_cases hok with ⟨rfl, rfl⟩ | ⟨t, rest, th, hfree, rfl, hid, hstate, -, hthreads, hm'⟩
  · exact ⟨h, rfl, rfl, fun t ht => by cases ht⟩
  · have hne : m.freeThreads ≠ [] := by
      rw [hfree]
      exact List.cons_ne_nil _ _
    have hnames := h.threads
    rw [hfree] at hnames
    obtain ⟨hmod, hmake⟩ := makeId_next (hleft hne) (hnames.free_lt t (List.mem_cons_self ..))
    have hself : m'.threads t = th := by rw [hthreads, update_self]
    have hother : ∀ u, u ≠ t → m'.threads u = m.threads u := fun u hu => by rw [hthreads, update_of_ne hu]
    refine ⟨⟨?_, ?_, ?_, ?_⟩, by rw [hm'], by rw [hm'], fun _ _ => hne⟩
    · have hfree' : m'.freeThreads = rest := by rw [hm']
      have hnext' : m'.nextThreadId = m.nextThreadId + 1 := by
        rw [hm']
        exact hmod
      rw [hfree', hnext']
      refine hnames.take (fun u => ?_) ?_ fun u hu => by rw [hother u hu]
      · by_cases hu : u = t
        · rw [hu, hself, hstate]
          exact ⟨fun _ => .inl rfl, fun _ h => by cases h⟩
        · rw [hother u hu]
          exact ⟨.inr, fun h => h.resolve_left hu⟩
      · show (m'.threads t).threadId = _
        rw [hself, hid, hmake]
    · rw [hm']
      exact h.procs
    · rw [hm']
      rw [hmod]
      exact hleft hne
    · rw [hm']
      exact h.procCount

/-- **A new process**, or a slot that is lost. -/
theorem Kept.processAlloc (h : Kept m goneThreads goneProcesses) {parentId : Nat}
    (hleft : m.freeProcesses ≠ [] → pages.signal = true → m.nextProcessId + 1 < 2 ^ 20)
    (hok : Sched.processAlloc pages parentId m = .ok (r, m')) : Kept m' goneThreads goneProcesses := by
  unfold Sched.processAlloc at hok
  split at hok
  · cases hok
    exact h
  · rename_i p rest hfree
    have hnames := h.procs
    rw [hfree] at hnames
    have hp : p ∈ p :: rest := List.mem_cons_self ..
    have hidle : (m.procs p).state = .unused := Decidable.not_not.mp (hnames.idle p hp)
    split at hok
    · cases hok
    · split at hok
      · cases hok
        -- the slot is set up, and nothing else
        have hlost : Kept { m with freeProcesses := rest, usedProcesses := p :: m.usedProcesses } goneThreads goneProcesses :=
          ⟨h.threads, hnames.lose, h.threadCount, h.procCount⟩
        refine hlost.retains (retains_setProc rfl ?_)
        exact ⟨fun _ => hidle, fun _ => rfl⟩
      · rename_i hsignal
        cases hok
        have hne : m.freeProcesses ≠ [] := by
          rw [hfree]
          exact List.cons_ne_nil _ _
        obtain ⟨hmod, hmake⟩ := makeId_next (hleft hne (by simpa using hsignal)) (hnames.free_lt p hp)
        refine ⟨h.threads, ?_, h.threadCount, ?_⟩
        · show Names _ _ rest _ _ ((m.nextProcessId + 1) % 2 ^ 32) _
          rw [hmod]
          refine hnames.take (fun q => ?_) ?_ fun q hq => ?_
          · show Proc.state (update (update m.procs p _) p _ q) ≠ _ ↔ _
            by_cases hq : q = p
            · rw [hq, update_self]
              exact ⟨fun _ => .inl rfl, fun _ h => by cases h⟩
            · rw [update_of_ne hq, update_of_ne hq]
              exact ⟨.inr, fun h => h.resolve_left hq⟩
          · show Proc.processId (update (update m.procs p _) p _ p) = _
            rw [update_self]
            exact hmake
          · show Proc.processId (update (update m.procs p _) p _ q) = _
            rw [update_of_ne hq, update_of_ne hq]
        · show (m.nextProcessId + 1) % 2 ^ 32 < 2 ^ 20
          rw [hmod]
          exact hleft hne (by simpa using hsignal)

theorem Kept.mainThreadAlloc (h : Kept m goneThreads goneProcesses) {parentId : Nat}
    (hthread : Named.ThreadLeft m) (hproc : Named.ProcessLeft pages m)
    (hok : Sched.mainThreadAlloc pages parentId m = .ok (r, m')) : Kept m' goneThreads goneProcesses := by
  obtain ⟨⟨new, m₁⟩, h₁, hok⟩ := bind_ok hok
  obtain ⟨hkept, hfree, hnext, hne⟩ := h.takeThread hthread h₁
  cases new with
  | none =>
    cases hok
    exact hkept
  | some t =>
    obtain ⟨⟨r₂, m₂⟩, h₂, hok⟩ := bind_ok hok
    have hkept₂ : Kept m₂ goneThreads goneProcesses := by
      refine hkept.processAlloc (fun hp hs => ?_) h₂
      rw [hnext]
      rw [hfree] at hp
      exact hproc (hne t rfl) hp hs
    cases r₂ with
    | inl e =>
      cases hok
      exact hkept₂
    | inr p =>
      cases hok
      exact hkept₂.retains (retains_attach ..)

theorem Kept.threadAlloc (h : Kept m goneThreads goneProcesses) {userSp : Nat}
    (hthread : Named.ThreadLeft m) (hok : Sched.threadAlloc pages p userSp m = .ok (r, m')) : Kept m' goneThreads goneProcesses := by
  obtain ⟨⟨new, m₁⟩, h₁, hok⟩ := bind_ok hok
  obtain ⟨hkept, -⟩ := h.takeThread hthread h₁
  cases new with
  | none =>
    cases hok
    exact hkept
  | some t =>
    cases hok
    exact hkept.retains (retains_attach ..)

theorem dvd_ids : PROCESS_TOTAL_NUMBER ∣ 2 ^ 11 := by decide

theorem le_ids : PROCESS_TOTAL_NUMBER ≤ 2 ^ 11 := by decide

/-- The id of a thread that ends is cut out. -/
theorem Kept.retire (h : Kept m goneThreads goneProcesses) (ht : t < PROCESS_TOTAL_NUMBER) (hstate : (m.threads t).state ≠ .unused) :
    Kept (Sched.retire t m) ((m.threads t).threadId :: goneThreads) goneProcesses := by
  have hnot : t ∉ m.freeThreads := fun hmem => h.threads.idle t hmem hstate
  refine ⟨?_, h.procs, h.threadCount, h.procCount⟩
  have hlive : ∀ u, ((Sched.retire t m).threads u).state ≠ .unused ↔ (m.threads u).state ≠ .unused ∧ u ≠ t := fun u => by
    show ((m.setState t .unused).threads u).state ≠ _ ↔ _
    unfold Machine.setState
    by_cases hu : u = t
    · rw [hu, setThread_self]
      exact ⟨fun h => absurd rfl h, fun h => absurd rfl h.2⟩
    · rw [setThread_of_ne m _ hu]
      exact ⟨fun h => ⟨h, hu⟩, fun h => h.1⟩
  have hname : ∀ u, ((Sched.retire t m).threads u).threadId = (m.threads u).threadId := fun u => by
    show ((m.setState t .unused).threads u).threadId = _
    unfold Machine.setState
    by_cases hu : u = t
    · rw [hu, setThread_self]
    · rw [setThread_of_ne m _ hu]
  show Names _ _ (t :: m.freeThreads.erase t) _ _ _ _
  rw [List.erase_of_not_mem hnot]
  exact (h.threads.release dvd_ids le_ids ht hstate hlive).congr (fun _ => Iff.rfl) hname

theorem Kept.reap (h : Kept m goneThreads goneProcesses) (hp : p < PROCESS_TOTAL_NUMBER) (hstate : (m.procs p).state ≠ .unused) :
    Kept (Sched.reap p m) goneThreads ((m.procs p).processId :: goneProcesses) := by
  refine ⟨h.threads, ?_, h.threadCount, h.procCount⟩
  have hlive : ∀ q, ((Sched.reap p m).procs q).state ≠ .unused ↔ (m.procs q).state ≠ .unused ∧ q ≠ p := fun q => by
    show Proc.state (update m.procs p _ q) ≠ _ ↔ _
    by_cases hq : q = p
    · rw [hq, update_self]
      exact ⟨fun h => absurd rfl h, fun h => absurd rfl h.2⟩
    · rw [update_of_ne hq]
      exact ⟨fun h => ⟨h, hq⟩, fun h => h.1⟩
  have hname : ∀ q, ((Sched.reap p m).procs q).processId = (m.procs q).processId := fun q => by
    show Proc.processId (update m.procs p _ q) = _
    by_cases hq : q = p
    · rw [hq, update_self]
    · rw [update_of_ne hq]
  exact (h.procs.release dvd_ids le_ids hp hstate hlive).congr (fun _ => Iff.rfl) hname

/-- **The end of a thread**: what comes before `retire` keeps ids and slots. -/
theorem Kept.threadFree (h : Kept m goneThreads goneProcesses) (ht : t < PROCESS_TOTAL_NUMBER) (hstate : (m.threads t).state ≠ .unused)
    (hwake : (m.threads t).clearChildTid ≠ 0 → Named.WakesLive (m.threads t).clearChildTid 1 m)
    (hproc : ∀ p, (m.threads t).process = some p → (m.procs p).threadCount = 1 → (m.procs p).state ≠ .unused)
    (hok : Sched.threadFree t m = .ok m') : Kept m' ((m.threads t).threadId :: goneThreads) goneProcesses := by
  obtain ⟨p, m₁, m₂, hp, h₁, hmoves, rfl⟩ := threadFree_ok hok
  have hs₁ : Retains m m₁ ∧ m₁.procs = m.procs := by
    split at h₁
    · rename_i hclear
      refine ⟨retains_futexWake (hwake hclear) h₁, ?_⟩
      rw [(took_futexWake h₁).rest]
    · cases h₁
      exact ⟨Retains.refl m, rfl⟩
  have hdropped : Retains m₁ (m₁.setProc p (m₁.dropped p t)) := by
    refine retains_dropped fun hone => ?_
    rw [hs₁.2] at hone ⊢
    exact hproc p hp hone
  have hs₃ : Retains m (if (m₂.threads t).state = .runnable then m₂.unlink t else m₂) := by
    refine (hs₁.1.trans (hdropped.trans hmoves.retains)).trans ?_
    split
    · exact retains_of_rest rfl
    · exact Retains.refl m₂
  rw [← hs₃.threadId t]
  exact (h.retains hs₃).retire ht fun hun => hstate ((hs₃.thread t).mp hun)

/-- How large the ids in use are. -/
theorem id_bounds {free gone : List Nat} {live : Nat → Prop} {name : Nat → Nat} {count i : Nat}
    (h : Names PROCESS_TOTAL_NUMBER (2 ^ 11) free live name count gone) (hcount : count < 2 ^ 20) (hi : i < PROCESS_TOTAL_NUMBER)
    (hl : live i) : 0 < name i ∧ name i < 2 ^ 31 := by
  obtain ⟨hlow, hhigh⟩ := h.bounds le_ids hi hl
  omega

/-- What the ids that are kept say of the slots. -/
theorem Kept.sound {w : Named} (h : Kept w.machine w.goneThreads w.goneProcesses) : w.Sound where
  thread t ht hl := by
    obtain ⟨hpos, hlt⟩ := id_bounds h.threads h.threadCount ht hl
    refine ⟨hpos, hlt, ?_, fun u hu hlu hne => h.threads.ne dvd_ids ht hu hl hlu hne⟩
    have hslot : processOffset (w.machine.threads t).threadId = t := h.threads.slot dvd_ids ht hl
    unfold tid2Thread
    rw [if_neg (Nat.ne_of_gt hpos)]
    rw [hslot, if_neg]
    exact fun hor => hor.elim hl fun hne => hne rfl
  proc p hp hl := by
    obtain ⟨hpos, hlt⟩ := id_bounds h.procs h.procCount hp hl
    refine ⟨hpos, hlt, ?_, fun q hq hlq hne => h.procs.ne dvd_ids hp hq hl hlq hne⟩
    have hslot : processOffset (w.machine.procs p).processId = p := h.procs.slot dvd_ids hp hl
    unfold pid2Process
    rw [hslot, if_neg]
    exact fun hor => hor.elim hl fun hne => hne rfl
  goneThread id hid := by
    have hpos := (h.threads.past id hid).1
    unfold tid2Thread
    rw [if_neg (by omega)]
    dsimp only
    split
    · rfl
    · rename_i hfound
      obtain ⟨hl, hname⟩ := not_or.mp hfound
      have hin : (w.machine.threads (processOffset id)).threadId = id := Decidable.not_not.mp hname
      have hfresh : (w.machine.threads (processOffset id)).threadId ∉ w.goneThreads := h.threads.fresh _ (Nat.mod_lt _ (by decide)) hl
      rw [hin] at hfresh
      exact absurd hid hfresh
  goneProcess id hid := by
    have hpos := (h.procs.past id hid).1
    refine ⟨by omega, ?_⟩
    unfold pid2Process
    dsimp only
    split
    · rfl
    · rename_i hfound
      obtain ⟨hl, hname⟩ := not_or.mp hfound
      have hin : (w.machine.procs (processOffset id)).processId = id := Decidable.not_not.mp hname
      have hfresh : (w.machine.procs (processOffset id)).processId ∉ w.goneProcesses := h.procs.fresh _ (Nat.mod_lt _ (by decide)) hl
      rw [hin] at hfresh
      exact absurd hid hfresh

end Kept

namespace Named

theorem kept_boot : Kept boot [] [] := by
  have hcount : 0 < 2 ^ 20 := by omega
  have hthreads : boot.freeThreads = List.range PROCESS_TOTAL_NUMBER := by simp only [boot]
  have hprocs : boot.freeProcesses = List.range PROCESS_TOTAL_NUMBER := by simp only [boot]
  exact ⟨names_init hthreads fun _ h => h rfl, names_init hprocs fun _ h => h rfl, hcount, hcount⟩

/-- One step keeps the slots. -/
theorem kept_exec {w w' : Named} (h : Kept w.machine w.goneThreads w.goneProcesses) {op : IdOp} (he : w.Enabled op) (hm : w.Meets op)
    (hok : w.exec op = .ok w') : Kept w'.machine w'.goneThreads w'.goneProcesses := by
  cases op with
  | mainThreadAlloc pages parentId =>
    obtain ⟨⟨r, m⟩, hr, rfl⟩ := map_ok hok
    exact h.mainThreadAlloc hm.1 hm.2 hr
  | threadAlloc pages p userSp =>
    obtain ⟨⟨r, m⟩, hr, rfl⟩ := map_ok hok
    exact h.threadAlloc hm hr
  | threadFree t =>
    obtain ⟨m, hr, rfl⟩ := map_ok hok
    exact h.threadFree he.1 he.2 hm.1 hm.2 hr
  | reap c =>
    cases hok
    refine h.reap he.1 ?_
    rw [he.2]
    decide
  | futexWake addr n =>
    obtain ⟨m, hr, rfl⟩ := map_ok hok
    exact h.retains (retains_futexWake hm hr)
  | rest m =>
    cases hok
    exact h.retains he

/-- **Ids name what they were given to**, and nothing afterwards, while fewer than `2 ^ 20` have been given. -/
theorem sound_of_reached (w : Named) (h : Reached Meets w) : w.Sound := by
  have hinit : ∀ w : Named, w = ⟨boot, [], []⟩ → Kept w.machine w.goneThreads w.goneProcesses := by
    rintro w rfl
    exact kept_boot
  have hstep : ∀ w w' : Named, Kept w.machine w.goneThreads w.goneProcesses →
      (∃ op, w.Enabled op ∧ w.Meets op ∧ w.exec op = .ok w') → Kept w'.machine w'.goneThreads w'.goneProcesses := by
    rintro w w' hk ⟨op, he, hm, hok⟩
    exact kept_exec hk he hm hok
  have hkept : Kept w.machine w.goneThreads w.goneProcesses := h.invariant hinit hstep
  exact hkept.sound

/-! ## The first process -/

def allPages : Pages := ⟨true, true, true⟩

def start : Named := ⟨boot, [], []⟩

theorem first_ids : ((start.exec (.mainThreadAlloc allPages 0)).toOption.map fun w =>
    (w.machine.freeThreads.head?, (w.machine.procs 0).threadCount, w.machine.nextThreadId, w.goneThreads)) = some (some 1, 1, 1, []) := by
  decide +kernel

/-! ## Threads that come and go -/

/-- The first process has one thread, and the next thread takes slot 1. -/
structure Idle (m : Machine) : Prop where
  free : ∃ rest, m.freeThreads = 1 :: rest
  count : (m.procs 0).threadCount = 1

theorem takeThread_cons {m : Machine} {t sp : Nat} {rest : List Nat} (hfree : m.freeThreads = t :: rest) :
    ∃ m' th, takeThread allPages sp m = .ok (some t, m') ∧ th.threadId = makeId ((m.nextThreadId + 1) % 2 ^ 32) t ∧
      th.state = .runnable ∧ th.clearChildTid = 0 ∧ m'.threads t = th ∧ m'.freeThreads = rest ∧ m'.procs = m.procs ∧
      m'.nextThreadId = (m.nextThreadId + 1) % 2 ^ 32 := by
  obtain ⟨m', hok⟩ : ∃ m', takeThread allPages sp m = .ok (some t, m') := by
    unfold takeThread
    rw [hfree]
    exact ⟨_, rfl⟩
  rcases takeThread_cases hok with ⟨hnone, -⟩ | ⟨u, rest', th, hfree', hsome, hid, hstate, hclear, hthreads, hm'⟩
  · cases hnone
  · rw [hfree] at hfree'
    cases hfree'
    refine ⟨m', th, hok, hid, hstate, hclear, ?_, ?_, ?_, ?_⟩
    · rw [hthreads, update_self]
    all_goals rw [hm']

/-- A thread that runs ends, and its process has another one. -/
theorem threadFree_running {m : Machine} {t p : Nat} (hproc : (m.threads t).process = some p) (hclear : (m.threads t).clearChildTid = 0)
    (hrun : (m.threads t).state = .running) (hcount : (m.procs p).threadCount = 2) :
    ∃ m', threadFree t m = .ok m' ∧ m'.freeThreads = t :: m.freeThreads.erase t ∧ (m'.procs p).threadCount = 1 ∧
      m'.nextThreadId = m.nextThreadId := by
  have hself : ∀ proc, (m.setProc p proc).procs p = proc := fun proc => update_self ..
  have hdrop : dropThread p t m = .ok (m.setProc p { m.procs p with threadCount := (m.procs p).threadCount - 1 }) := by
    unfold dropThread
    rw [if_neg]
    rw [hself]
    show ¬ (m.procs p).threadCount - 1 = 0
    omega
  have hne : ∀ proc, ¬ ((m.setProc p proc).threads t).state = .runnable := fun proc h => by
    have h : (m.threads t).state = .runnable := h
    rw [hrun] at h
    cases h
  unfold threadFree
  rw [hproc]
  dsimp only
  rw [hclear, if_neg (fun h => h rfl), ok_bind, hdrop, ok_bind, if_neg (hne _), ok_bind]
  refine ⟨_, rfl, rfl, ?_, rfl⟩
  show ((m.setProc p { m.procs p with threadCount := (m.procs p).threadCount - 1 }).procs p).threadCount = 1
  rw [hself]
  show (m.procs p).threadCount - 1 = 1
  omega

/-- A thread of the first process is made, runs and ends, in steps of `P`. -/
theorem cycle {P : Named → IdOp → Prop} {w : Named} (hr : Reached P w) (hi : Idle w.machine) (hnew : P w (.threadAlloc allPages 0 0))
    (hrun : ∀ w m, P w (.rest m)) (hend : ∀ w : Named, (w.machine.threads 1).clearChildTid = 0 →
      (w.machine.threads 1).process = some 0 → (w.machine.procs 0).threadCount = 2 → P w (.threadFree 1)) :
    ∃ w₁ w', Reached P w₁ ∧ (w₁.machine.threads 1).threadId = makeId ((w.machine.nextThreadId + 1) % 2 ^ 32) 1 ∧
      (w₁.machine.threads 1).state ≠ .unused ∧ w₁.goneThreads = w.goneThreads ∧
      Reached P w' ∧ Idle w'.machine ∧ w'.machine.nextThreadId = (w.machine.nextThreadId + 1) % 2 ^ 32 ∧
      w'.goneThreads = makeId ((w.machine.nextThreadId + 1) % 2 ^ 32) 1 :: w.goneThreads := by
  obtain ⟨rest, hfree⟩ := hi.free
  obtain ⟨m₁, th, hok, hid, hstate, hclear, hth, hfree₁, hprocs₁, hnext₁⟩ :
      ∃ m' th, takeThread allPages 0 w.machine = .ok (some 1, m') ∧ th.threadId = makeId ((w.machine.nextThreadId + 1) % 2 ^ 32) 1 ∧
        th.state = .runnable ∧ th.clearChildTid = 0 ∧ m'.threads 1 = th ∧ m'.freeThreads = rest ∧ m'.procs = w.machine.procs ∧
        m'.nextThreadId = (w.machine.nextThreadId + 1) % 2 ^ 32 := takeThread_cons hfree
  have halloc : threadAlloc allPages 0 0 w.machine = .ok (.inr 1, attach 1 0 m₁) := by
    unfold threadAlloc
    rw [hok]
    rfl
  have hr₁ : Reached P { w with machine := attach 1 0 m₁ } := by
    refine hr.step ⟨.threadAlloc allPages 0 0, trivial, hnew, ?_⟩
    unfold exec
    dsimp only
    rw [halloc]
    rfl
  have hthread₁ : (attach 1 0 m₁).threads 1 = { th with process := some 0 } := by
    have hself : (attach 1 0 m₁).threads 1 = { m₁.threads 1 with process := some 0 } := setThread_self m₁ 1 _
    rw [hself, hth]
  have hstate₁ : ((attach 1 0 m₁).threads 1).state ≠ .unused := by
    rw [hthread₁]
    rw [hstate]
    exact fun h => by cases h
  have hcount₁ : ((attach 1 0 m₁).procs 0).threadCount = 2 := by
    show Proc.threadCount (update m₁.procs 0 { m₁.procs 0 with threadCount := (m₁.procs 0).threadCount + 1 } 0) = 2
    rw [update_self]
    rw [hprocs₁, hi.count]
    rfl
  -- it runs
  obtain ⟨m₂, hm₂⟩ : ∃ m₂, m₂ = (attach 1 0 m₁).setState 1 .running := ⟨_, rfl⟩
  have hthread₂ : m₂.threads 1 = { th with process := some 0, state := .running } := by
    rw [hm₂]
    unfold Machine.setState
    rw [setThread_self, hthread₁]
  have hstays : Retains (attach 1 0 m₁) m₂ := by
    rw [hm₂]
    exact retains_setThread rfl ⟨fun h => (by cases h), fun h => absurd h hstate₁⟩
  have hr₂ : Reached P { w with machine := m₂ } := hr₁.step ⟨.rest m₂, hstays, hrun _ m₂, rfl⟩
  -- it ends
  have hproc₂ : (m₂.threads 1).process = some 0 := by rw [hthread₂]
  have hclear₂ : (m₂.threads 1).clearChildTid = 0 := by
    rw [hthread₂]
    exact hclear
  have hrun₂ : (m₂.threads 1).state = .running := by rw [hthread₂]
  have hcount₂ : (m₂.procs 0).threadCount = 2 := by
    rw [hm₂]
    exact hcount₁
  obtain ⟨m₃, hok₃, hfree₃, hcount₃, hnext₃⟩ := threadFree_running hproc₂ hclear₂ hrun₂ hcount₂
  have hunused : (m₂.threads 1).state ≠ .unused := fun h => by
    rw [hrun₂] at h
    cases h
  have hr₃ : Reached P ⟨m₃, (m₂.threads 1).threadId :: w.goneThreads, w.goneProcesses⟩ := by
    refine hr₂.step ⟨.threadFree 1, ⟨by decide, hunused⟩, hend _ hclear₂ hproc₂ hcount₂, ?_⟩
    unfold exec
    dsimp only
    rw [hok₃]
    rfl
  refine ⟨_, _, hr₁, ?_, hstate₁, rfl, hr₃, ⟨⟨_, hfree₃⟩, hcount₃⟩, ?_, ?_⟩
  · show ((attach 1 0 m₁).threads 1).threadId = _
    rw [hthread₁]
    exact hid
  · show m₃.nextThreadId = _
    rw [hnext₃, hstays.nextThreadId]
    exact hnext₁
  · show (m₂.threads 1).threadId :: w.goneThreads = _
    rw [hthread₂, show Thread.threadId { th with process := some 0, state := .running } = th.threadId from rfl, hid]

/-- The first process is made. -/
theorem exists_first {P : Named → IdOp → Prop} (h : P start (.mainThreadAlloc allPages 0)) :
    ∃ w, Reached P w ∧ Idle w.machine ∧ w.machine.nextThreadId = 1 ∧ w.goneThreads = [] := by
  obtain ⟨w, hw, hids⟩ := exists_of_toOption first_ids
  obtain ⟨hhead, hids⟩ := Prod.mk.inj hids
  obtain ⟨hcount, hids⟩ := Prod.mk.inj hids
  obtain ⟨hnext, hgone⟩ := Prod.mk.inj hids
  have hr₀ : Reached P start := .init rfl
  refine ⟨w, hr₀.step ⟨.mainThreadAlloc allPages 0, trivial, h, hw⟩, ⟨?_, hcount⟩, hnext, hgone⟩
  cases hf : w.machine.freeThreads with
  | nil =>
    rw [hf] at hhead
    cases hhead
  | cons t rest =>
    rw [hf] at hhead
    cases hhead
    exact ⟨rest, rfl⟩

/-- The first process makes a thread, which ends, and another one in the same slot, whose id is new. -/
theorem sound_slotReused : ∃ w : Named, Reached Meets w ∧ w.goneThreads = [makeId 2 1] ∧ (w.machine.threads 1).state ≠ .unused ∧
    (w.machine.threads 1).threadId = makeId 3 1 ∧ w.Sound := by
  have hcount : 0 + 1 < 2 ^ 20 := by omega
  have hend : ∀ w : Named, (w.machine.threads 1).clearChildTid = 0 → (w.machine.threads 1).process = some 0 →
      (w.machine.procs 0).threadCount = 2 → w.Meets (.threadFree 1) := fun w hclear hproc htwo =>
    ⟨fun h => absurd hclear h, fun p hp hone => by
      rw [hproc] at hp
      cases hp
      rw [htwo] at hone
      cases hone⟩
  obtain ⟨w, hr, hi, hnext, hgone⟩ := exists_first (P := Meets) ⟨fun _ => hcount, fun _ _ _ => hcount⟩
  obtain ⟨-, w', -, -, -, -, hr', hi', hnext', hgone'⟩ :=
    cycle hr hi (fun _ => by rw [hnext]; omega) (fun _ _ => trivial) hend
  rw [hnext] at hnext' hgone'
  obtain ⟨w₁, -, hr₁, hid, hstate, hgone₁, -⟩ := cycle hr' hi' (fun _ => by rw [hnext']; omega) (fun _ _ => trivial) hend
  rw [hnext'] at hid
  exact ⟨w₁, hr₁, by rw [hgone₁, hgone', hgone]; rfl, hstate, hid, sound_of_reached w₁ hr₁⟩

/-- Any number of threads, one after the other. -/
theorem reached_count (k : Nat) (hk : k + 1 < 2 ^ 32) :
    ∃ w, Reached (fun _ _ => True) w ∧ Idle w.machine ∧ w.machine.nextThreadId = k + 1 := by
  induction k with
  | zero =>
    obtain ⟨w, hr, hi, hnext, -⟩ := exists_first (P := fun _ _ => True) trivial
    exact ⟨w, hr, hi, hnext⟩
  | succ k ih =>
    obtain ⟨w, hr, hi, hnext⟩ := ih (by omega)
    obtain ⟨-, w', -, -, -, -, hr', hi', hnext', -⟩ := cycle hr hi trivial (fun _ _ => trivial) fun _ _ _ _ => trivial
    refine ⟨w', hr', hi', ?_⟩
    rw [hnext', hnext]
    exact Nat.mod_eq_of_lt hk

/-- The `2 ^ 20`-th thread has an id that is negative as an `int`. -/
theorem not_sound_negative : ¬ ∀ w : Named, Reached (fun _ _ => True) w → w.Sound := by
  intro hall
  obtain ⟨w, hr, hi, hnext⟩ := reached_count (2 ^ 20 - 2) (by omega)
  obtain ⟨w₁, -, hr₁, hid, hstate, -⟩ := cycle hr hi trivial (fun _ _ => trivial) fun _ _ _ _ => trivial
  have hlt := ((hall w₁ hr₁).thread 1 (by decide) hstate).2.1
  rw [hid, hnext] at hlt
  exact absurd hlt (by decide)

end Named

end Exaros.Sched
