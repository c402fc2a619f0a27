import Exaros.Lib.Count
import Exaros.Process.Timed
import Exaros.Process.Wait

/-!
# Threads and their processes

`threadCount` is the number of a process's threads, and a process with a thread is alive: that is what makes
the end of the last thread the end of the process, and of no other. It holds as long as threads end by
`exit` alone (nobody is killed, nobody waits on a futex). A thread whose creation failed half-way is in
`usedThreads` with somebody else's process, but nothing ever reaches it: what can run or be woken is
`Attached`.
-/

namespace Exaros.Sched

open Loop Run
open Files (PROCESS_TOTAL_NUMBER)
open Function (update update_self update_of_ne update_idem)

/-- A thread that runs, is ready, or may be woken. -/
def Machine.Attached (m : Machine) (t : Nat) : Prop :=
  m.currentThread = some t ∨ (∃ pri, t ∈ m.priSchedList pri) ∨ (m.threads t).state = .sleeping

/-- What a process is remembered by. -/
def Proc.record (p : Proc) : Nat × Nat × ProcessState × Nat := (p.processId, p.parentId, p.state, p.retValue)

/-- Threads have only gone from running or asleep to ready, or from ready to running. -/
structure Quiet (m m' : Machine) : Prop where
  record : ∀ p, (m'.procs p).record = (m.procs p).record
  threadCount : ∀ p, (m'.procs p).threadCount = (m.procs p).threadCount
  freeProcesses : m'.freeProcesses = m.freeProcesses
  usedProcesses : m'.usedProcesses = m.usedProcesses
  nextProcessId : m'.nextProcessId = m.nextProcessId
  freeThreads : m'.freeThreads = m.freeThreads
  futexQueue : m'.futexQueue = m.futexQueue
  killed : ∀ t, (m'.threads t).killed = (m.threads t).killed
  process : ∀ t, (m'.threads t).process = (m.threads t).process
  attached : ∀ t, m'.Attached t → m.Attached t
  queued : Queued m'

section Quiet

variable {m m₁ m' : Machine} {t u p : Nat} {th : Thread} {f : List Nat → List Nat}

theorem Quiet.refl (h : Queued m) : Quiet m m :=
  ⟨fun _ => rfl, fun _ => rfl, rfl, rfl, rfl, rfl, rfl, fun _ => rfl, fun _ => rfl, fun _ h => h, h⟩

theorem Quiet.trans (h : Quiet m m₁) (h' : Quiet m₁ m') : Quiet m m' where
  record := fun p => (h'.record p).trans (h.record p)
  threadCount := fun p => (h'.threadCount p).trans (h.threadCount p)
  freeProcesses := h'.freeProcesses.trans h.freeProcesses
  usedProcesses := h'.usedProcesses.trans h.usedProcesses
  nextProcessId := h'.nextProcessId.trans h.nextProcessId
  freeThreads := h'.freeThreads.trans h.freeThreads
  futexQueue := h'.futexQueue.trans h.futexQueue
  killed := fun t => (h'.killed t).trans (h.killed t)
  process := fun t => (h'.process t).trans (h.process t)
  attached := fun t ht => h.attached t (h'.attached t ht)
  queued := h'.queued

/-- A change of what no list and no state depends on. -/
theorem Queued.setThread (h : Queued m) (hstate : th.state = (m.threads t).state) (hpri : th.pri = (m.threads t).pri) :
    Queued (m.setThread t th) := by
  have hsame : ∀ u, ((m.setThread t th).threads u).state = (m.threads u).state ∧
      ((m.setThread t th).threads u).pri = (m.threads u).pri := fun u => by
    by_cases hu : u = t
    · subst hu
      rw [setThread_self]
      exact ⟨hstate, hpri⟩
    · rw [setThread_of_ne m th hu]
      exact ⟨rfl, rfl⟩
  refine ⟨fun pri u hu => ?_, fun pri u hu => ?_, h.nodup⟩
  · rw [(hsame u).1]
    exact h.state pri u hu
  · rw [(hsame u).2]
    exact h.pri pri u hu

/-- A change to what no list reads. -/
theorem Quiet.setThread (h : Queued m) (hstate : th.state = (m.threads t).state) (hpri : th.pri = (m.threads t).pri)
    (hkilled : th.killed = (m.threads t).killed) (hprocess : th.process = (m.threads t).process) :
    Quiet m (m.setThread t th) := by
  refine ⟨fun _ => rfl, fun _ => rfl, rfl, rfl, rfl, rfl, rfl, fun u => ?_, fun u => ?_, fun u hu => ?_, h.setThread hstate hpri⟩
  · by_cases hu : u = t
    · subst hu
      rw [setThread_self, hkilled]
    · rw [setThread_of_ne m th hu]
  · by_cases hu : u = t
    · subst hu
      rw [setThread_self, hprocess]
    · rw [setThread_of_ne m th hu]
  · rcases hu with hcur | hlink | hsleep
    · exact .inl hcur
    · exact .inr (.inl hlink)
    · refine .inr (.inr ?_)
      by_cases hu : u = t
      · subst hu
        rw [setThread_self, hstate] at hsleep
        exact hsleep
      · rw [setThread_of_ne m th hu] at hsleep
        exact hsleep

/-- A thread changed and put in its list, which had been in none. -/
theorem insertWith_setThread (hok : insertWith f t (m.setThread t th) = .ok m') :
    ∃ own, th.pri = (own : Nat) ∧ own < PRI_COUNT ∧ (∀ pri < PRI_COUNT, t ∉ m.priSchedList pri) ∧
      m'.threads = update m.threads t th ∧
      (∀ pri, m'.priSchedList pri = if pri = own then f (m.priSchedList own) else m.priSchedList pri) ∧
      m' = { m with threads := m'.threads, priSchedList := m'.priSchedList } := by
  obtain ⟨own, hown, hlt, hfree, rfl⟩ := insertWith_ok hok
  rw [setThread_self] at hown
  refine ⟨own, hown, hlt, fun pri hpri => not_mem_of_linked hfree hpri, rfl, fun pri => ?_, rfl⟩
  show update m.priSchedList own _ pri = _
  by_cases hpri : pri = own
  · rw [hpri, update_self, if_pos rfl]
    rfl
  · rw [update_of_ne hpri, if_neg hpri]

/-- A thread made ready and put in its list. -/
theorem Queued.put (h : Queued m) (hth : th.state = .runnable) (hf : ∀ l, (f l).Perm (t :: l))
    (hok : insertWith f t (m.setThread t th) = .ok m') : Queued m' := by
  obtain ⟨own, hown, hlt, hfree, hthreads, hlists, -⟩ := insertWith_setThread hok
  have hnot : ∀ pri, t ∉ m.priSchedList pri := fun pri ht => hfree pri (h.pri pri t ht).2 ht
  have hself : m'.threads t = th := by rw [hthreads, update_self]
  have hother : ∀ u, u ≠ t → m'.threads u = m.threads u := fun u hu => by rw [hthreads, update_of_ne hu]
  have hmem : ∀ pri u, u ∈ m'.priSchedList pri → u = t ∧ pri = own ∨ u ≠ t ∧ u ∈ m.priSchedList pri := fun pri u hu => by
    rw [hlists] at hu
    split at hu
    · rename_i hpri
      rcases List.mem_cons.mp ((hf _).mem_iff.mp hu) with rfl | hold
      · exact .inl ⟨rfl, hpri⟩
      · exact .inr ⟨fun hut => hnot own (hut ▸ hold), hpri ▸ hold⟩
    · exact .inr ⟨fun hut => hnot pri (hut ▸ hu), hu⟩
  refine ⟨fun pri u hu => ?_, fun pri u hu => ?_, fun pri => ?_⟩
  · rcases hmem pri u hu with ⟨hut, -⟩ | ⟨hne, hold⟩
    · rw [hut, hself, hth]
    · rw [hother u hne]
      exact h.state pri u hold
  · rcases hmem pri u hu with ⟨hut, hpri⟩ | ⟨hne, hold⟩
    · rw [hut, hself, hpri]
      exact ⟨hown, hlt⟩
    · rw [hother u hne]
      exact h.pri pri u hold
  · rw [hlists]
    split
    · exact (hf _).nodup_iff.mpr (List.nodup_cons.mpr ⟨hnot own, h.nodup own⟩)
    · exact h.nodup pri

theorem attached_put (hf : ∀ l, (f l).Perm (t :: l)) (hok : insertWith f t (m.setThread t th) = .ok m')
    (hu : m'.Attached u) : m.Attached u ∨ u = t := by
  by_cases hut : u = t
  · exact .inr hut
  left
  obtain ⟨own, -, -, -, hthreads, hlists, hrest⟩ := insertWith_setThread hok
  rcases hu with hcur | ⟨pri, hlink⟩ | hsleep
  · rw [hrest] at hcur
    exact .inl hcur
  · refine .inr (.inl ⟨pri, ?_⟩)
    rw [hlists] at hlink
    split at hlink
    · rename_i hpri
      rw [hpri]
      exact (List.mem_cons.mp ((hf _).mem_iff.mp hlink)).resolve_left hut
    · exact hlink
  · rw [hthreads, update_of_ne hut] at hsleep
    exact .inr (.inr hsleep)

/-- An attached thread made ready. -/
theorem Quiet.put (h : Queued m) (hatt : m.Attached t) (hf : ∀ l, (f l).Perm (t :: l))
    (hok : insertWith f t (m.setState t .runnable) = .ok m') : Quiet m m' := by
  have hqueued := h.put rfl hf hok
  have hattached : ∀ u, m'.Attached u → m.Attached u := fun u hu => by
    rcases attached_put hf hok hu with hold | rfl
    · exact hold
    · exact hatt
  obtain ⟨-, -, -, -, hthreads, -, hrest⟩ := insertWith_setThread hok
  have hsame : ∀ u, (m'.threads u).killed = (m.threads u).killed ∧ (m'.threads u).process = (m.threads u).process := fun u => by
    rw [hthreads]
    by_cases hu : u = t
    · rw [hu, update_self]
      exact ⟨rfl, rfl⟩
    · rw [update_of_ne hu]
      exact ⟨rfl, rfl⟩
  rw [hrest]
  exact ⟨fun _ => rfl, fun _ => rfl, rfl, rfl, rfl, rfl, rfl, fun u => (hsame u).1, fun u => (hsame u).2,
    fun u hu => hattached u (by rw [hrest]; exact hu), by rw [← hrest]; exact hqueued⟩

/-! ## Yields, sleeps and passes -/

theorem tail_perm (t : Nat) (l : List Nat) : (l ++ [t]).Perm (t :: l) := List.perm_append_singleton t l

theorem quiet_yieldWith {put : Nat → Machine → Except Halt Machine} (hf : ∀ l, (f l).Perm (t :: l))
    (hput : ∀ m, put t m = insertWith f t m) (h : Queued m) (hcur : m.currentThread = some t)
    (hok : yieldWith put [] m = .ok m') : Quiet m m' := by
  unfold yieldWith at hok
  rw [hcur] at hok
  dsimp only at hok
  split at hok
  · cases hok
    exact Quiet.refl h
  · split at hok
    · obtain ⟨m₁, h₁, hok⟩ := bind_ok hok
      cases hok
      rw [hput] at h₁
      exact Quiet.put h (.inl hcur) hf h₁
    · split at hok
      · obtain ⟨m₁, h₁, hok⟩ := bind_ok hok
        cases hok
        exact Quiet.put h (.inl hcur) (tail_perm t) h₁
      · cases hok

theorem quiet_callYield (h : Queued m) (hcur : m.currentThread = some t) (hok : callYield [] m = .ok m') : Quiet m m' :=
  quiet_yieldWith (tail_perm t) (fun m => show insertTail t m = _ from rfl) h hcur hok

theorem quiet_timeYield (h : Queued m) (hcur : m.currentThread = some t) (hok : timeYield [] m = .ok m') : Quiet m m' :=
  quiet_yieldWith (fun _ => List.Perm.refl _) (fun m => show insertHead t m = _ from rfl) h hcur hok

/-- The thread that runs is in no list. -/
theorem Queued.not_linked (h : Queued m) (hrun : (m.threads t).state = .running) (pri : Nat) : t ∉ m.priSchedList pri := fun ht => by
  have := h.state pri t ht
  rw [hrun] at this
  cases this

/-- A thread that runs goes to sleep. -/
theorem quiet_asleep (h : Queued m) (hcur : m.currentThread = some t) (hrun : (m.threads t).state = .running)
    (hkilled : th.killed = (m.threads t).killed) (hprocess : th.process = (m.threads t).process) :
    Quiet m (m.setThread t th) := by
  have hnot := h.not_linked hrun
  have hother : ∀ u, u ≠ t → (m.setThread t th).threads u = m.threads u := fun u => setThread_of_ne m th
  refine ⟨fun _ => rfl, fun _ => rfl, rfl, rfl, rfl, rfl, rfl, fun u => ?_, fun u => ?_, fun u hu => ?_, ?_⟩
  · by_cases hut : u = t
    · rw [hut, setThread_self, hkilled]
    · rw [hother u hut]
  · by_cases hut : u = t
    · rw [hut, setThread_self, hprocess]
    · rw [hother u hut]
  · by_cases hut : u = t
    · exact .inl (hut ▸ hcur)
    · rcases hu with hc | hl | hs
      · exact .inl hc
      · exact .inr (.inl hl)
      · rw [hother u hut] at hs
        exact .inr (.inr hs)
  · have hne : ∀ pri u, u ∈ m.priSchedList pri → u ≠ t := fun pri u hu hut => hnot pri (hut ▸ hu)
    refine ⟨fun pri u hu => ?_, fun pri u hu => ?_, h.nodup⟩
    · rw [hother u (hne pri u hu)]
      exact h.state pri u hu
    · rw [hother u (hne pri u hu)]
      exact h.pri pri u hu

theorem busy_running (hb : m.busy) (hcur : m.currentThread = some t) : (m.threads t).state = .running := by
  obtain ⟨u, hu, hrun⟩ := hb
  rw [hcur] at hu
  cases hu
  exact hrun

theorem quiet_sleep {channel : Chan} (h : Queued m) (hk : ∀ t, (m.threads t).killed = false) (hb : m.busy)
    (hok : sleep channel [] m = .ok m') : Quiet m m' := by
  obtain ⟨⟨t, _⟩, hmy, hok⟩ := bind_ok hok
  have hcur := myThread_ok hmy
  dsimp only at hok
  rw [setThread_self, if_neg (by rw [hk]; exact Bool.false_ne_true)] at hok
  have hset : Quiet m (m.setThread t { m.threads t with channel := some channel, state := .sleeping, reason := true }) :=
    quiet_asleep h hcur (busy_running hb hcur) rfl rfl
  exact hset.trans (quiet_callYield hset.queued hcur hok)

theorem quiet_resume (h : Queued m) (hk : ∀ t, (m.threads t).killed = false) (hok : resume [] m = .ok m') : Quiet m m' := by
  obtain ⟨⟨t, _⟩, -, hok⟩ := bind_ok hok
  dsimp only at hok
  rw [setThread_self, if_neg (by rw [hk]; exact Bool.false_ne_true)] at hok
  cases hok
  exact Quiet.setThread h rfl rfl rfl rfl

theorem quiet_nanosleep {time : Nat} (h : Queued m) (hok : nanosleep time [] m = .ok m') : Quiet m m' := by
  obtain ⟨⟨t, _⟩, hmy, hok⟩ := bind_ok hok
  have hcur := myThread_ok hmy
  have hset : Quiet m (m.setThread t { m.threads t with awakeTime := time }) := Quiet.setThread h rfl rfl rfl rfl
  have hhart : Quiet (m.setThread t { m.threads t with awakeTime := time })
      { m.setThread t { m.threads t with awakeTime := time } with hart := update m.hart .a0 0 } :=
    ⟨fun _ => rfl, fun _ => rfl, rfl, rfl, rfl, rfl, rfl, fun _ => rfl, fun _ => rfl, fun _ hu => hu,
      ⟨hset.queued.state, hset.queued.pri, hset.queued.nodup⟩⟩
  exact hset.trans (hhart.trans (quiet_callYield hhart.queued hcur hok))

/-- A pass, when nobody is killed: it turns lists over. -/
theorem quiet_scan {now : Nat} {pris : List Nat} {r : Pass} (h : Queued m) (hk : ∀ t, (m.threads t).killed = false)
    (hok : scan now pris m = .ok (r, m')) :
    Quiet m m' ∧ r ≠ .restart ∧ ∀ t, r = .picked t → ∃ pri, t ∈ m'.priSchedList pri := by
  induction pris generalizing m with
  | nil =>
    cases hok
    exact ⟨Quiet.refl h, by simp, fun t ht => by cases ht⟩
  | cons pri pris ih =>
    unfold scan at hok
    split at hok
    · exact ih h hk hok
    · rename_i t rest hlist
      rw [if_neg (by rw [hk]; exact Bool.false_ne_true)] at hok
      split at hok
      · have hrot : (remove t m >>= insertTail t >>= scan now pris) = .ok (r, m') := by
          rw [bind_assoc]
          exact hok
        rw [h.rotate hlist, ok_bind] at hrot
        have hturned := h.rotated hlist
        have hquiet : Quiet m (m.setList pri (rest ++ [t])) := by
          refine ⟨fun _ => rfl, fun _ => rfl, rfl, rfl, rfl, rfl, rfl, fun _ => rfl, fun _ => rfl, fun u hu => ?_, hturned⟩
          rcases hu with hc | ⟨q, hl⟩ | hs
          · exact .inl hc
          · refine .inr (.inl ⟨q, ?_⟩)
            have hl' : u ∈ update m.priSchedList pri (rest ++ [t]) q := hl
            by_cases hq : q = pri
            · subst hq
              rw [update_self] at hl'
              rw [hlist]
              exact (tail_perm t rest).mem_iff.mp hl'
            · rw [update_of_ne hq] at hl'
              exact hl'
          · exact .inr (.inr hs)
        obtain ⟨hq, hr⟩ := ih hturned hk hrot
        exact ⟨hquiet.trans hq, hr⟩
      · cases hok
        refine ⟨Quiet.refl h, by simp, fun u hu => ?_⟩
        cases hu
        exact ⟨pri, by rw [hlist]; exact List.mem_cons_self ..⟩

/-- What a change of the frame or of the state leaves of a thread. -/
def Thread.same (th th' : Thread) : Prop := th'.killed = th.killed ∧ th'.process = th.process ∧ th'.pri = th.pri

theorem threadRun_spec (t : Nat) (m : Machine) : (∀ u, (m.threads u).same ((threadRun t m).threads u)) ∧
    (∀ u, u ≠ t → ((threadRun t m).threads u).state = (m.threads u).state) ∧
    threadRun t m = { m with threads := (threadRun t m).threads, currentThread := some t, hart := (threadRun t m).hart } := by
  have hset : ∀ m₀ : Machine, (∀ u, (m₀.threads u).same ((m₀.setThread t { m₀.threads t with state := .running, reason := false }).threads u)) ∧
      ∀ u, u ≠ t → ((m₀.setThread t { m₀.threads t with state := .running, reason := false }).threads u).state = (m₀.threads u).state :=
    fun m₀ => by
      refine ⟨fun u => ?_, fun u hu => by rw [setThread_of_ne m₀ _ hu]⟩
      by_cases hu : u = t
      · rw [hu, setThread_self]
        exact ⟨rfl, rfl, rfl⟩
      · rw [setThread_of_ne m₀ _ hu]
        exact ⟨rfl, rfl, rfl⟩
  unfold threadRun
  cases m.currentThread with
  | none => exact ⟨(hset m).1, (hset m).2, rfl⟩
  | some c =>
    have hsaved : ∀ u, (m.threads u).same ((m.setThread c { m.threads c with trapframe := m.hart }).threads u) ∧
        ((m.setThread c { m.threads c with trapframe := m.hart }).threads u).state = (m.threads u).state := fun u => by
      by_cases hu : u = c
      · rw [hu, setThread_self]
        exact ⟨⟨rfl, rfl, rfl⟩, rfl⟩
      · rw [setThread_of_ne m _ hu]
        exact ⟨⟨rfl, rfl, rfl⟩, rfl⟩
    obtain ⟨hsame, hstate⟩ := hset (m.setThread c { m.threads c with trapframe := m.hart })
    refine ⟨fun u => ?_, fun u hu => (hstate u hu).trans (hsaved u).2, rfl⟩
    obtain ⟨hk, hp, hpri⟩ := (hsaved u).1
    obtain ⟨hk', hp', hpri'⟩ := hsame u
    exact ⟨hk'.trans hk, hp'.trans hp, hpri'.trans hpri⟩

/-- A switch changes no membership. -/
theorem quiet_dispatch (h : Queued m) (hfutex : ∀ i, (m.futexQueue i).valid = false) (hlink : ∃ pri, t ∈ m.priSchedList pri)
    (hok : dispatch t m = .ok m') : Quiet m m' := by
  have hout : Quiet m (m.unlink t) := by
    refine ⟨fun _ => rfl, fun _ => rfl, rfl, rfl, rfl, rfl, rfl, fun _ => rfl, fun _ => rfl, fun u hu => ?_, ?_⟩
    · rcases hu with hc | ⟨pri, hl⟩ | hs
      · exact .inl hc
      · exact .inr (.inl ⟨pri, List.mem_of_mem_erase hl⟩)
      · exact .inr (.inr hs)
    · exact ⟨fun pri u hu => h.state pri u (List.mem_of_mem_erase hu), fun pri u hu => h.pri pri u (List.mem_of_mem_erase hu),
        fun pri => (h.nodup pri).erase t⟩
  have hgone : ∀ pri, t ∉ (m.unlink t).priSchedList pri := fun pri ht => ((h.nodup pri).mem_erase_iff.mp ht).1 rfl
  obtain ⟨m₁, h₁, hok⟩ := bind_ok hok
  have hm₁ : m₁ = m.unlink t := by
    unfold remove at h₁
    split at h₁
    · cases h₁
      rfl
    · cases h₁
  subst hm₁
  cases hok
  -- the thread is awake: its time, and the frame of the one that ran before
  have hawake : ∃ m₂ : Machine, Quiet (m.unlink t) m₂ ∧ m₂.priSchedList = (m.unlink t).priSchedList ∧
      (if ((m.unlink t).threads t).awakeTime > 0 then
        { (m.unlink t).setThread t { (m.unlink t).threads t with awakeTime := 0 } with
          hart := update (m.unlink t).hart .a0 0 }
      else m.unlink t) = m₂ := by
    refine ⟨_, ?_, ?_, rfl⟩
    · split
      · have hset : Quiet (m.unlink t) ((m.unlink t).setThread t { (m.unlink t).threads t with awakeTime := 0 }) :=
          Quiet.setThread hout.queued rfl rfl rfl rfl
        exact ⟨hset.record, hset.threadCount, hset.freeProcesses, hset.usedProcesses, hset.nextProcessId, hset.freeThreads,
          hset.futexQueue, hset.killed, hset.process, hset.attached, ⟨hset.queued.state, hset.queued.pri, hset.queued.nodup⟩⟩
      · exact Quiet.refl hout.queued
    · split <;> rfl
  obtain ⟨m₂, hquiet, hlists, heq⟩ := hawake
  rw [heq]
  have hclear : futexClear t m₂ = m₂ := by
    have hqueue : (futexClear t m₂).futexQueue = m₂.futexQueue := funext fun i => by
      show (if i < FUTEX_COUNT ∧ _ then _ else _) = _
      rw [if_neg]
      rintro ⟨-, hvalid, -⟩
      rw [hquiet.futexQueue, show (m.unlink t).futexQueue i = m.futexQueue i from rfl, hfutex] at hvalid
      cases hvalid
    show { m₂ with futexQueue := (futexClear t m₂).futexQueue } = m₂
    rw [hqueue]
  rw [hclear]
  have hall := hout.trans hquiet
  obtain ⟨hsame, hstate, hrest⟩ := threadRun_spec t m₂
  have hne : ∀ pri u, u ∈ m₂.priSchedList pri → u ≠ t := fun pri u hu hut => by
    rw [hlists] at hu
    exact hgone pri (hut ▸ hu)
  rw [hrest]
  refine ⟨hall.record, hall.threadCount, hall.freeProcesses, hall.usedProcesses, hall.nextProcessId, hall.freeThreads,
    hall.futexQueue, fun u => (hsame u).1.trans (hall.killed u), fun u => (hsame u).2.1.trans (hall.process u), fun u hu => ?_, ?_⟩
  · rcases hu with hc | ⟨pri, hl⟩ | hs
    · cases hc
      exact .inr (.inl hlink)
    · exact hall.attached u (.inr (.inl ⟨pri, hl⟩))
    · by_cases hut : u = t
      · rw [hut]
        exact .inr (.inl hlink)
      · exact hall.attached u (.inr (.inr (by rw [← hstate u hut]; exact hs)))
  · refine ⟨fun pri u hu => ?_, fun pri u hu => ?_, hall.queued.nodup⟩
    · exact (hstate u (hne pri u hu)).trans (hall.queued.state pri u hu)
    · have := hall.queued.pri pri u hu
      rw [← (hsame u).2.2] at this
      exact this

/-! ## The end of a thread -/

/-- Sleepers have been made ready, and descriptors may have been closed. -/
structure Rouse (m m' : Machine) : Prop where
  quiet : Quiet m m'
  thread : ∀ t, m'.threads t = m.threads t ∨ (m.threads t).state = .sleeping
  currentThread : m'.currentThread = m.currentThread

theorem Rouse.refl (h : Queued m) : Rouse m m := ⟨Quiet.refl h, fun _ => .inl rfl, rfl⟩

theorem Rouse.trans (h : Rouse m m₁) (h' : Rouse m₁ m') : Rouse m m' where
  quiet := h.quiet.trans h'.quiet
  thread := fun t => by
    rcases h.thread t with heq | hsleep
    · rw [← heq]
      exact h'.thread t
    · exact .inr hsleep
  currentThread := h'.currentThread.trans h.currentThread

/-- A move wakes threads at most. -/
theorem rouse_move (h : Queued m) (hmove : Move m m') : Rouse m m' := by
  have hrecord : ∀ p ofile, ∀ q, ((m.setProc p { m.procs p with ofile := ofile }).procs q).record = (m.procs q).record ∧
      ((m.setProc p { m.procs p with ofile := ofile }).procs q).threadCount = (m.procs q).threadCount := fun p ofile q => by
    show (update m.procs p _ q).record = _ ∧ (update m.procs p _ q).threadCount = _
    by_cases hq : q = p
    · rw [hq, update_self]
      exact ⟨rfl, rfl⟩
    · rw [update_of_ne hq]
      exact ⟨rfl, rfl⟩
  have hqueued : ∀ (files procs), Queued { m with files := files, procs := procs } := fun _ _ => ⟨h.state, h.pri, h.nodup⟩
  cases hmove with
  | file =>
    exact ⟨⟨fun _ => rfl, fun _ => rfl, rfl, rfl, rfl, rfl, rfl, fun _ => rfl, fun _ => rfl, fun _ hu => hu, hqueued _ _⟩,
      fun _ => .inl rfl, rfl⟩
  | slots p ofile =>
    exact ⟨⟨fun q => (hrecord p ofile q).1, fun q => (hrecord p ofile q).2, rfl, rfl, rfl, rfl, rfl, fun _ => rfl, fun _ => rfl,
      fun _ hu => hu, hqueued _ _⟩, fun _ => .inl rfl, rfl⟩
  | @ready u _ hsleep hok =>
    unfold enqueue insertTail at hok
    refine ⟨Quiet.put h (.inr (.inr hsleep)) (tail_perm u) hok, fun v => ?_, ?_⟩
    · unfold Machine.setState at hok
      obtain ⟨-, -, -, -, hthreads, -, -⟩ := insertWith_setThread hok
      by_cases hv : v = u
      · rw [hv]
        exact .inr hsleep
      · rw [hthreads, update_of_ne hv]
        exact .inl rfl
    · unfold Machine.setState at hok
      obtain ⟨-, -, -, -, -, -, hrest⟩ := insertWith_setThread hok
      rw [hrest]

theorem Moves.rouse (hmoves : Moves m m') (h : Queued m) : Rouse m m' := by
  induction hmoves with
  | refl => exact Rouse.refl h
  | tail _ hmove ih => exact ih.trans (rouse_move ih.quiet.queued hmove)

end Quiet

/-! ## Members -/

/-- `member` says which thread belongs to which process: every thread that is attached to one, and none that is
free. -/
structure Kin (m : Machine) (member : Nat → Option Nat) : Prop where
  queued : Queued m
  killed : ∀ t, (m.threads t).killed = false
  futex : ∀ i, (m.futexQueue i).valid = false
  process : ∀ t p, member t = some p → (m.threads t).process = some p
  attached : ∀ t, m.Attached t → ∃ p, member t = some p
  free : ∀ t ∈ m.freeThreads, member t = none ∧ t < PROCESS_TOTAL_NUMBER
  nodup : m.freeThreads.Nodup
  range : ∀ t p, member t = some p → t < PROCESS_TOTAL_NUMBER
  count : ∀ p, (m.procs p).threadCount = Count.fiber (Finset.range PROCESS_TOTAL_NUMBER) member (some p)
  alive : ∀ t p, member t = some p → p ∈ m.usedProcesses ∧ (m.procs p).state = .runnable

/-- What a step does to the processes: nothing, or one is taken and set up for the process with the id `caller`
or not, or one ends with `value`. -/
inductive Turn (caller value : Nat) (m m' : Machine) : Prop
  | still : m'.freeProcesses = m.freeProcesses → m'.usedProcesses = m.usedProcesses → m'.nextProcessId = m.nextProcessId →
      (∀ p, (m'.procs p).record = (m.procs p).record) → Turn caller value m m'
  | failed (c : Nat) (rest : List Nat) : m.freeProcesses = c :: rest → m'.freeProcesses = rest →
      m'.usedProcesses = c :: m.usedProcesses → m'.nextProcessId = m.nextProcessId →
      (∀ p, p ≠ c → (m'.procs p).record = (m.procs p).record) → (m'.procs c).state = .unused → Turn caller value m m'
  | born (c : Nat) (rest : List Nat) : m.freeProcesses = c :: rest → m'.freeProcesses = rest →
      m'.usedProcesses = c :: m.usedProcesses → m'.nextProcessId = (m.nextProcessId + 1) % 2 ^ 32 →
      (∀ p, p ≠ c → (m'.procs p).record = (m.procs p).record) →
      (m'.procs c).record = (makeId m'.nextProcessId c, caller, .runnable, 0) → Turn caller value m m'
  | died (p : Nat) : m'.freeProcesses = m.freeProcesses → m'.usedProcesses = m.usedProcesses → m'.nextProcessId = m.nextProcessId →
      (∀ q, q ≠ p → (m'.procs q).record = (m.procs q).record) → p ∈ m.usedProcesses → (m.procs p).state = .runnable →
      (m'.procs p).record = ((m.procs p).processId, (m.procs p).parentId, .zombie, value) → Turn caller value m m'

section Kin

variable {m m₁ m' : Machine} {member : Nat → Option Nat} {t p c caller value : Nat} {th : Thread} {pages : Pages}

theorem state_of_record {a b : Proc} (h : a.record = b.record) : a.state = b.state :=
  congrArg (fun r : Nat × Nat × ProcessState × Nat => r.2.2.1) h

theorem Quiet.turn (h : Quiet m m') : Turn caller value m m' :=
  .still h.freeProcesses h.usedProcesses h.nextProcessId h.record

theorem Kin.quiet (h : Kin m member) (hq : Quiet m m') : Kin m' member where
  queued := hq.queued
  killed := fun t => by rw [hq.killed, h.killed]
  futex := fun i => by rw [hq.futexQueue, h.futex]
  process := fun t p ht => by rw [hq.process, h.process t p ht]
  attached := fun t ht => h.attached t (hq.attached t ht)
  free := by rw [hq.freeThreads]; exact h.free
  nodup := by rw [hq.freeThreads]; exact h.nodup
  range := h.range
  count := fun p => by rw [hq.threadCount, h.count]
  alive := fun t p ht => by
    rw [hq.usedProcesses, state_of_record (hq.record p)]
    exact h.alive t p ht

/-- The thread that runs belongs to the process that `myThread` finds. -/
theorem Kin.member_current (h : Kin m member) (hmy : myThread m = .ok (t, p)) : member t = some p := by
  obtain ⟨q, hq⟩ := h.attached t (.inl (myThread_ok hmy))
  unfold myThread at hmy
  split at hmy
  · cases hmy
  · split at hmy
    · cases hmy
    · rename_i hproc
      cases hmy
      rw [h.process t q hq] at hproc
      cases hproc
      exact hq

theorem dropped_threadCount (m : Machine) (p t : Nat) : (m.dropped p t).threadCount = (m.procs p).threadCount - 1 := by
  unfold Machine.dropped
  dsimp only
  split <;> rfl

theorem dropped_record (m : Machine) (p t : Nat) : (m.dropped p t).record =
    if (m.procs p).threadCount - 1 = 0 then ((m.procs p).processId, (m.procs p).parentId, .zombie, (m.threads t).retValue)
    else (m.procs p).record := by
  unfold Machine.dropped
  dsimp only
  split <;> rfl

/-- The machine after a thread that ran has ended: nothing but its process has heard of it. -/
theorem destroy_ok (h : Queued m) (hfutex : ∀ i, (m.futexQueue i).valid = false) (hcur : m.currentThread = some t)
    (hrun : (m.threads t).state = .running) (hproc : (m.threads t).process = some p) (hok : destroy t [] m = .ok m') :
    ∃ m₂, Rouse (m.setProc p (m.dropped p t)) m₂ ∧ (m₂.threads t).state = .running ∧
      m' = { retire t m₂ with currentThread := none } := by
  obtain ⟨⟨own, m₄⟩, hd, hok⟩ := bind_ok hok
  obtain ⟨m₃, hfree, heq⟩ := map_ok hd
  obtain ⟨q, m₂, hq, hmoves, rfl⟩ := threadFree_idle hfutex hfree
  cases hproc.symm.trans hq
  have hrouse := hmoves.rouse ⟨h.state, h.pri, h.nodup⟩
  have hrun₂ : (m₂.threads t).state = .running := by
    rcases hrouse.thread t with hsame | hsleep
    · rw [hsame]
      exact hrun
    · rw [show (m.threads t).state = .sleeping from hsleep] at hrun
      cases hrun
  have hrunning : ProcessState.running ≠ .runnable := by decide
  rw [hrun₂, if_neg hrunning] at heq
  have hcur₂ : m₂.currentThread = some t := hrouse.currentThread.trans hcur
  rw [if_pos (show (retire t m₂).currentThread = some t from hcur₂)] at heq
  cases heq
  cases hok
  exact ⟨m₂, hrouse, hrun₂, rfl⟩

/-- A process whose last member has gone. -/
theorem Kin.count_leave (h : Kin m member) (hmember : member t = some p) (q : Nat) :
    (Count.fiber (Finset.range PROCESS_TOTAL_NUMBER) (update member t none) (some q) : Int) =
      if q = p then (m.procs p).threadCount - 1 else (m.procs q).threadCount := by
  have hchange := Count.fiber_change (f := member) (g := update member t none)
    (Finset.mem_range.mpr (h.range t p hmember)) (fun x _ hx => update_of_ne hx ..) (some q)
  have hnone : ¬ (none : Option Nat) = some q := fun heq => by cases heq
  rw [update_self, hmember, if_neg hnone] at hchange
  rw [h.count, h.count]
  by_cases hq : q = p
  · rw [if_pos hq, ← hq]
    rw [if_pos (congrArg some hq.symm)] at hchange
    omega
  · rw [if_neg hq]
    rw [if_neg fun heq => hq (Option.some.inj heq).symm] at hchange
    omega

/-- **The end of a thread** takes it out of its process, which ends with its last. -/
theorem Kin.exit (h : Kin m member) (hb : m.busy) {ec : Nat} (hok : Sched.exit ec [] m = .ok m') :
    ∃ member', Kin m' member' ∧ Turn caller ((ec <<< 8) % 2 ^ 32) m m' := by
  obtain ⟨⟨t, p⟩, hmy, hok⟩ := bind_ok hok
  have hmember := h.member_current hmy
  have hset : Quiet m (m.setThread t { m.threads t with retValue := (ec <<< 8) % 2 ^ 32 }) :=
    Quiet.setThread h.queued rfl rfl rfl rfl
  have hself := setThread_self m t { m.threads t with retValue := (ec <<< 8) % 2 ^ 32 }
  have hvalue : ((m.setThread t { m.threads t with retValue := (ec <<< 8) % 2 ^ 32 }).threads t).retValue = (ec <<< 8) % 2 ^ 32 := by
    rw [hself]
  have hcur := myThread_ok hmy
  obtain ⟨m₂, hrouse, hrun₂, rfl⟩ := destroy_ok hset.queued h.futex hcur
    (by rw [hself]; exact busy_running hb hcur) (by rw [hself]; exact h.process t p hmember) hok
  generalize m.setThread t { m.threads t with retValue := (ec <<< 8) % 2 ^ 32 } = m₁ at hset hrouse hvalue
  have hprocs : ∀ q, (m₂.procs q).record = if q = p then (m₁.dropped p t).record else (m.procs q).record := fun q => by
    rw [hrouse.quiet.record]
    show Proc.record (update m₁.procs p _ q) = _
    by_cases hq : q = p
    · rw [hq, update_self, if_pos rfl]
    · rw [update_of_ne hq, if_neg hq, hset.record]
  have hcounts : ∀ q, (m₂.procs q).threadCount = if q = p then (m.procs p).threadCount - 1 else (m.procs q).threadCount := fun q => by
    rw [hrouse.quiet.threadCount]
    show Proc.threadCount (update m₁.procs p _ q) = _
    by_cases hq : q = p
    · rw [hq, update_self, if_pos rfl, dropped_threadCount, hset.threadCount]
    · rw [update_of_ne hq, if_neg hq, hset.threadCount]
  have hqueued := hrouse.quiet.queued
  have hnot := hqueued.not_linked hrun₂
  have hthread : ∀ u, u ≠ t → (retire t m₂).threads u = m₂.threads u := fun u hu => setThread_of_ne m₂ _ hu
  have hself₂ : (retire t m₂).threads t = { m₂.threads t with state := .unused } := setThread_self ..
  have hfree : m₂.freeThreads = m.freeThreads := hrouse.quiet.freeThreads.trans hset.freeThreads
  have hkilled : ∀ u, (m₂.threads u).killed = false := fun u => by
    rw [hrouse.quiet.killed, show ((m₁.setProc p (m₁.dropped p t)).threads u).killed = (m₁.threads u).killed from rfl,
      hset.killed, h.killed]
  have hmem : ∀ u q, update member t none u = some q → u ≠ t ∧ member u = some q := fun u q hu => by
    by_cases hut : u = t
    · rw [hut, update_self] at hu
      cases hu
    · rw [update_of_ne hut] at hu
      exact ⟨hut, hu⟩
  refine ⟨update member t none, ⟨⟨fun pri u hu => ?_, fun pri u hu => ?_, hqueued.nodup⟩, fun u => ?_, fun i => ?_, fun u q hu => ?_,
    fun u hu => ?_, fun u hu => ?_, ?_, fun u q hu => ?_, fun q => ?_, fun u q hu => ?_⟩, ?_⟩
  · show ((retire t m₂).threads u).state = _
    rw [hthread u fun hut => hnot pri (hut ▸ hu)]
    exact hqueued.state pri u hu
  · show ((retire t m₂).threads u).pri = _ ∧ _
    rw [hthread u fun hut => hnot pri (hut ▸ hu)]
    exact hqueued.pri pri u hu
  · show ((retire t m₂).threads u).killed = _
    by_cases hut : u = t
    · rw [hut, hself₂]
      exact hkilled t
    · rw [hthread u hut]
      exact hkilled u
  · show (m₂.futexQueue i).valid = _
    rw [hrouse.quiet.futexQueue, show (m₁.setProc p (m₁.dropped p t)).futexQueue = m₁.futexQueue from rfl, hset.futexQueue]
    exact h.futex i
  · obtain ⟨hut, hold⟩ := hmem u q hu
    rw [hthread u hut, hrouse.quiet.process]
    exact (hset.process u).trans (h.process u q hold)
  · have hut : u ≠ t := fun hut => by
      subst hut
      rcases hu with hc | ⟨pri, hl⟩ | hs
      · cases hc
      · exact hnot pri hl
      · rw [show (retire u m₂).threads u = _ from hself₂] at hs
        cases hs
    have hatt₂ : m₂.Attached u := by
      rcases hu with hc | hl | hs
      · cases hc
      · exact .inr (.inl hl)
      · rw [show ({ retire t m₂ with currentThread := none } : Machine).threads u = m₂.threads u from hthread u hut] at hs
        exact .inr (.inr hs)
    obtain ⟨q, hq⟩ := h.attached u (hset.attached u (hrouse.quiet.attached u hatt₂))
    exact ⟨q, by rw [update_of_ne hut, hq]⟩
  · rcases List.mem_cons.mp hu with rfl | hu
    · exact ⟨update_self .., h.range u p hmember⟩
    · rw [hfree] at hu
      obtain ⟨hnone, hlt⟩ := h.free u (List.mem_of_mem_erase hu)
      refine ⟨?_, hlt⟩
      by_cases hut : u = t
      · rw [hut, update_self]
      · rw [update_of_ne hut, hnone]
  · show (t :: m₂.freeThreads.erase t).Nodup
    rw [hfree]
    exact List.nodup_cons.mpr ⟨fun ht => (h.nodup.mem_erase_iff.mp ht).1 rfl, h.nodup.erase t⟩
  · exact h.range u q (hmem u q hu).2
  · show (m₂.procs q).threadCount = _
    rw [h.count_leave hmember, hcounts]
  · obtain ⟨hut, hold⟩ := hmem u q hu
    obtain ⟨hused, hstate⟩ := h.alive u q hold
    refine ⟨?_, ?_⟩
    · show q ∈ m₂.usedProcesses
      rw [hrouse.quiet.usedProcesses, show (m₁.setProc p (m₁.dropped p t)).usedProcesses = m₁.usedProcesses from rfl,
        hset.usedProcesses]
      exact hused
    · show (m₂.procs q).state = _
      by_cases hqp : q = p
      · -- the process has another member, so this was not its last
        have hpos := Count.fiber_pos (Finset.mem_range.mpr (h.range u q hold)) hu
        have hleft := h.count_leave hmember q
        rw [if_pos hqp] at hleft
        have hrec := hprocs q
        rw [if_pos hqp, dropped_record, hset.threadCount, if_neg (by omega), hset.record, ← hqp] at hrec
        rw [state_of_record hrec, hstate]
      · have hrec := hprocs q
        rw [if_neg hqp] at hrec
        rw [state_of_record hrec, hstate]
  · have hlists : m₂.freeProcesses = m.freeProcesses ∧ m₂.usedProcesses = m.usedProcesses ∧ m₂.nextProcessId = m.nextProcessId :=
      ⟨hrouse.quiet.freeProcesses.trans hset.freeProcesses, hrouse.quiet.usedProcesses.trans hset.usedProcesses,
        hrouse.quiet.nextProcessId.trans hset.nextProcessId⟩
    have hid : (m₁.procs p).processId = (m.procs p).processId ∧ (m₁.procs p).parentId = (m.procs p).parentId := by
      have := hset.record p
      unfold Proc.record at this
      simp only [Prod.mk.injEq] at this
      exact ⟨this.1, this.2.1⟩
    obtain ⟨hused, hstate⟩ := h.alive t p hmember
    by_cases hlast : (m.procs p).threadCount - 1 = 0
    · refine .died p hlists.1 hlists.2.1 hlists.2.2 (fun q hq => (hprocs q).trans (if_neg hq)) hused hstate ?_
      show (m₂.procs p).record = _
      rw [hprocs, if_pos rfl, dropped_record, hset.threadCount, if_pos hlast, hid.1, hid.2, hvalue]
    · refine .still hlists.1 hlists.2.1 hlists.2.2 fun q => ?_
      show (m₂.procs q).record = _
      rw [hprocs]
      split
      · rename_i hq
        rw [dropped_record, hset.threadCount, if_neg hlast, hset.record, hq]
      · rfl

/-! ## New threads -/

/-- An id that has not wrapped. -/
theorem makeId_eq {next slot : Nat} (hnext : next < 2 ^ 21) (hslot : slot < PROCESS_TOTAL_NUMBER) :
    makeId next slot = next * 2 ^ 11 + slot := by
  have hlt : slot < 2 ^ 11 := Nat.lt_trans hslot (by decide)
  unfold makeId LOG_PROCESS_NUM
  rw [Nat.shiftLeft_eq, Nat.mod_eq_of_lt (by omega), Nat.mul_comm, ← Nat.two_pow_add_eq_or_of_lt hlt]

theorem takeThread_ok {sp : Nat} {new : Option Nat} (hok : takeThread pages sp m = .ok (new, m')) :
    (new = none ∧ m' = m) ∨ ∃ t rest th, m.freeThreads = t :: rest ∧ new = some t ∧ th.killed = false ∧ th.state = .runnable ∧
      m'.threads = update m.threads t th ∧
      m' = { m with threads := m'.threads, freeThreads := rest, usedThreads := t :: m.usedThreads, nextThreadId := m'.nextThreadId } := by
  unfold takeThread at hok
  split at hok
  · cases hok
    exact .inl ⟨rfl, rfl⟩
  · rename_i t rest hfree
    obtain ⟨m₁, h₁, hok⟩ := bind_ok hok
    unfold threadSetup at h₁
    split at h₁
    · cases h₁
      cases hok
      refine .inr ⟨t, rest, _, hfree, rfl, ?_, ?_, update_idem .., rfl⟩
      · show Thread.killed (update m.threads t _ t) = false
        rw [update_self]
      · rfl
    · cases h₁

/-- A thread that has been taken belongs to nobody. -/
theorem Kin.takeThread (h : Kin m member) {sp : Nat} {new : Option Nat} (hok : Sched.takeThread pages sp m = .ok (new, m')) :
    Kin m' member ∧ (m'.procs = m.procs ∧ m'.freeProcesses = m.freeProcesses ∧ m'.usedProcesses = m.usedProcesses ∧
      m'.nextProcessId = m.nextProcessId) ∧
      ∀ t, new = some t → t < PROCESS_TOTAL_NUMBER ∧ member t = none ∧ t ∉ m'.freeThreads := by
  rcases takeThread_ok hok with ⟨rfl, rfl⟩ | ⟨t, rest, th, hfree, rfl, hkilled, hstate, hthreads, hrest⟩
  · exact ⟨h, ⟨rfl, rfl, rfl, rfl⟩, fun t ht => by cases ht⟩
  obtain ⟨hnone, hlt⟩ := h.free t (by rw [hfree]; exact List.mem_cons_self ..)
  have hnodup := h.nodup
  rw [hfree] at hnodup
  obtain ⟨hnot, hnodup⟩ := List.nodup_cons.mp hnodup
  have hother : ∀ u, u ≠ t → m'.threads u = m.threads u := fun u hu => by rw [hthreads, update_of_ne hu]
  have hself : m'.threads t = th := by rw [hthreads, update_self]
  have hunattached : ¬ m.Attached t := fun hatt => by
    obtain ⟨q, hq⟩ := h.attached t hatt
    rw [hnone] at hq
    cases hq
  have hlists : m'.priSchedList = m.priSchedList := by rw [hrest]
  have hne : ∀ pri u, u ∈ m.priSchedList pri → u ≠ t := fun pri u hu hut => hunattached (.inr (.inl ⟨pri, hut ▸ hu⟩))
  have hprocs : m'.procs = m.procs := by rw [hrest]
  have hused : m'.usedProcesses = m.usedProcesses := by rw [hrest]
  have hthreads' : m'.freeThreads = rest := by rw [hrest]
  refine ⟨⟨⟨fun pri u hu => ?_, fun pri u hu => ?_, fun pri => ?_⟩, fun u => ?_, fun i => ?_, fun u q hu => ?_, fun u hu => ?_,
    fun u hu => ?_, ?_, h.range, fun q => ?_, fun u q hu => ?_⟩, ⟨hprocs, by rw [hrest], hused, by rw [hrest]⟩, fun u hu => ?_⟩
  · rw [hlists] at hu
    rw [hother u (hne pri u hu)]
    exact h.queued.state pri u hu
  · rw [hlists] at hu
    rw [hother u (hne pri u hu)]
    exact h.queued.pri pri u hu
  · rw [hlists]
    exact h.queued.nodup pri
  · by_cases hut : u = t
    · rw [hut, hself, hkilled]
    · rw [hother u hut, h.killed]
  · rw [show m'.futexQueue = m.futexQueue by rw [hrest], h.futex]
  · have hut : u ≠ t := fun hut => by
      rw [hut, hnone] at hu
      cases hu
    rw [hother u hut]
    exact h.process u q hu
  · refine h.attached u ?_
    rcases hu with hc | ⟨pri, hl⟩ | hs
    · exact .inl (by rw [show m'.currentThread = m.currentThread by rw [hrest]] at hc; exact hc)
    · exact .inr (.inl ⟨pri, by rw [← hlists]; exact hl⟩)
    · by_cases hut : u = t
      · rw [hut, hself, hstate] at hs
        cases hs
      · rw [hother u hut] at hs
        exact .inr (.inr hs)
  · rw [hthreads'] at hu
    exact h.free u (by rw [hfree]; exact List.mem_cons_of_mem _ hu)
  · rw [hthreads']
    exact hnodup
  · rw [hprocs]
    exact h.count q
  · rw [hprocs, hused]
    exact h.alive u q hu
  · cases hu
    exact ⟨hlt, hnone, by rw [hthreads']; exact hnot⟩

/-- A process that is taken has no member. -/
theorem Kin.processAlloc (h : Kin m member) (hdisj : ∀ c ∈ m.freeProcesses, c ∉ m.usedProcesses)
    {r : Int ⊕ Nat} (hok : Sched.processAlloc pages caller m = .ok (r, m')) :
    Kin m' member ∧ Turn caller value m m' ∧ m'.freeThreads = m.freeThreads ∧
      ∀ c, r = .inr c → c ∈ m'.usedProcesses ∧ (m'.procs c).state = .runnable := by
  have hkin : ∀ (c : Nat) (proc : Proc) (next : Nat), c ∈ m.freeProcesses → proc.threadCount = (m.procs c).threadCount →
      Kin { m.setProc c proc with
        freeProcesses := m.freeProcesses.tail, usedProcesses := c :: m.usedProcesses, nextProcessId := next } member :=
    fun c proc next hc hcount => by
      have hne : ∀ u q, member u = some q → q ≠ c := fun u q hu hq => hdisj c hc (hq ▸ (h.alive u q hu).1)
      refine ⟨⟨h.queued.state, h.queued.pri, h.queued.nodup⟩, h.killed, h.futex, h.process, h.attached, h.free, h.nodup, h.range,
        fun q => ?_, fun u q hu => ?_⟩
      · rw [← h.count q]
        show Proc.threadCount (update m.procs c proc q) = _
        by_cases hq : q = c
        · rw [hq, update_self, hcount]
        · rw [update_of_ne hq]
      · obtain ⟨hused, hstate⟩ := h.alive u q hu
        refine ⟨List.mem_cons_of_mem _ hused, ?_⟩
        show Proc.state (update m.procs c proc q) = _
        rw [update_of_ne (hne u q hu), hstate]
  unfold Sched.processAlloc at hok
  split at hok
  · cases hok
    exact ⟨h, .still rfl rfl rfl fun _ => rfl, rfl, fun c hc => by cases hc⟩
  · rename_i c rest hfree
    have hc : c ∈ m.freeProcesses := by rw [hfree]; exact List.mem_cons_self ..
    split at hok
    · cases hok
    · split at hok
      · cases hok
        have := hkin c { m.procs c with state := .unused, retValue := 0, parentId := 0 } m.nextProcessId hc rfl
        rw [hfree] at this
        refine ⟨this, .failed c rest hfree rfl rfl rfl (fun q hq => ?_) ?_, rfl, fun c hc => by cases hc⟩
        · show Proc.record (update m.procs c _ q) = _
          rw [update_of_ne hq]
        · show Proc.state (update m.procs c _ c) = _
          rw [update_self]
      · cases hok
        have hself : (({ m with freeProcesses := rest, usedProcesses := c :: m.usedProcesses } : Machine).setProc c
            { m.procs c with state := .unused, retValue := 0, parentId := 0 }).procs c =
            { m.procs c with state := .unused, retValue := 0, parentId := 0 } := update_self ..
        simp only [setProc_setProc, hself]
        have := hkin c { m.procs c with processId := makeId ((m.nextProcessId + 1) % 2 ^ 32) c, parentId := caller, state := .runnable, retValue := 0 }
          ((m.nextProcessId + 1) % 2 ^ 32) hc rfl
        rw [hfree] at this
        refine ⟨this, .born c rest hfree rfl rfl rfl (fun q hq => ?_) ?_, rfl, fun d hd => ?_⟩
        · show Proc.record (update m.procs c _ q) = _
          rw [update_of_ne hq]
        · show Proc.record (update m.procs c _ c) = _
          rw [update_self]
          rfl
        · cases hd
          refine ⟨List.mem_cons_self .., ?_⟩
          show Proc.state (update m.procs c _ c) = _
          rw [update_self]

/-- A thread joins a process. -/
theorem Kin.attach (h : Kin m member) (ht : t < PROCESS_TOTAL_NUMBER) (hnone : member t = none) (hfree : t ∉ m.freeThreads)
    (hused : p ∈ m.usedProcesses) (hstate : (m.procs p).state = .runnable) :
    Kin (Sched.attach t p m) (update member t (some p)) := by
  have hself : (Sched.attach t p m).threads t = { m.threads t with process := some p } := setThread_self ..
  have hother : ∀ u, u ≠ t → (Sched.attach t p m).threads u = m.threads u := fun u hu => setThread_of_ne m _ hu
  have hprocs : ∀ q, (Sched.attach t p m).procs q =
      if q = p then { m.procs p with threadCount := (m.procs p).threadCount + 1 } else m.procs q := fun q => by
    show update m.procs p _ q = _
    by_cases hq : q = p
    · rw [hq, update_self, if_pos rfl]
      rfl
    · rw [update_of_ne hq, if_neg hq]
  have hqueued : Queued (m.setThread t { m.threads t with process := some p }) := h.queued.setThread rfl rfl
  refine ⟨⟨hqueued.state, hqueued.pri, hqueued.nodup⟩, fun u => ?_, h.futex, fun u q hu => ?_, fun u hu => ?_, fun u hu => ?_, h.nodup,
    fun u q hu => ?_, fun q => ?_, fun u q hu => ?_⟩
  · by_cases hut : u = t
    · rw [hut, hself]
      exact h.killed t
    · rw [hother u hut]
      exact h.killed u
  · by_cases hut : u = t
    · rw [hut, update_self] at hu
      rw [hut, hself]
      exact hu
    · rw [update_of_ne hut] at hu
      rw [hother u hut]
      exact h.process u q hu
  · by_cases hut : u = t
    · exact ⟨p, by rw [hut, update_self]⟩
    · rw [update_of_ne hut]
      refine h.attached u ?_
      rcases hu with hc | hl | hs
      · exact .inl hc
      · exact .inr (.inl hl)
      · rw [hother u hut] at hs
        exact .inr (.inr hs)
  · have hut : u ≠ t := fun hut => hfree (hut ▸ hu)
    rw [update_of_ne hut]
    exact h.free u hu
  · by_cases hut : u = t
    · rw [hut]
      exact ht
    · rw [update_of_ne hut] at hu
      exact h.range u q hu
  · have hchange := Count.fiber_change (f := member) (g := update member t (some p))
      (Finset.mem_range.mpr ht) (fun x _ hx => update_of_ne hx ..) (some q)
    have hnever : ¬ (none : Option Nat) = some q := fun heq => by cases heq
    rw [update_self, hnone, if_neg hnever] at hchange
    rw [hprocs]
    split
    · rename_i hq
      subst hq
      rw [if_pos rfl] at hchange
      have := h.count q
      show (m.procs q).threadCount + 1 = _
      omega
    · rename_i hq
      rw [if_neg fun heq => hq (Option.some.inj heq).symm] at hchange
      rw [h.count q]
      omega
  · have hold : q ∈ m.usedProcesses ∧ (m.procs q).state = .runnable := by
      by_cases hut : u = t
      · rw [hut, update_self] at hu
        cases hu
        exact ⟨hused, hstate⟩
      · rw [update_of_ne hut] at hu
        exact h.alive u q hu
    refine ⟨hold.1, ?_⟩
    rw [hprocs]
    split
    · rename_i hq
      rw [← hq]
      exact hold.2
    · exact hold.2

/-- What the records do not show may follow a turn. -/
theorem Turn.after (h : Turn caller value m m₁) (hrecord : ∀ q, (m'.procs q).record = (m₁.procs q).record)
    (hfree : m'.freeProcesses = m₁.freeProcesses) (hused : m'.usedProcesses = m₁.usedProcesses)
    (hnext : m'.nextProcessId = m₁.nextProcessId) : Turn caller value m m' := by
  have hstate : ∀ q, (m'.procs q).state = (m₁.procs q).state := fun q => state_of_record (hrecord q)
  cases h with
  | still hf hu hn hr => exact .still (hfree.trans hf) (hused.trans hu) (hnext.trans hn) fun q => (hrecord q).trans (hr q)
  | failed c rest hc hf hu hn hr hs =>
    exact .failed c rest hc (hfree.trans hf) (hused.trans hu) (hnext.trans hn)
      (fun q hne => (hrecord q).trans (hr q hne)) ((hstate c).trans hs)
  | born c rest hc hf hu hn hr hs =>
    refine .born c rest hc (hfree.trans hf) (hused.trans hu) (hnext.trans hn) (fun q hne => (hrecord q).trans (hr q hne)) ?_
    rw [hnext]
    exact (hrecord c).trans hs
  | died d hf hu hn hr hd hs hz =>
    exact .died d (hfree.trans hf) (hused.trans hu) (hnext.trans hn)
      (fun q hne => (hrecord q).trans (hr q hne)) hd hs ((hrecord d).trans hz)

theorem Turn.quiet (h : Turn caller value m m₁) (hq : Quiet m₁ m') : Turn caller value m m' :=
  h.after hq.record hq.freeProcesses hq.usedProcesses hq.nextProcessId

theorem Turn.attach (h : Turn caller value m m₁) : Turn caller value m (Sched.attach t p m₁) := by
  refine h.after (fun q => ?_) rfl rfl rfl
  show Proc.record (update m₁.procs p _ q) = _
  by_cases hq : q = p
  · rw [hq, update_self]
    rfl
  · rw [update_of_ne hq]

theorem Turn.of_eq (h : Turn caller value m₁ m') (hprocs : m₁.procs = m.procs) (hfree : m₁.freeProcesses = m.freeProcesses)
    (hused : m₁.usedProcesses = m.usedProcesses) (hnext : m₁.nextProcessId = m.nextProcessId) : Turn caller value m m' := by
  cases h with
  | still hf hu hn hr =>
    rw [hfree] at hf
    rw [hused] at hu
    rw [hnext] at hn
    rw [hprocs] at hr
    exact .still hf hu hn hr
  | failed c rest hc hf hu hn hr hs =>
    rw [hfree] at hc
    rw [hused] at hu
    rw [hnext] at hn
    rw [hprocs] at hr
    exact .failed c rest hc hf hu hn hr hs
  | born c rest hc hf hu hn hr hs =>
    rw [hfree] at hc
    rw [hused] at hu
    rw [hnext] at hn
    rw [hprocs] at hr
    exact .born c rest hc hf hu hn hr hs
  | died d hf hu hn hr hd hs hz =>
    rw [hfree] at hf
    rw [hused] at hu hd
    rw [hnext] at hn
    rw [hprocs] at hr hs hz
    exact .died d hf hu hn hr hd hs hz

/-- A new thread with a process of its own, or nothing but what a failure leaves. -/
theorem Kin.mainThreadAlloc (h : Kin m member) (hdisj : ∀ c ∈ m.freeProcesses, c ∉ m.usedProcesses)
    {r : Int ⊕ Nat} (hok : Sched.mainThreadAlloc pages caller m = .ok (r, m')) :
    ∃ member', Kin m' member' ∧ Turn caller value m m' ∧ ∀ t, r = .inr t → ∃ p, member' t = some p := by
  obtain ⟨⟨new, m₁⟩, h₁, hok⟩ := bind_ok hok
  obtain ⟨hkin₁, ⟨hprocs, hfree, hused, hnext⟩, hnew⟩ := h.takeThread h₁
  have hstill : Turn caller value m m₁ := .still hfree hused hnext fun q => by rw [hprocs]
  cases new with
  | none =>
    cases hok
    exact ⟨member, hkin₁, hstill, fun t ht => by cases ht⟩
  | some t =>
    obtain ⟨hlt, hnone, hnot⟩ := hnew t rfl
    obtain ⟨⟨res, m₂⟩, h₂, hok⟩ := bind_ok hok
    have hdisj₁ : ∀ c ∈ m₁.freeProcesses, c ∉ m₁.usedProcesses := by
      rw [hfree, hused]
      exact hdisj
    obtain ⟨hkin₂, hturn₂, hfree₂, hres⟩ := hkin₁.processAlloc hdisj₁ h₂
    have hturn : Turn caller value m m₂ := hturn₂.of_eq hprocs hfree hused hnext
    cases res with
    | inl e =>
      cases hok
      exact ⟨member, hkin₂, hturn, fun t ht => by cases ht⟩
    | inr c =>
      cases hok
      obtain ⟨hc, hstate⟩ := hres c rfl
      refine ⟨_, hkin₂.attach hlt hnone (by rw [hfree₂]; exact hnot) hc hstate, hturn.attach, fun u hu => ?_⟩
      cases hu
      exact ⟨c, update_self ..⟩

/-- A member is put in its list. -/
theorem Kin.start (h : Kin m member) (ht : member t = some p) {policy priority : Int}
    (hok : Sched.start t policy priority m = .ok m') :
    Kin m' member ∧ m'.procs = m.procs ∧ m'.freeProcesses = m.freeProcesses ∧ m'.usedProcesses = m.usedProcesses ∧
      m'.nextProcessId = m.nextProcessId := by
  unfold Sched.start insertTail at hok
  have hqueued := h.queued.put rfl (tail_perm t) hok
  have hattached : ∀ u, m'.Attached u → m.Attached u ∨ u = t := fun u => attached_put (tail_perm t) hok
  obtain ⟨-, -, -, -, hthreads, -, hrest⟩ := insertWith_setThread hok
  have hsame : ∀ u, (m'.threads u).killed = (m.threads u).killed ∧ (m'.threads u).process = (m.threads u).process := fun u => by
    rw [hthreads]
    by_cases hu : u = t
    · rw [hu, update_self]
      exact ⟨rfl, rfl⟩
    · rw [update_of_ne hu]
      exact ⟨rfl, rfl⟩
  have hprocs : m'.procs = m.procs := by rw [hrest]
  have hused : m'.usedProcesses = m.usedProcesses := by rw [hrest]
  have hfree : m'.freeThreads = m.freeThreads := by rw [hrest]
  refine ⟨⟨hqueued, fun u => by rw [(hsame u).1, h.killed], fun i => by rw [show m'.futexQueue = m.futexQueue by rw [hrest], h.futex],
    fun u q hu => by rw [(hsame u).2, h.process u q hu], fun u hu => ?_, by rw [hfree]; exact h.free, by rw [hfree]; exact h.nodup,
    h.range, fun q => by rw [hprocs, h.count], fun u q hu => by rw [hprocs, hused]; exact h.alive u q hu⟩, hprocs, by rw [hrest], hused,
    by rw [hrest]⟩
  rcases hattached u hu with hold | rfl
  · exact h.attached u hold
  · exact ⟨p, ht⟩

/-- A creation that has its thread starts it with the frame `frame`. -/
theorem Kin.begin (h : Kin m₁ member) (hturn : Turn caller value m m₁) (ht : member t = some p)
    (hstate : th.state = (m₁.threads t).state) (hpri : th.pri = (m₁.threads t).pri)
    (hkilled : th.killed = (m₁.threads t).killed) (hprocess : th.process = (m₁.threads t).process) {policy priority : Int}
    (hok : Sched.start t policy priority (m₁.setThread t th) = .ok m') : Kin m' member ∧ Turn caller value m m' := by
  have hquiet := Quiet.setThread h.queued hstate hpri hkilled hprocess
  obtain ⟨hkin', hprocs, hfree, hused, hnext⟩ := (h.quiet hquiet).start ht hok
  exact ⟨hkin', (hturn.quiet hquiet).after (fun q => by rw [hprocs]) hfree hused hnext⟩

theorem Kin.processCreatePriority (h : Kin m member) (hdisj : ∀ c ∈ m.freeProcesses, c ∉ m.usedProcesses)
    {frame : Trapframe} (hok : Sched.processCreatePriority pages frame m = .ok m') :
    ∃ member', Kin m' member' ∧ Turn 0 value m m' := by
  obtain ⟨⟨res, m₁⟩, h₁, hok⟩ := bind_ok hok
  obtain ⟨member', hkin, hturn, hres⟩ := h.mainThreadAlloc hdisj h₁
  cases res with
  | inl e =>
    cases hok
    exact ⟨member', hkin, hturn⟩
  | inr t =>
    obtain ⟨p, hp⟩ := hres t rfl
    refine ⟨member', hkin.begin hturn hp ?_ ?_ ?_ ?_ hok⟩
    all_goals rfl

/-- A fork makes one child more. -/
theorem Kin.processFork (h : Kin m member) (hdisj : ∀ c ∈ m.freeProcesses, c ∉ m.usedProcesses) {r : Int}
    (hmy : myThread m = .ok (t, p)) (hok : Sched.processFork pages m = .ok (r, m')) :
    ∃ member', Kin m' member' ∧ Turn (m.procs p).processId value m m' := by
  unfold Sched.processFork at hok
  generalize List.range Files.NOFILE = slots at hok
  rw [hmy, ok_bind] at hok
  obtain ⟨⟨res, m₁⟩, h₁, hok⟩ := bind_ok hok
  obtain ⟨member', hkin, hturn, hres⟩ := h.mainThreadAlloc hdisj h₁
  cases res with
  | inl e =>
    cases hok
    exact ⟨member', hkin, hturn⟩
  | inr u =>
    obtain ⟨q, hq⟩ := hres u rfl
    dsimp only at hok
    split at hok
    · cases hok
    · obtain ⟨m₂, h₂, hok⟩ := bind_ok hok
      obtain ⟨m₃, h₃, hok⟩ := bind_ok hok
      cases hok
      have hslots : Quiet m₁ m₂ :=
        foldlM_inv h₂ (Quiet.refl hkin.queued) fun _ _ _ hc hs => hc.trans ((moves_forkSlot hs).rouse hc.queued).quiet
      refine ⟨member', (hkin.quiet hslots).begin (hturn.quiet hslots) hq ?_ ?_ ?_ ?_ h₃⟩
      all_goals rfl

/-- A new thread belongs to the process of its maker. -/
theorem Kin.threadFork (h : Kin m member) {stackVa tls ctid : Nat} {r : Int}
    (hmy : myThread m = .ok (t, p)) (hok : Sched.threadFork pages stackVa tls ctid m = .ok (r, m')) :
    ∃ member', Kin m' member' ∧ Turn caller value m m' := by
  unfold Sched.threadFork at hok
  rw [hmy, ok_bind] at hok
  obtain ⟨⟨res, m₁⟩, h₁, hok⟩ := bind_ok hok
  obtain ⟨⟨new, m₂⟩, h₂, h₁⟩ := bind_ok h₁
  obtain ⟨hkin₂, ⟨hprocs, hfree, hused, hnext⟩, hnew⟩ := h.takeThread h₂
  have hstill : Turn caller value m m₂ := .still hfree hused hnext fun q => by rw [hprocs]
  cases new with
  | none =>
    cases h₁
    cases hok
    exact ⟨member, hkin₂, hstill⟩
  | some u =>
    cases h₁
    obtain ⟨hlt, hnone, hnot⟩ := hnew u rfl
    obtain ⟨hp, hstate⟩ := h.alive t p (h.member_current hmy)
    have hkin := hkin₂.attach (p := p) hlt hnone hnot (by rw [hused]; exact hp) (by rw [hprocs]; exact hstate)
    obtain ⟨m₃, h₃, hok⟩ := bind_ok hok
    cases hok
    refine ⟨_, hkin.begin hstill.attach (update_self ..) ?_ ?_ ?_ ?_ h₃⟩
    all_goals rfl

end Kin

end Exaros.Sched
