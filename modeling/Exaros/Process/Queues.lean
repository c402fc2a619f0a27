import Exaros.Process.Threads

/-!
# What waking does to the run queues

Everything that makes threads ready from outside (`wakeup`, `futexWake`, and through them the end of a
process) does one thing to the run queues: threads that were not `RUNNABLE` become so and stand at the ends
of their lists. `Wakes` says that once; it composes, so a loop has it as soon as its turns do.
-/

namespace Exaros.Sched

open Loop

/-- Policy and priority of every thread. -/
def params (m : Machine) (t : Nat) : Int × Int := ((m.threads t).schedPolicy, (m.threads t).schedPriority)

/-- Policies the scheduler knows and a list for the priority. -/
def Thread.InRange (th : Thread) : Prop :=
  (th.schedPolicy = SCHED_OTHER ∨ th.schedPolicy = SCHED_FIFO) ∧ 0 ≤ th.pri ∧ th.pri < PRI_COUNT

def InRange (m : Machine) : Prop := ∀ t, (m.threads t).InRange

/-- The errors that come of a policy or priority out of range. -/
def Halt.OutOfRange : Halt → Prop
  | .outOfBounds _ => True
  | .schedPolicy _ => True
  | _ => False

/-- The errors a machine with its parameters in range does not meet. -/
def Spared (m : Machine) (e : Halt) : Prop := InRange m → ¬ e.OutOfRange

/-- `m'` is `m` with some threads made ready. -/
structure Wakes (m m' : Machine) : Prop where
  params : params m' = params m
  killed : ∀ t, (m'.threads t).killed = (m.threads t).killed
  awakeTime : ∀ t, (m'.threads t).awakeTime = (m.threads t).awakeTime
  current : m'.currentThread = m.currentThread
  state : ∀ t, (m'.threads t).state = (m.threads t).state ∨
    (m.threads t).state ≠ .runnable ∧ (m'.threads t).state = .runnable
  lists : ∀ pri, ∃ l, m'.priSchedList pri = m.priSchedList pri ++ l ∧ l.Nodup ∧
    ∀ t ∈ l, (m.threads t).state ≠ .runnable ∧ (m'.threads t).state = .runnable ∧ (m.threads t).pri = pri ∧ pri < PRI_COUNT
  queued : ∀ t, (m.threads t).state ≠ .runnable → (m'.threads t).state = .runnable →
    ∃ pri, t ∈ m'.priSchedList pri ∧ (m.threads t).pri = pri

section Params

variable {m m' : Machine} {t : Nat}

theorem pri_of_params (h : params m' = params m) (t : Nat) : (m'.threads t).pri = (m.threads t).pri := by
  have := congrArg Prod.snd (congrFun h t)
  show 99 - (m'.threads t).schedPriority = 99 - (m.threads t).schedPriority
  rw [show (m'.threads t).schedPriority = (m.threads t).schedPriority from this]

theorem InRange.of_params (h : params m' = params m) (hm : InRange m) : InRange m' := fun t => by
  obtain ⟨hpol, hpri⟩ := hm t
  refine ⟨?_, by rw [pri_of_params h]; exact hpri⟩
  have := congrArg Prod.fst (congrFun h t)
  rw [show (m'.threads t).schedPolicy = (m.threads t).schedPolicy from this]
  exact hpol

theorem Spared.of_params {e : Halt} (h : params m' = params m) (he : Spared m' e) : Spared m e :=
  fun hm => he (hm.of_params h)

/-- A change of a thread that keeps its policy and its priority. -/
theorem params_setThread {th : Thread} (hpol : th.schedPolicy = (m.threads t).schedPolicy)
    (hpri : th.schedPriority = (m.threads t).schedPriority) : params (m.setThread t th) = params m := by
  funext u
  unfold params Machine.setThread
  by_cases hu : u = t
  · subst hu
    simp only [Function.update_self, hpol, hpri]
  · simp only [Function.update_of_ne hu]

end Params

/-! ## Composition -/

section Compose

variable {m m' m'' : Machine}

theorem Wakes.refl (m : Machine) : Wakes m m where
  params := rfl
  killed := fun _ => rfl
  awakeTime := fun _ => rfl
  current := rfl
  state := fun _ => .inl rfl
  lists := fun pri => ⟨[], by simp⟩
  queued := fun t h h' => absurd h' h

/-- Threads that are ready stay so. -/
theorem Wakes.runnable (h : Wakes m m') {t : Nat} (ht : (m.threads t).state = .runnable) :
    (m'.threads t).state = .runnable := by
  rcases h.state t with hs | ⟨hne, -⟩
  · rw [hs, ht]
  · exact absurd ht hne

theorem Wakes.mem (h : Wakes m m') {t pri : Nat} (ht : t ∈ m.priSchedList pri) : t ∈ m'.priSchedList pri := by
  obtain ⟨l, hl, -⟩ := h.lists pri
  rw [hl]
  exact List.mem_append_left _ ht

/-- One wake after another. -/
theorem Wakes.trans (h : Wakes m m') (h' : Wakes m' m'') : Wakes m m'' where
  params := h'.params.trans h.params
  killed := fun t => (h'.killed t).trans (h.killed t)
  awakeTime := fun t => (h'.awakeTime t).trans (h.awakeTime t)
  current := h'.current.trans h.current
  state := fun t => by
    rcases h.state t with hs | ⟨hne, hr⟩
    · rw [← hs]
      exact h'.state t
    · exact .inr ⟨hne, h'.runnable hr⟩
  lists := fun pri => by
    obtain ⟨l, hl, hnd, hmem⟩ := h.lists pri
    obtain ⟨l', hl', hnd', hmem'⟩ := h'.lists pri
    refine ⟨l ++ l', by rw [hl', hl, List.append_assoc], ?_, fun t ht => ?_⟩
    · refine List.nodup_append.mpr ⟨hnd, hnd', fun a ha b hb hab => ?_⟩
      exact (hmem' b hb).1 (hab ▸ (hmem a ha).2.1)
    · rcases List.mem_append.mp ht with ht | ht
      · obtain ⟨hne, hr, hp⟩ := hmem t ht
        exact ⟨hne, h'.runnable hr, hp⟩
      · obtain ⟨hne, hr, hp⟩ := hmem' t ht
        rw [pri_of_params h.params] at hp
        exact ⟨fun hrun => hne (h.runnable hrun), hr, hp⟩
  queued := fun t hne hr => by
    by_cases hmid : (m'.threads t).state = .runnable
    · obtain ⟨pri, ht, hp⟩ := h.queued t hne hmid
      exact ⟨pri, h'.mem ht, hp⟩
    · obtain ⟨pri, ht, hp⟩ := h'.queued t hmid hr
      rw [pri_of_params h.params] at hp
      exact ⟨pri, ht, hp⟩

/-- A change that no list and nothing of a thread but its frame sees. -/
theorem Wakes.of_frame (hthreads : ∀ t, ∃ frame, m'.threads t = { m.threads t with trapframe := frame })
    (hlists : m'.priSchedList = m.priSchedList) (hcur : m'.currentThread = m.currentThread) : Wakes m m' where
  params := funext fun t => by
    obtain ⟨frame, ht⟩ := hthreads t
    unfold Sched.params
    rw [ht]
  killed := fun t => by
    obtain ⟨frame, ht⟩ := hthreads t
    rw [ht]
  awakeTime := fun t => by
    obtain ⟨frame, ht⟩ := hthreads t
    rw [ht]
  current := hcur
  state := fun t => by
    obtain ⟨frame, ht⟩ := hthreads t
    rw [ht]
    exact .inl rfl
  lists := fun pri => ⟨[], by simp [hlists]⟩
  queued := fun t hne hr => by
    obtain ⟨frame, ht⟩ := hthreads t
    rw [ht] at hr
    exact absurd hr hne

theorem Wakes.of_eq (hthreads : m'.threads = m.threads) (hlists : m'.priSchedList = m.priSchedList)
    (hcur : m'.currentThread = m.currentThread) : Wakes m m' :=
  Wakes.of_frame (fun t => ⟨(m.threads t).trapframe, by rw [hthreads]⟩) hlists hcur

end Compose

/-! ## The functions that wake -/

/-- What a function that wakes may come to. -/
def Woken (m : Machine) (r : Except Halt Machine) : Prop := Outcome (Spared m) (Wakes m) r

section Woken

variable {m m' : Machine} {t : Nat}

theorem Woken.after (h : Wakes m m') {r : Except Halt Machine} (hr : Woken m' r) : Woken m r :=
  Outcome.mono hr (fun _ => Spared.of_params h.params) fun _ => h.trans

theorem Woken.bind {r : Except Halt Machine} {f : Machine → Except Halt Machine} (h : Woken m r)
    (hf : ∀ m', Wakes m m' → Woken m' (f m')) : Woken m (r >>= f) :=
  Outcome.bind h fun m' hm' => (hf m' hm').after hm'

theorem woken_foldlM {α : Type} {f : Machine → α → Except Halt Machine} (l : List α) (hf : ∀ m a, Woken m (f m a)) :
    Woken m (l.foldlM f m) :=
  outcome_foldlM l (Wakes.refl m) fun m' a hm' => (hf m' a).after hm'

theorem insertWith_error {f : List Nat → List Nat} {e : Halt} (h : insertWith f t m = .error e)
    (hm : (m.threads t).InRange) : ¬ e.OutOfRange := by
  unfold insertWith at h
  rw [if_pos hm.2] at h
  split at h
  · cases h
    exact id
  · cases h

theorem insertWith_ok {f : List Nat → List Nat} (h : insertWith f t m = .ok m') :
    ∃ pri, (m.threads t).pri = (pri : Nat) ∧ pri < PRI_COUNT ∧ m.linked t = false ∧ m' = m.setList pri (f (m.priSchedList pri)) := by
  unfold insertWith at h
  by_cases hpri : 0 ≤ (m.threads t).pri ∧ (m.threads t).pri < PRI_COUNT
  · rw [if_pos hpri] at h
    by_cases hl : m.linked t = true
    · rw [if_pos hl] at h
      cases h
    · rw [if_neg hl] at h
      cases h
      exact ⟨_, (Int.toNat_of_nonneg hpri.1).symm, (Int.toNat_lt hpri.1).mpr hpri.2, by simpa using hl, rfl⟩
  · rw [if_neg hpri] at h
    cases h

theorem not_mem_of_linked (h : m.linked t = false) {pri : Nat} (hpri : pri < PRI_COUNT) : t ∉ m.priSchedList pri := fun ht => by
  have : m.linked t = true := List.any_eq_true.mpr ⟨pri, List.mem_range.mpr hpri, decide_eq_true ht⟩
  rw [h] at this
  cases this

/-- A thread put in a list may run. -/
theorem woken_enqueue (ht : (m.threads t).state ≠ .runnable) : Woken m (enqueue t m) := by
  have hpar : params (m.setState t .runnable) = params m := params_setThread rfl rfl
  unfold enqueue insertTail
  cases h : insertWith (· ++ [t]) t (m.setState t .runnable) with
  | error e => exact .error fun hm => insertWith_error h (hm.of_params hpar t)
  | ok m' =>
    obtain ⟨pri, hp, hlt, -, rfl⟩ := insertWith_ok h
    rw [pri_of_params hpar] at hp
    have hself : ((m.setState t .runnable).threads t).state = .runnable := by
      simp [Machine.setState, Machine.setThread]
    have hother : ∀ u, u ≠ t → (m.setState t .runnable).threads u = m.threads u := fun u hu => by
      simp [Machine.setState, Machine.setThread, hu]
    refine .ok ⟨hpar, fun u => ?_, fun u => ?_, rfl, fun u => ?_, fun q => ?_, fun u hne hr => ?_⟩
    · by_cases hu : u = t
      · subst hu
        simp [Machine.setList, Machine.setState, Machine.setThread]
      · show ((m.setState t .runnable).threads u).killed = _
        rw [hother u hu]
    · by_cases hu : u = t
      · subst hu
        simp [Machine.setList, Machine.setState, Machine.setThread]
      · show ((m.setState t .runnable).threads u).awakeTime = _
        rw [hother u hu]
    · by_cases hu : u = t
      · subst hu
        exact .inr ⟨ht, hself⟩
      · left
        show ((m.setState t .runnable).threads u).state = _
        rw [hother u hu]
    · by_cases hq : q = pri
      · subst hq
        refine ⟨[t], by simp [Machine.setList, Machine.setState, Machine.setThread], List.nodup_singleton t, fun u hu => ?_⟩
        rw [List.mem_singleton] at hu
        subst hu
        exact ⟨ht, hself, hp, hlt⟩
      · exact ⟨[], by simp [Machine.setList, Machine.setState, Machine.setThread, hq]⟩
    · by_cases hu : u = t
      · subst hu
        exact ⟨pri, by simp [Machine.setList], hp⟩
      · refine absurd ?_ hne
        have : ((m.setState t .runnable).threads u).state = .runnable := hr
        rw [hother u hu] at this
        exact this

theorem woken_wakeup (channel : Chan) : Woken m (wakeup channel m) := by
  refine woken_foldlM _ fun m t => ?_
  unfold wakeOne
  split
  · rename_i hs
    refine woken_enqueue ?_
    rw [hs.1]
    decide
  · exact .ok (Wakes.refl m)

/-- One turn of `futexWake`, whatever is left to wake. -/
theorem woken_futexWakeOne (addr : Nat) (n : Int) (i : Nat) :
    Outcome (Spared m) (fun s : Int × Machine => Wakes m s.2) (futexWakeOne addr (n, m) i) := by
  unfold futexWakeOne
  dsimp only
  split
  · have henq : Woken m (if (m.threads (m.futexQueue i).thread).state ≠ .runnable then enqueue (m.futexQueue i).thread m
        else .ok m) := by
      split
      · exact woken_enqueue ‹_›
      · exact .ok (Wakes.refl m)
    refine Outcome.bind henq fun m₁ h₁ => ?_
    refine .ok (h₁.trans (Wakes.of_frame (fun u => ?_) rfl rfl))
    by_cases hu : u = (m.futexQueue i).thread
    · subst hu
      exact ⟨_, by simp only [Machine.setThread, Function.update_self]; rfl⟩
    · exact ⟨(m₁.threads u).trapframe, by simp only [Machine.setThread, Function.update_of_ne hu]⟩
  · exact .ok (Wakes.refl m)

theorem woken_futexWake (addr : Nat) (n : Int) : Woken m (futexWake addr n m) := by
  refine Outcome.map (Q := fun s : Int × Machine => Wakes m s.2) ?_ fun s hs => hs
  refine outcome_foldlM _ (Wakes.refl m) fun s i hs => ?_
  obtain ⟨n, m₁⟩ := s
  exact (woken_futexWakeOne addr n i).mono (fun _ => Spared.of_params hs.params) fun _ => hs.trans

theorem wakes_setFile (f : Nat) (file : Files.File) : Wakes m (m.setFile f file) := Wakes.of_eq rfl rfl rfl

theorem wakes_setProc (p : Nat) (proc : Proc) : Wakes m (m.setProc p proc) := Wakes.of_eq rfl rfl rfl

theorem woken_fileclose (f : Nat) : Woken m (fileclose f m) := by
  unfold fileclose
  dsimp only
  split
  · exact .error fun _ => id
  split
  · exact .ok (wakes_setFile f _)
  split
  · exact Woken.after (wakes_setFile f _) (woken_wakeup _)
  · exact .ok (wakes_setFile f _)

theorem woken_freeSlot (p fd : Nat) : Woken m (freeSlot p m fd) := by
  unfold freeSlot
  split
  · exact .ok (Wakes.refl m)
  · exact Outcome.map (woken_fileclose _) fun m' h => h.trans (Wakes.of_eq rfl rfl rfl)

theorem woken_wakeParent (p : Nat) : Woken m (wakeParent p m) := by
  unfold wakeParent
  split
  · split
    · exact woken_wakeup _
    · exact .ok (Wakes.refl m)
  · exact .ok (Wakes.refl m)

theorem woken_processFree (p : Nat) : Woken m (processFree p m) := by
  unfold processFree
  generalize List.range Files.NOFILE = slots
  have hslots : Woken m (slots.foldlM (freeSlot p) (m.setProc p { m.procs p with state := .zombie })) :=
    Woken.after (wakes_setProc p _) (woken_foldlM slots fun m fd => woken_freeSlot p fd)
  exact hslots.bind fun m' _ => woken_wakeParent p

theorem woken_dropThread (p t : Nat) : Woken m (dropThread p t m) := by
  unfold dropThread
  dsimp only
  split
  · refine Woken.after ?_ (woken_processFree p)
    exact (wakes_setProc p _).trans (wakes_setProc p _)
  · exact .ok (wakes_setProc p _)

/-! ## `threadFree` -/

/-- The lists without a thread. -/
def Machine.unlink (m : Machine) (t : Nat) : Machine := { m with priSchedList := fun pri => (m.priSchedList pri).erase t }

/-- **The end of a thread**: some threads are made ready, and then it leaves its list and `usedThreads`. -/
theorem threadFree_spec : Outcome (Spared m) (fun m' => ∃ m₁, Wakes m m₁ ∧
      m' = retire t (if (m₁.threads t).state = .runnable then m₁.unlink t else m₁)) (threadFree t m) := by
  unfold threadFree
  split
  · exact .error fun _ => id
  · rename_i p _
    have hwake : Woken m (if (m.threads t).clearChildTid ≠ 0 then futexWake (m.threads t).clearChildTid 1 m else .ok m) := by
      split
      · exact woken_futexWake _ _
      · exact .ok (Wakes.refl m)
    refine Outcome.bind hwake fun m₁ h₁ => ?_
    refine Outcome.bind ((woken_dropThread p t).after h₁) fun m₂ h₂ => ?_
    by_cases hs : (m₂.threads t).state = .runnable
    · simp only [hs, if_true]
      unfold remove
      split
      · exact .ok ⟨m₂, h₂, by rw [if_pos hs]; rfl⟩
      · exact .error fun _ => id
    · simp only [hs, if_false]
      exact .ok ⟨m₂, h₂, by rw [if_neg hs]⟩

end Woken

end Exaros.Sched
