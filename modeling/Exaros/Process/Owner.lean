import Exaros.Process.Family
import Exaros.Process.Live

/-!
# The process of the thread that runs

What a call on behalf of a thread does to the slots of its process rests on that process not being free. The
calls that make, kill and end threads never free a process; `wait` does, and in the runs of `Family` it takes
only processes that no thread runs in.
-/

namespace Exaros.Sched

open Loop Run

/-- The process of the thread that runs is not free. -/
def Owns (m : Machine) : Prop := ∀ t p, myThread m = .ok (t, p) → p ∉ m.freeProcesses

/-- The same thread runs, in its process, and no process has been freed. -/
structure Stays (m m' : Machine) : Prop where
  current : m'.currentThread = m.currentThread
  process : ∀ t, m.currentThread = some t → (m'.threads t).process = (m.threads t).process
  free : ∀ c ∈ m'.freeProcesses, c ∈ m.freeProcesses

section Stays

variable {m m₁ m' : Machine} {t p : Nat} {th : Thread}

theorem Stays.refl (m : Machine) : Stays m m := ⟨rfl, fun _ _ => rfl, fun _ hc => hc⟩

theorem Stays.trans (h : Stays m m₁) (h' : Stays m₁ m') : Stays m m' where
  current := h'.current.trans h.current
  process := fun t ht => (h'.process t (h.current.trans ht)).trans (h.process t ht)
  free := fun c hc => h.free c (h'.free c hc)

theorem Stays.myThread (h : Stays m m') : myThread m' = myThread m := by
  unfold Sched.myThread
  rw [h.current]
  cases hcur : m.currentThread with
  | none => rfl
  | some t =>
    dsimp only
    rw [h.process t hcur]

theorem Owns.stays (ho : Owns m) (h : Stays m m') : Owns m' := fun t p hmy hc =>
  ho t p (h.myThread.symm.trans hmy) (h.free p hc)

/-- A change that keeps the process of every thread. -/
theorem stays_of_process (hcur : m'.currentThread = m.currentThread) (hprocess : ∀ t, (m'.threads t).process = (m.threads t).process)
    (hfree : m'.freeProcesses = m.freeProcesses) : Stays m m' :=
  ⟨hcur, fun t _ => hprocess t, fun c hc => by rw [← hfree]; exact hc⟩

theorem stays_setThread (hprocess : th.process = (m.threads t).process) : Stays m (m.setThread t th) := by
  refine stays_of_process rfl (fun u => ?_) rfl
  by_cases hut : u = t
  · rw [hut, setThread_self, hprocess]
  · rw [setThread_of_ne m th hut]

/-- Whatever happens to a thread that does not run. -/
theorem stays_setThread_of_ne (hne : m.currentThread ≠ some t) : Stays m (m.setThread t th) := by
  refine ⟨rfl, fun u hu => ?_, fun _ hc => hc⟩
  have hut : u ≠ t := fun hut => hne (hut ▸ hu)
  rw [setThread_of_ne m th hut]

theorem stays_insertWith {f : List Nat → List Nat} (hok : insertWith f t m = .ok m') : Stays m m' := by
  obtain ⟨pri, -, -, -, rfl⟩ := insertWith_ok hok
  exact stays_of_process rfl (fun _ => rfl) rfl

theorem stays_enqueue (hok : enqueue t m = .ok m') : Stays m m' := by
  unfold enqueue insertTail at hok
  refine Stays.trans ?_ (stays_insertWith hok)
  exact stays_setThread rfl

theorem stays_setProc (proc : Proc) : Stays m (m.setProc p proc) := stays_of_process rfl (fun _ => rfl) rfl

/-- No move frees a process; one that ends becomes a zombie. -/
theorem Moves.stays (hmoves : Moves m m') : Stays m m' := by
  induction hmoves with
  | refl => exact Stays.refl m
  | tail _ hmove ih =>
    refine ih.trans ?_
    cases hmove with
    | file => exact stays_of_process rfl (fun _ => rfl) rfl
    | slots => exact stays_setProc _
    | ready _ hok => exact stays_enqueue hok

theorem stays_threadFree (hfutex : ∀ i, (m.futexQueue i).valid = false) (hok : threadFree t m = .ok m') : Stays m m' := by
  obtain ⟨p, m₁, -, hmoves, rfl⟩ := threadFree_idle hfutex hok
  have hunlink : Stays m₁ (if (m₁.threads t).state = .runnable then m₁.unlink t else m₁) := by
    split
    · exact stays_of_process rfl (fun _ => rfl) rfl
    · exact Stays.refl m₁
  have hretire : ∀ m₂ : Machine, Stays m₂ (retire t m₂) := fun m₂ => by
    have hset : Stays m₂ (m₂.setState t .unused) := stays_setThread rfl
    exact ⟨rfl, hset.process, hset.free⟩
  exact (((stays_setProc _).trans hmoves.stays).trans hunlink).trans (hretire _)

theorem stays_sigkill (hok : sigkill t m = .ok m') : Stays m m' := by
  obtain ⟨m₁, h₁, hok⟩ := bind_ok hok
  cases hok
  have hq : Stays m m₁ := by
    split at h₁
    · exact stays_enqueue h₁
    · cases h₁
      exact Stays.refl m
  exact hq.trans (stays_setThread rfl)

theorem stays_start {policy priority : Int} (hok : start t policy priority m = .ok m') : Stays m m' := by
  unfold start insertTail at hok
  refine Stays.trans ?_ (stays_insertWith hok)
  exact stays_setThread rfl

theorem stays_attach (hne : m.currentThread ≠ some t) : Stays m (attach t p m) :=
  (stays_setThread_of_ne hne).trans (stays_setProc _)

/-- A new thread is not the one that runs. -/
theorem stays_takeThread (ho : Orderly m) {pages : Pages} {sp : Nat} {new : Option Nat}
    (hok : takeThread pages sp m = .ok (new, m')) : Stays m m' ∧ ∀ t, new = some t → m'.currentThread ≠ some t := by
  rcases takeThread_ok hok with ⟨rfl, rfl⟩ | ⟨t, rest, th, hfree, rfl, -, -, hthreads, hrest⟩
  · exact ⟨Stays.refl m', fun t ht => by cases ht⟩
  · have hnodup := ho.nodup
    rw [hfree] at hnodup
    have hne : m.currentThread ≠ some t := fun hcur =>
      (List.nodup_append.mp hnodup).2.2 t (ho.current t hcur) t (List.mem_cons_self ..) rfl
    refine ⟨⟨by rw [hrest], fun u hu => ?_, fun c hc => ?_⟩, fun u hu => ?_⟩
    · have hut : u ≠ t := fun hut => hne (hut ▸ hu)
      rw [hthreads, Function.update_of_ne hut]
    · rw [hrest] at hc
      exact hc
    · cases hu
      rw [hrest]
      exact hne

/-- A new process was free. -/
theorem stays_processAlloc {pages : Pages} {parentId : Nat} {r : Int ⊕ Nat} (hok : processAlloc pages parentId m = .ok (r, m')) :
    Stays m m' ∧ ∀ c, r = .inr c → c ∈ m.freeProcesses := by
  rcases processAlloc_taken hok with ⟨⟨e, rfl⟩, rfl⟩ | ⟨p, rest, hfree, hnew, hm'⟩
  · exact ⟨Stays.refl m', fun c hc => by cases hc⟩
  · refine ⟨⟨by rw [hm'], fun _ _ => by rw [hm'], fun c hc => ?_⟩, fun c hc => ?_⟩
    · rw [hm'] at hc
      rw [hfree]
      exact List.mem_cons_of_mem _ hc
    · rw [hnew c hc, hfree]
      exact List.mem_cons_self ..

/-- A thread runs whose process is not free. -/
theorem owns_threadRun (hprocess : (m.threads t).process = some p) (hfree : p ∉ m.freeProcesses) : Owns (threadRun t m) := by
  obtain ⟨hsame, -, hrest⟩ := threadRun_spec t m
  have hcur : (threadRun t m).currentThread = some t := by rw [hrest]
  have hproc : ((threadRun t m).threads t).process = some p := (hsame t).2.1.trans hprocess
  intro u q hmy
  unfold Sched.myThread at hmy
  rw [hcur] at hmy
  dsimp only at hmy
  rw [hproc] at hmy
  cases hmy
  rw [hrest]
  exact hfree

end Stays

/-- **In the runs of `Family`** no thread runs in a process that is free. -/
theorem Family.current_not_free {w : Family} (h : w.Reached) : Owns w.machine := fun t p hmy hfree => by
  obtain ⟨⟨member, hkin⟩, hledger⟩ := inv_of_reached h
  exact hledger.disjoint p hfree (hkin.alive t p (hkin.member_current hmy)).1

/-- The child has exited, and the parent runs. -/
theorem Family.current_not_free_child : ∃ w : Family, w.machine.busy ∧ (w.machine.procs 1).state = .zombie ∧ Owns w.machine := by
  obtain ⟨w, hreached, hbusy, hzombie, -⟩ := childRun_reached
  exact ⟨w, hbusy, hzombie, Family.current_not_free hreached⟩

end Exaros.Sched
