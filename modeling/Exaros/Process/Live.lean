import Exaros.Process.Members

/-!
# Threads that are live

A thread is live while `usedThreads` links it. Nothing but the making and the end of a thread changes which
ones are, and as long as nobody waits on a futex, only live threads run, are made ready or get a state.
-/

namespace Exaros.Sched

open Loop

/-- A thread that runs or has a state is live, and nobody waits on a futex. -/
structure Orderly (m : Machine) : Prop where
  state : ∀ t, (m.threads t).state ≠ .unused → t ∈ m.usedThreads
  current : ∀ t, m.currentThread = some t → t ∈ m.usedThreads
  futex : ∀ i, (m.futexQueue i).valid = false
  nodup : (m.usedThreads ++ m.freeThreads).Nodup

/-- The same threads are live, and only they have been touched. -/
structure Idles (m m' : Machine) : Prop where
  used : m'.usedThreads = m.usedThreads
  free : m'.freeThreads = m.freeThreads
  futex : m'.futexQueue = m.futexQueue
  state : ∀ t, t ∉ m.usedThreads → (m'.threads t).state = (m.threads t).state
  current : ∀ t, m'.currentThread = some t → m.currentThread = some t ∨ t ∈ m.usedThreads

section Idles

variable {m m₁ m' : Machine} {t p : Nat} {th : Thread}

theorem Idles.refl (m : Machine) : Idles m m := ⟨rfl, rfl, rfl, fun _ _ => rfl, fun _ => .inl⟩

theorem Idles.trans (h : Idles m m₁) (h' : Idles m₁ m') : Idles m m' where
  used := h'.used.trans h.used
  free := h'.free.trans h.free
  futex := h'.futex.trans h.futex
  state := fun t ht => (h'.state t (h.used ▸ ht)).trans (h.state t ht)
  current := fun t ht => by
    rcases h'.current t ht with hc | hu
    · exact h.current t hc
    · exact .inr (h.used ▸ hu)

theorem Orderly.idles (ho : Orderly m) (h : Idles m m') : Orderly m' where
  state := fun t ht => by
    rw [h.used]
    by_contra hn
    rw [h.state t hn] at ht
    exact hn (ho.state t ht)
  current := fun t ht => by
    rw [h.used]
    rcases h.current t ht with hc | hu
    · exact ho.current t hc
    · exact hu
  futex := fun i => by
    rw [h.futex]
    exact ho.futex i
  nodup := by
    rw [h.used, h.free]
    exact ho.nodup

/-- Whatever happens to a thread that is live. -/
theorem idles_setThread (ht : t ∈ m.usedThreads) : Idles m (m.setThread t th) where
  used := rfl
  free := rfl
  futex := rfl
  state := fun u hu => by
    have hut : u ≠ t := fun hut => hu (by rw [hut]; exact ht)
    rw [setThread_of_ne m th hut]
  current := fun _ => .inl

/-- A change of processes, files and run queues. -/
theorem idles_of_threads (hthreads : m'.threads = m.threads)
    (hrest : m' = { m with procs := m'.procs, files := m'.files, priSchedList := m'.priSchedList,
                           freeProcesses := m'.freeProcesses, usedProcesses := m'.usedProcesses,
                           nextProcessId := m'.nextProcessId }) : Idles m m' := by
  refine ⟨?_, ?_, ?_, fun t _ => by rw [hthreads], fun t ht => .inl ?_⟩
  · rw [hrest]
  · rw [hrest]
  · rw [hrest]
  · rw [hrest] at ht
    exact ht

theorem idles_insertWith {f : List Nat → List Nat} (hok : insertWith f t m = .ok m') : Idles m m' := by
  obtain ⟨pri, -, -, -, rfl⟩ := insertWith_ok hok
  exact idles_of_threads rfl rfl

theorem idles_enqueue (ht : t ∈ m.usedThreads) (hok : enqueue t m = .ok m') : Idles m m' := by
  unfold enqueue insertTail at hok
  exact (idles_setThread ht).trans (idles_insertWith hok)

theorem idles_setProc (proc : Proc) : Idles m (m.setProc p proc) := idles_of_threads rfl rfl

theorem Moves.idles (hmoves : Moves m m') (ho : Orderly m) : Idles m m' := by
  induction hmoves with
  | refl => exact Idles.refl m
  | tail _ hmove ih =>
    refine ih.trans ?_
    cases hmove with
    | file => exact idles_of_threads rfl rfl
    | slots => exact idles_of_threads rfl rfl
    | @ready u _ hsleep hok =>
      refine idles_enqueue ((ho.idles ih).state u ?_) hok
      rw [hsleep]
      decide

/-- **The end of a thread.** -/
theorem threadFree_live (ho : Orderly m) (hok : threadFree t m = .ok m') : ∃ m₁, Idles m m₁ ∧ m' = retire t m₁ := by
  obtain ⟨p, m₁, -, hmoves, rfl⟩ := threadFree_idle ho.futex hok
  have hset : Idles m (m.setProc p (m.dropped p t)) := idles_setProc _
  refine ⟨_, (hset.trans (hmoves.idles (ho.idles hset))).trans ?_, rfl⟩
  split
  · exact idles_of_threads rfl rfl
  · exact Idles.refl m₁

/-- A thread that ends leaves its lists. -/
theorem Orderly.retire (ho : Orderly m) (t : Nat) : Orderly { Sched.retire t m with
    currentThread := if m.currentThread = some t then none else m.currentThread } := by
  have hused : m.usedThreads.Nodup := (List.nodup_append.mp ho.nodup).1
  have hfree : m.freeThreads.Nodup := (List.nodup_append.mp ho.nodup).2.1
  have hdisj := (List.nodup_append.mp ho.nodup).2.2
  refine ⟨fun u hu => ?_, fun u hu => ?_, ho.futex, ?_⟩
  · by_cases hut : u = t
    · rw [hut] at hu
      exact absurd (show ((m.setState t .unused).threads t).state = .unused by
        unfold Machine.setState
        rw [setThread_self]) hu
    · have hsame : (m.setState t .unused).threads u = m.threads u := setThread_of_ne m _ hut
      refine (hused.mem_erase_iff).mpr ⟨hut, ho.state u ?_⟩
      rw [← hsame]
      exact hu
  · dsimp only at hu
    split at hu
    · cases hu
    · rename_i hne
      refine (hused.mem_erase_iff).mpr ⟨fun hut => hne (hut ▸ hu), ho.current u hu⟩
  · show (m.usedThreads.erase t ++ t :: m.freeThreads.erase t).Nodup
    refine List.nodup_append.mpr ⟨hused.erase t, List.nodup_cons.mpr ⟨hfree.not_mem_erase, hfree.erase t⟩, fun a ha b hb => ?_⟩
    rcases List.mem_cons.mp hb with rfl | hb
    · exact ((hused.mem_erase_iff).mp ha).1
    · exact hdisj a (List.mem_of_mem_erase ha) b (List.mem_of_mem_erase hb)

theorem idles_sigkill (ht : t ∈ m.usedThreads) (hok : sigkill t m = .ok m') : Idles m m' := by
  obtain ⟨m₁, h₁, hok⟩ := bind_ok hok
  cases hok
  have hq : Idles m m₁ := by
    split at h₁
    · exact idles_enqueue ht h₁
    · cases h₁
      exact Idles.refl m
  exact hq.trans (idles_setThread (hq.used ▸ ht))

theorem idles_start {policy priority : Int} (ht : t ∈ m.usedThreads) (hok : start t policy priority m = .ok m') : Idles m m' := by
  unfold start insertTail at hok
  exact (idles_setThread ht).trans (idles_insertWith hok)

theorem idles_attach (ht : t ∈ m.usedThreads) : Idles m (attach t p m) := (idles_setThread ht).trans (idles_setProc _)

theorem idles_processAlloc {pages : Pages} {parentId : Nat} {r : Int ⊕ Nat} (hok : processAlloc pages parentId m = .ok (r, m')) :
    Idles m m' := by
  rcases processAlloc_taken hok with ⟨-, rfl⟩ | ⟨p, rest, -, -, hm'⟩
  · exact Idles.refl m'
  · rw [hm']
    exact idles_of_threads rfl rfl

/-- A live thread runs. -/
theorem idles_threadRun (ht : t ∈ m.usedThreads) : Idles m (threadRun t m) := by
  -- the frame of the hart goes to the thread that ran
  obtain ⟨m₁, hsave, hrun⟩ : ∃ m₁, Idles m m₁ ∧ threadRun t m = { m₁.setThread t
      { m₁.threads t with state := .running, reason := false } with
      currentThread := some t, hart := ((m₁.setThread t
        { m₁.threads t with state := .running, reason := false }).threads t).trapframe } := by
    unfold threadRun
    cases m.currentThread with
    | none => exact ⟨m, Idles.refl m, rfl⟩
    | some c =>
      refine ⟨m.setThread c { m.threads c with trapframe := m.hart }, ⟨rfl, rfl, rfl, fun u _ => ?_, fun _ => .inl⟩, rfl⟩
      by_cases huc : u = c
      · rw [huc]
        exact (congrArg Thread.state (setThread_self m c { m.threads c with trapframe := m.hart })).trans rfl
      · exact congrArg Thread.state (setThread_of_ne m _ huc)
  rw [hrun]
  refine hsave.trans ⟨rfl, rfl, rfl, fun u hu => ?_, fun u hu => ?_⟩
  · have hut : u ≠ t := fun hut => hu (by rw [hut, hsave.used]; exact ht)
    exact congrArg Thread.state (setThread_of_ne _ _ hut)
  · cases hu
    rw [hsave.used]
    exact .inr ht

/-- **A new thread**: nobody, or the first free thread, which was not live. -/
theorem takeThread_live {pages : Pages} {sp : Nat} {new : Option Nat} (ho : Orderly m) (hok : takeThread pages sp m = .ok (new, m')) :
    (new = none ∧ m' = m) ∨ ∃ t, new = some t ∧ t ∉ m.usedThreads ∧ m'.usedThreads = t :: m.usedThreads ∧ Orderly m' := by
  rcases takeThread_ok hok with hnone | ⟨t, rest, th, hfree, hnew, -, -, hthreads, hrest⟩
  · exact .inl hnone
  have hnodup := ho.nodup
  rw [hfree] at hnodup
  have hnot : t ∉ m.usedThreads := fun ht => (List.nodup_append.mp hnodup).2.2 t ht t (List.mem_cons_self ..) rfl
  have hused : m'.usedThreads = t :: m.usedThreads := by rw [hrest]
  refine .inr ⟨t, hnew, hnot, hused, fun u hu => ?_, fun u hu => ?_, fun i => ?_, ?_⟩
  · rw [hused]
    by_cases hut : u = t
    · rw [hut]
      exact List.mem_cons_self ..
    · rw [hthreads, Function.update_of_ne hut] at hu
      exact List.mem_cons_of_mem _ (ho.state u hu)
  · rw [hused]
    rw [hrest] at hu
    exact List.mem_cons_of_mem _ (ho.current u hu)
  · rw [hrest]
    exact ho.futex i
  · rw [hrest]
    exact (List.perm_middle.nodup_iff).mp hnodup

/-- `tid2Thread` finds live threads. -/
theorem tid2Thread_live {threadId : Nat} (ho : Orderly m) (hok : tid2Thread threadId m = .ok (some t)) : t ∈ m.usedThreads := by
  unfold tid2Thread at hok
  split at hok
  · split at hok
    · cases hok
    · rename_i hcur
      cases hok
      exact ho.current t hcur
  · dsimp only at hok
    split at hok
    · cases hok
    · rename_i hfound
      cases hok
      exact ho.state _ fun hunused => hfound (.inl hunused)

end Idles

theorem orderly_boot : Orderly boot where
  state := fun _ h => absurd rfl h
  current := fun _ h => by cases h
  futex := fun _ => rfl
  nodup := by
    simp only [boot, List.nil_append]
    exact List.nodup_range

end Exaros.Sched
