import Exaros.Process.Params
import Exaros.Process.Priority

/-!
# Wakes and waits

What `futexWake` and `futexRequeue` do to the queue and to the threads in it. Both go through the table from
its start; the entries they come to before `n` runs out are `served`. The queue is one for all processes, and
an entry knows its address as the waiting process sees it.

**What it does not establish.** Which of the threads woken runs first.
-/

namespace Exaros.Sched

open Loop Run
open Function (update update_self update_of_ne update_idem)

/-- Whether entry `i` waits at `addr`. -/
def Machine.waitsAt (m : Machine) (addr i : Nat) : Bool := (m.futexQueue i).valid ∧ (m.futexQueue i).addr = addr

/-- The entries that wait at `addr`, in the order of the table. -/
def Machine.entriesFor (m : Machine) (addr : Nat) : List Nat := (List.range FUTEX_COUNT).filter (m.waitsAt addr)

/-- What a countdown from `n` to 0 gets through; a negative `n` never comes to 0. -/
def served (n : Int) (l : List Nat) : List Nat := if n < 0 then l else l.take n.toNat

/-- A call of `futexWake` or `futexRequeue`. -/
inductive Issue
  | wake (addr : Nat) (n : Int)
  | requeue (addr : Nat) (n : Int) (newAddr : Nat)

def Issue.run : Issue → Machine → Except Halt Machine
  | .wake addr n => futexWake addr n
  | .requeue addr n newAddr => futexRequeue addr n newAddr

/-- The entries that a call takes out or moves. -/
def Issue.touched (c : Issue) (m : Machine) : List Nat :=
  match c with
  | .wake addr n => served n (m.entriesFor addr)
  | .requeue addr n newAddr => if newAddr = addr then served n (m.entriesFor addr) else m.entriesFor addr

/-- The waiters of other processes than `p` keep their entry, its address and their state. -/
def Undisturbed (p : Nat) (m m' : Machine) : Prop :=
  ∀ i < FUTEX_COUNT, (m.futexQueue i).valid → (m.threads (m.futexQueue i).thread).process ≠ some p →
    m'.futexQueue i = m.futexQueue i ∧
      (m'.threads (m.futexQueue i).thread).state = (m.threads (m.futexQueue i).thread).state

/-! ## What is served -/

theorem served_zero (l : List Nat) : served 0 l = [] := rfl

theorem served_nil (n : Int) : served n [] = [] := by
  unfold served
  split
  · rfl
  · exact List.take_nil

theorem served_cons {n : Int} (hn : n ≠ 0) (i : Nat) (l : List Nat) : served n (i :: l) = i :: served (n - 1) l := by
  unfold served
  by_cases h : n < 0
  · rw [if_pos h, if_pos (by omega)]
  · rw [if_neg h, if_neg (by omega)]
    obtain ⟨k, hk⟩ : ∃ k, n.toNat = k + 1 := ⟨n.toNat - 1, by omega⟩
    have hk' : (n - 1).toNat = k := by omega
    rw [hk, hk', List.take_succ_cons]

theorem served_natCast (n : Nat) (l : List Nat) : served n l = l.take n := by
  unfold served
  rw [if_neg (by omega), Int.toNat_natCast]

theorem served_subset {n : Int} {l : List Nat} {i : Nat} (h : i ∈ served n l) : i ∈ l := by
  unfold served at h
  split at h
  · exact h
  · exact List.mem_of_mem_take h

section Entries

variable {m : Machine} {addr i : Nat}

theorem waitsAt_iff : m.waitsAt addr i = true ↔ (m.futexQueue i).valid = true ∧ (m.futexQueue i).addr = addr :=
  decide_eq_true_iff

theorem mem_entriesFor : i ∈ m.entriesFor addr ↔ i < FUTEX_COUNT ∧ (m.futexQueue i).valid = true ∧ (m.futexQueue i).addr = addr := by
  unfold Machine.entriesFor
  rw [List.mem_filter, List.mem_range, waitsAt_iff]

end Entries

/-! ## One wake -/

/-- The entries of `l` are taken out, their threads are `RUNNABLE`, and nothing else has changed but the run
queues. -/
structure Took (l : List Nat) (m m' : Machine) : Prop where
  entry : ∀ i, m'.futexQueue i = if i ∈ l then { m.futexQueue i with valid := false } else m.futexQueue i
  thread : ∀ t, m'.threads t = if t ∈ l.map (fun i => (m.futexQueue i).thread) then
      { m.threads t with state := .runnable, trapframe := update (m.threads t).trapframe .a0 0 }
    else m.threads t
  rest : m' = { m with threads := m'.threads, priSchedList := m'.priSchedList, futexQueue := m'.futexQueue }

section Took

variable {m m₁ m' : Machine} {l l' : List Nat} {addr t : Nat}

theorem Took.refl (m : Machine) : Took [] m m := ⟨fun _ => rfl, fun _ => rfl, rfl⟩

theorem Took.entry_thread (h : Took l m m') (i : Nat) : (m'.futexQueue i).thread = (m.futexQueue i).thread := by
  rw [h.entry]
  split <;> rfl

theorem Took.entry_of_not_mem (h : Took l m m') {i : Nat} (hi : i ∉ l) : m'.futexQueue i = m.futexQueue i := by
  rw [h.entry, if_neg hi]

theorem Took.waitsAt_of_not_mem (h : Took l m m') {i : Nat} (hi : i ∉ l) : m'.waitsAt addr i = m.waitsAt addr i := by
  unfold Machine.waitsAt
  rw [h.entry_of_not_mem hi]

theorem Took.thread_of_not_mem (h : Took l m m') (ht : ∀ i ∈ l, (m.futexQueue i).thread ≠ t) :
    m'.threads t = m.threads t := by
  rw [h.thread, if_neg]
  intro hmem
  obtain ⟨i, hi, hit⟩ := List.mem_map.mp hmem
  exact ht i hi hit

theorem Took.thread_pri (h : Took l m m') (t : Nat) : (m'.threads t).pri = (m.threads t).pri := by
  rw [h.thread]
  split <;> rfl

theorem Took.trans (h : Took l m m₁) (h' : Took l' m₁ m') : Took (l ++ l') m m' where
  entry := fun i => by
    rw [h'.entry, h.entry]
    by_cases hi : i ∈ l
    · by_cases hi' : i ∈ l' <;> simp [hi, hi']
    · simp [hi]
  thread := fun t => by
    have hmap : l'.map (fun i => (m₁.futexQueue i).thread) = l'.map (fun i => (m.futexQueue i).thread) :=
      List.map_congr_left fun i _ => h.entry_thread i
    rw [h'.thread, h.thread, hmap, List.map_append]
    by_cases ht : t ∈ l.map (fun i => (m.futexQueue i).thread)
    · by_cases ht' : t ∈ l'.map (fun i => (m.futexQueue i).thread)
      · rw [if_pos ht', if_pos ht, if_pos (List.mem_append_left _ ht)]
        rw [update_idem]
      · rw [if_neg ht', if_pos ht, if_pos (List.mem_append_left _ ht)]
    · by_cases ht' : t ∈ l'.map (fun i => (m.futexQueue i).thread)
      · rw [if_pos ht', if_neg ht, if_pos (List.mem_append_right _ ht')]
      · rw [if_neg ht', if_neg ht, if_neg fun hmem => (List.mem_append.mp hmem).elim ht ht']
  rest := by
    rw [h'.rest, h.rest]

/-- What a thread is put at the end of: the list of its priority. -/
theorem enqueue_ok (h : enqueue t m = .ok m') :
    ∃ pri, (m.threads t).pri = (pri : Nat) ∧ m' = (m.setState t .runnable).setList pri (m.priSchedList pri ++ [t]) := by
  unfold enqueue insertTail at h
  obtain ⟨pri, hpri, -, -, rfl⟩ := insertWith_ok h
  have hsame : ((m.setState t .runnable).threads t).pri = (m.threads t).pri := by
    show Thread.pri (update m.threads t _ t) = _
    rw [update_self]
    rfl
  exact ⟨pri, hsame.symm.trans hpri, rfl⟩

/-- One turn takes its entry out, or is none of its business. -/
theorem futexWakeOne_ok {n n' : Int} {i : Nat} (h : futexWakeOne addr (n, m) i = .ok (n', m')) :
    (n ≠ 0 ∧ m.waitsAt addr i = true ∧ n' = n - 1 ∧ Took [i] m m') ∨
      ((n = 0 ∨ m.waitsAt addr i = false) ∧ n' = n ∧ m' = m) := by
  unfold futexWakeOne at h
  dsimp only at h
  by_cases hit : n ≠ 0 ∧ (m.futexQueue i).valid = true ∧ (m.futexQueue i).addr = addr
  · rw [if_pos hit] at h
    obtain ⟨m₁, h₁, h⟩ := bind_ok h
    cases h
    refine .inl ⟨hit.1, waitsAt_iff.mpr hit.2, rfl, ?_⟩
    have hm₁ : m₁.futexQueue = m.futexQueue ∧ (∀ t, m₁.threads t = if t = (m.futexQueue i).thread then
          { m.threads t with state := .runnable } else m.threads t) ∧
        m₁ = { m with threads := m₁.threads, priSchedList := m₁.priSchedList } := by
      split at h₁
      · obtain ⟨pri, -, rfl⟩ := enqueue_ok h₁
        refine ⟨rfl, fun t => ?_, rfl⟩
        show update m.threads _ _ t = _
        split
        · rename_i ht
          rw [ht, update_self]
        · rename_i ht
          rw [update_of_ne ht]
      · rename_i hrun
        cases h₁
        refine ⟨rfl, fun t => ?_, rfl⟩
        split
        · rename_i ht
          rw [ht, ← not_not.mp hrun]
        · rfl
    obtain ⟨hqueue, hthreads, hrest⟩ := hm₁
    refine ⟨fun j => ?_, fun t => ?_, ?_⟩
    · show update m₁.futexQueue i _ j = _
      rw [hqueue]
      by_cases hj : j = i
      · rw [hj, update_self, if_pos (List.mem_singleton.mpr rfl)]
      · rw [update_of_ne hj, if_neg fun hmem => hj (List.mem_singleton.mp hmem)]
    · show update m₁.threads (m.futexQueue i).thread _ t = _
      rw [List.map_singleton]
      by_cases ht : t = (m.futexQueue i).thread
      · rw [ht, update_self, hthreads, if_pos rfl, if_pos (List.mem_singleton.mpr rfl)]
      · rw [update_of_ne ht, hthreads, if_neg ht, if_neg fun hmem => ht (List.mem_singleton.mp hmem)]
    · rw [hrest]
      rfl
  · rw [if_neg hit] at h
    cases h
    refine .inr ⟨?_, rfl, rfl⟩
    by_cases hn : n = 0
    · exact .inl hn
    · exact .inr (Bool.eq_false_iff.mpr fun hw => hit ⟨hn, waitsAt_iff.mp hw⟩)

/-- **A wake** takes out what it serves. The induction is on the entries still to come, none of which an earlier
turn has touched. -/
theorem took_foldlM {n n' : Int} (hl : l.Nodup) (h : l.foldlM (futexWakeOne addr) (n, m) = .ok (n', m')) :
    Took (served n (l.filter (m.waitsAt addr))) m m' := by
  induction l generalizing n m with
  | nil =>
    cases h
    rw [List.filter_nil, served_nil]
    exact Took.refl _
  | cons i l ih =>
    obtain ⟨hi, hl⟩ := List.nodup_cons.mp hl
    rw [List.foldlM_cons] at h
    obtain ⟨⟨n₁, m₁⟩, h₁, h⟩ := bind_ok h
    have htail := ih hl h
    rcases futexWakeOne_ok h₁ with ⟨hn, hw, rfl, htook⟩ | ⟨hor, rfl, rfl⟩
    · have hsame : l.filter (m₁.waitsAt addr) = l.filter (m.waitsAt addr) :=
        List.filter_congr fun j hj => htook.waitsAt_of_not_mem fun hmem => hi (List.mem_singleton.mp hmem ▸ hj)
      rw [hsame] at htail
      rw [List.filter_cons_of_pos hw, served_cons hn]
      exact htook.trans htail
    · rcases hor with rfl | hw
      · rw [served_zero] at htail ⊢
        exact htail
      · rw [List.filter_cons_of_neg (by rw [hw]; exact Bool.false_ne_true)]
        exact htail

theorem took_futexWake {n : Int} (h : futexWake addr n m = .ok m') : Took (served n (m.entriesFor addr)) m m' := by
  obtain ⟨⟨n', m₁⟩, h₁, rfl⟩ := map_ok h
  exact took_foldlM List.nodup_range h₁

/-- The second loop of `futexRequeue`. -/
theorem futexRequeue_ok {n : Int} {newAddr : Nat} (h : futexRequeue addr n newAddr m = .ok m') :
    ∃ m₁, futexWake addr n m = .ok m₁ ∧ (∀ i, m'.futexQueue i =
        if i ∈ m₁.entriesFor addr then { m₁.futexQueue i with addr := newAddr } else m₁.futexQueue i) ∧
      m' = { m₁ with futexQueue := m'.futexQueue } := by
  obtain ⟨m₁, h₁, rfl⟩ := map_ok h
  refine ⟨m₁, h₁, fun i => ?_, rfl⟩
  show (if i < FUTEX_COUNT ∧ _ then _ else _) = _
  split
  · rename_i hi
    rw [if_pos (mem_entriesFor.mpr hi)]
  · rename_i hi
    rw [if_neg fun hmem => hi (mem_entriesFor.mp hmem)]

theorem Took.mem_entriesFor_iff (h : Took l m m') {i : Nat} :
    i ∈ m'.entriesFor addr ↔ i ∈ m.entriesFor addr ∧ i ∉ l := by
  rw [mem_entriesFor, mem_entriesFor, h.entry]
  by_cases hi : i ∈ l
  · simp [hi]
  · simp [hi]

end Took

/-! ## Processes among each other -/

section Issue

variable {m m' : Machine} {c : Issue} {i : Nat}

/-- The entries a call does not touch. -/
theorem Issue.untouched (h : c.run m = .ok m') (hi : i ∉ c.touched m) : m'.futexQueue i = m.futexQueue i := by
  cases c with
  | wake addr n => exact (took_futexWake h).entry_of_not_mem hi
  | requeue addr n newAddr =>
    obtain ⟨m₁, h₁, hentry, -⟩ := futexRequeue_ok h
    have htook := took_futexWake h₁
    have hserved : i ∉ served n (m.entriesFor addr) := fun hmem => hi <| by
      unfold Issue.touched
      dsimp only
      split
      · exact hmem
      · exact served_subset hmem
    rw [hentry, ← htook.entry_of_not_mem hserved]
    split
    · rename_i hmem
      obtain ⟨hfor, -⟩ := htook.mem_entriesFor_iff.mp hmem
      have hnew : newAddr = addr := by
        by_contra hne
        apply hi
        unfold Issue.touched
        dsimp only
        rw [if_neg hne]
        exact hfor
      rw [hnew, ← (mem_entriesFor.mp hmem).2.2]
    · rfl

/-- An entry that a call touches does not stay as it is. -/
theorem Issue.changed (h : c.run m = .ok m') (hi : i ∈ c.touched m) :
    i < FUTEX_COUNT ∧ (m.futexQueue i).valid = true ∧ m'.futexQueue i ≠ m.futexQueue i := by
  have out : ∀ {addr : Nat} {n : Int} {m₁ : Machine}, Took (served n (m.entriesFor addr)) m m₁ → i ∈ served n (m.entriesFor addr) →
      i < FUTEX_COUNT ∧ (m.futexQueue i).valid = true ∧ (m₁.futexQueue i).valid = false := fun htook hmem => by
    obtain ⟨hlt, hvalid, -⟩ := mem_entriesFor.mp (served_subset hmem)
    refine ⟨hlt, hvalid, ?_⟩
    rw [htook.entry, if_pos hmem]
  cases c with
  | wake addr n =>
    obtain ⟨hlt, hvalid, hout⟩ := out (took_futexWake h) hi
    refine ⟨hlt, hvalid, fun heq => ?_⟩
    rw [heq, hvalid] at hout
    cases hout
  | requeue addr n newAddr =>
    obtain ⟨m₁, h₁, hentry, -⟩ := futexRequeue_ok h
    have htook := took_futexWake h₁
    by_cases hserved : i ∈ served n (m.entriesFor addr)
    · obtain ⟨hlt, hvalid, hout⟩ := out htook hserved
      refine ⟨hlt, hvalid, fun heq => ?_⟩
      have hnot : i ∉ m₁.entriesFor addr := fun hmem => (htook.mem_entriesFor_iff.mp hmem).2 hserved
      rw [hentry, if_neg hnot] at heq
      rw [heq, hvalid] at hout
      cases hout
    · unfold Issue.touched at hi
      dsimp only at hi
      split at hi
      · exact absurd hi hserved
      · rename_i hne
        obtain ⟨hlt, hvalid, haddr⟩ := mem_entriesFor.mp hi
        refine ⟨hlt, hvalid, fun heq => hne ?_⟩
        rw [hentry, if_pos (htook.mem_entriesFor_iff.mpr ⟨hi, hserved⟩)] at heq
        have := congrArg FutexQueue.addr heq
        exact this.trans haddr

/-- A thread with no entry among those a call touches. -/
theorem Issue.thread_of_untouched (h : c.run m = .ok m') {t : Nat} (ht : ∀ i ∈ c.touched m, (m.futexQueue i).thread ≠ t) :
    m'.threads t = m.threads t := by
  cases c with
  | wake addr n => exact (took_futexWake h).thread_of_not_mem ht
  | requeue addr n newAddr =>
    obtain ⟨m₁, h₁, -, hrest⟩ := futexRequeue_ok h
    rw [hrest]
    refine (took_futexWake h₁).thread_of_not_mem fun i hi => ht i ?_
    unfold Issue.touched
    dsimp only
    split
    · exact hi
    · exact served_subset hi

/-- **Futexes of different processes** do not meet exactly when none of the entries that a call takes out or
moves is another process's. -/
theorem undisturbed_iff (p : Nat) (h : c.run m = .ok m') :
    Undisturbed p m m' ↔ ∀ i ∈ c.touched m, (m.threads (m.futexQueue i).thread).process = some p := by
  constructor
  · intro hun i hi
    by_contra hp
    obtain ⟨hlt, hvalid, hne⟩ := Issue.changed h hi
    exact hne (hun i hlt hvalid hp).1
  · intro hown i hlt hvalid hp
    have hother : ∀ j ∈ c.touched m, (m.futexQueue j).thread ≠ (m.futexQueue i).thread := fun j hj heq =>
      hp (heq ▸ hown j hj)
    refine ⟨Issue.untouched h fun hi => hp (hown i hi), ?_⟩
    rw [Issue.thread_of_untouched h hother]

end Issue

/-- A process is made and forks, and waits at 0x1000; its child runs. -/
def forkedRun : List Op :=
  [.create ⟨true, true, true⟩ fun _ => 0, .callYield [0], .clone ⟨true, true, true⟩ 0 0 0 0, .futexWait 0x1000 none [0]]

/-- The child clones a thread of its own and waits at 0x2000; the thread runs. -/
def clonedRun : List Op := forkedRun ++ [.clone ⟨true, true, true⟩ CLONE_VM 0 0 0, .futexWait 0x2000 none [0]]

/-- The process of the thread that runs. -/
def Machine.processRunning (m : Machine) : Option Nat := m.currentThread.bind fun t => (m.threads t).process

/-- After the run, the thread that runs wakes one waiter at `addr`. -/
def forkedWake (ops : List Op) (addr : Nat) : Except Halt (Machine × Machine) := do
  let m ← execAll ops boot
  let m' ← futexWake addr 1 m
  return (m, m')

theorem forkedWake_ok {ops : List Op} {addr : Nat} {s : Machine × Machine} (h : forkedWake ops addr = .ok s) :
    Reach (· = boot) (Step fun _ _ => True) s.1 ∧ (Issue.wake addr 1).run s.1 = .ok s.2 := by
  obtain ⟨m, hm, h⟩ := bind_ok h
  obtain ⟨m', hm', h⟩ := bind_ok h
  cases h
  exact ⟨reach_execAll (.init rfl) (fun _ _ _ => trivial) hm, hm'⟩

/-- The new thread of the child wakes the other, which waits at an address where nobody else does; the parent waits on. -/
theorem undisturbed_iff_cloned : ∃ m m', Reach (· = boot) (Step fun _ _ => True) m ∧ m.processRunning = some 1 ∧
    m.entriesFor 0x1000 = [0] ∧ (Issue.wake 0x2000 1).run m = .ok m' ∧ (m'.threads 1).state = .runnable ∧ Undisturbed 1 m m' := by
  have hrun : (forkedWake clonedRun 0x2000).toOption.map (fun s => (s.1.processRunning, s.1.entriesFor 0x1000,
      s.1.entriesFor 0x2000, (s.1.threads (s.1.futexQueue 1).thread).process, (s.2.threads 1).state)) =
      some (some 1, [0], [1], some 1, .runnable) := by decide +kernel
  obtain ⟨⟨m, m'⟩, hok, hlook⟩ := exists_of_toOption hrun
  obtain ⟨hcur, hlook⟩ := Prod.mk.inj hlook
  obtain ⟨hparent, hlook⟩ := Prod.mk.inj hlook
  obtain ⟨hchild, hlook⟩ := Prod.mk.inj hlook
  obtain ⟨hproc, hready⟩ := Prod.mk.inj hlook
  obtain ⟨hreach, hwake⟩ := forkedWake_ok hok
  refine ⟨m, m', hreach, hcur, hparent, hwake, hready, (undisturbed_iff 1 hwake).mpr fun i hi => ?_⟩
  have hmem : i ∈ m.entriesFor 0x2000 := served_subset hi
  rw [show m.entriesFor 0x2000 = [1] from hchild] at hmem
  rw [List.mem_singleton.mp hmem]
  exact hproc

/-- The child wakes its parent, which waits at the same address of a memory of its own. -/
theorem futexWake_disturbs : ∃ m m', Reach (· = boot) (Step fun _ _ => True) m ∧ m.processRunning = some 1 ∧
    (Issue.wake 0x1000 1).run m = .ok m' ∧ ¬ Undisturbed 1 m m' := by
  have hrun : (forkedWake forkedRun 0x1000).toOption.map (fun s => (s.1.processRunning, (s.1.futexQueue 0).valid,
      (s.1.threads (s.1.futexQueue 0).thread).process, (s.2.futexQueue 0).valid)) =
      some (some 1, true, some 0, false) := by decide +kernel
  obtain ⟨⟨m, m'⟩, hok, hlook⟩ := exists_of_toOption hrun
  obtain ⟨hcur, hlook⟩ := Prod.mk.inj hlook
  obtain ⟨hvalid, hlook⟩ := Prod.mk.inj hlook
  obtain ⟨hproc, hgone⟩ := Prod.mk.inj hlook
  obtain ⟨hreach, hwake⟩ := forkedWake_ok hok
  refine ⟨m, m', hreach, hcur, hwake, fun hun => ?_⟩
  have hother : (m.threads (m.futexQueue 0).thread).process ≠ some 1 := by
    rw [show (m.threads (m.futexQueue 0).thread).process = some 0 from hproc]
    decide
  have hkept := (hun 0 (by decide) hvalid hother).1
  have hvalid' : (m'.futexQueue 0).valid = true := by
    rw [hkept]
    exact hvalid
  rw [show (m'.futexQueue 0).valid = false from hgone] at hvalid'
  cases hvalid'

/-! ## How many are woken -/

/-- The waiters are asleep, in the queue once each, and of a priority that has a list. -/
structure Parked (m : Machine) : Prop where
  sleeping : ∀ i < FUTEX_COUNT, (m.futexQueue i).valid → (m.threads (m.futexQueue i).thread).state = .sleeping
  once : ∀ i < FUTEX_COUNT, ∀ j < FUTEX_COUNT, (m.futexQueue i).valid → (m.futexQueue j).valid →
    (m.futexQueue i).thread = (m.futexQueue j).thread → i = j
  pri : ∀ i < FUTEX_COUNT, (m.futexQueue i).valid →
    0 ≤ (m.threads (m.futexQueue i).thread).pri ∧ (m.threads (m.futexQueue i).thread).pri < PRI_COUNT

/-- The first `n` entries for `addr`. -/
def Machine.firstFor (m : Machine) (addr n : Nat) : List Nat := (m.entriesFor addr).take n

/-- Their threads. -/
def Machine.wokenAt (m : Machine) (addr n : Nat) : List Nat := (m.firstFor addr n).map fun i => (m.futexQueue i).thread

/-- The first `n` waiters at `addr` are made ready, and beside the queue nothing else changes. -/
structure WakesFirst (addr n : Nat) (m m' : Machine) : Prop where
  count : (m.wokenAt addr n).length = min n (m.entriesFor addr).length
  once : (m.wokenAt addr n).Nodup
  woken : ∀ t, Woke m m' t ↔ t ∈ m.wokenAt addr n
  thread : ∀ t, m'.threads t = if t ∈ m.wokenAt addr n then
      { m.threads t with state := .runnable, trapframe := update (m.threads t).trapframe .a0 0 }
    else m.threads t
  lists : ∀ pri : Nat, m'.priSchedList pri = m.priSchedList pri ++ (m.wokenAt addr n).filter fun t => (m.threads t).pri = pri
  rest : m' = { m with threads := m'.threads, priSchedList := m'.priSchedList, futexQueue := m'.futexQueue }

/-- A thread that can be put in its list. -/
structure Ready (m : Machine) (t : Nat) : Prop where
  state : (m.threads t).state ≠ .runnable
  pri : 0 ≤ (m.threads t).pri ∧ (m.threads t).pri < PRI_COUNT
  linked : ∀ pri < PRI_COUNT, t ∉ m.priSchedList pri

section Count

variable {m m' : Machine} {addr t u i : Nat} {n : Int} {l : List Nat}

theorem Ready.enqueue (h : Ready m t) : ∃ m', Sched.enqueue t m = .ok m' := by
  unfold Sched.enqueue insertTail insertWith
  have hpri : ((m.setState t .runnable).threads t).pri = (m.threads t).pri := by
    show Thread.pri (update m.threads t _ t) = _
    rw [update_self]
    rfl
  have hlinked : (m.setState t .runnable).linked t = false := by
    refine Bool.eq_false_iff.mpr fun hl => ?_
    obtain ⟨pri, hpri, hmem⟩ := List.any_eq_true.mp hl
    exact h.linked pri (List.mem_range.mp hpri) (of_decide_eq_true hmem)
  rw [hpri, if_pos h.pri, hlinked]
  exact ⟨_, rfl⟩

/-- A turn that wakes a thread that can be put in its list. -/
theorem futexWakeOne_ready (hn : n ≠ 0) (hw : m.waitsAt addr i = true) (h : Ready m (m.futexQueue i).thread) :
    ∃ m', futexWakeOne addr (n, m) i = .ok (n - 1, m') ∧ ∀ pri : Nat, m'.priSchedList pri =
      m.priSchedList pri ++ [(m.futexQueue i).thread].filter fun t => (m.threads t).pri = pri := by
  obtain ⟨m₁, h₁⟩ := h.enqueue
  obtain ⟨own, hown, rfl⟩ := enqueue_ok h₁
  unfold futexWakeOne
  dsimp only
  rw [if_pos ⟨hn, waitsAt_iff.mp hw⟩, if_pos h.state, h₁]
  refine ⟨_, rfl, fun pri => ?_⟩
  show update m.priSchedList own _ pri = _
  by_cases hpri : pri = own
  · rw [hpri, update_self, List.filter_cons_of_pos (by simpa using hown), List.filter_nil]
  · rw [update_of_ne hpri, List.filter_cons_of_neg, List.filter_nil, List.append_nil]
    rw [hown]
    simpa using fun heq : (own : Int) = pri => hpri (Int.ofNat.inj heq).symm

/-- The threads still to be woken stay fit to be put in their lists. -/
theorem Ready.of_took (h : Ready m t) (htook : Took [i] m m') (hne : (m.futexQueue i).thread ≠ t)
    (hlists : ∀ pri : Nat, m'.priSchedList pri =
      m.priSchedList pri ++ [(m.futexQueue i).thread].filter fun t => (m.threads t).pri = pri) : Ready m' t := by
  have hsame : m'.threads t = m.threads t := htook.thread_of_not_mem fun j hj => by
    rw [List.mem_singleton.mp hj]
    exact hne
  refine ⟨by rw [hsame]; exact h.state, by rw [hsame]; exact h.pri, fun pri hpri hmem => ?_⟩
  rw [hlists] at hmem
  rcases List.mem_append.mp hmem with hold | hnew
  · exact h.linked pri hpri hold
  · exact hne (List.mem_singleton.mp (List.mem_of_mem_filter hnew)).symm

/-- A wake of threads that can all be put in their lists returns, and puts each there. -/
theorem foldlM_ready (hl : l.Nodup) (hready : ∀ i ∈ l, m.waitsAt addr i → Ready m (m.futexQueue i).thread)
    (honce : ∀ i ∈ l, ∀ j ∈ l, m.waitsAt addr i → m.waitsAt addr j →
      (m.futexQueue i).thread = (m.futexQueue j).thread → i = j) :
    ∃ s, l.foldlM (futexWakeOne addr) (n, m) = .ok s ∧ ∀ pri : Nat, s.2.priSchedList pri = m.priSchedList pri ++
      ((served n (l.filter (m.waitsAt addr))).map fun i => (m.futexQueue i).thread).filter fun t => (m.threads t).pri = pri := by
  induction l generalizing n m with
  | nil =>
    refine ⟨(n, m), rfl, fun pri => ?_⟩
    rw [List.filter_nil, served_nil]
    exact (List.append_nil _).symm
  | cons i l ih =>
    obtain ⟨hi, hl⟩ := List.nodup_cons.mp hl
    by_cases hit : n ≠ 0 ∧ m.waitsAt addr i = true
    · obtain ⟨hn, hw⟩ := hit
      have hself := List.mem_cons_self (a := i) (l := l)
      obtain ⟨m₁, h₁, hlists⟩ := futexWakeOne_ready hn hw (hready i hself hw)
      have htook : Took [i] m m₁ := by
        rcases futexWakeOne_ok h₁ with ⟨-, -, -, htook⟩ | ⟨hor, -⟩
        · exact htook
        · rcases hor with h | h
          · exact absurd h hn
          · rw [h] at hw
            cases hw
      have hwaits : ∀ j ∈ l, m₁.waitsAt addr j = m.waitsAt addr j := fun j hj =>
        htook.waitsAt_of_not_mem fun hmem => hi (List.mem_singleton.mp hmem ▸ hj)
      have hthread : ∀ j, (m₁.futexQueue j).thread = (m.futexQueue j).thread := htook.entry_thread
      obtain ⟨s, hs, hslists⟩ := ih (m := m₁) (n := n - 1) hl
        (fun j hj hwj => by
          rw [hwaits j hj] at hwj
          rw [hthread]
          refine (hready j (List.mem_cons_of_mem _ hj) hwj).of_took htook (fun heq => hi ?_) hlists
          rw [honce i hself j (List.mem_cons_of_mem _ hj) hw hwj heq]
          exact hj)
        (fun j hj k hk hwj hwk heq => by
          rw [hwaits j hj] at hwj
          rw [hwaits k hk] at hwk
          rw [hthread, hthread] at heq
          exact honce j (List.mem_cons_of_mem _ hj) k (List.mem_cons_of_mem _ hk) hwj hwk heq)
      refine ⟨s, by rw [List.foldlM_cons, h₁]; exact hs, fun pri => ?_⟩
      have hfilter : l.filter (m₁.waitsAt addr) = l.filter (m.waitsAt addr) := List.filter_congr hwaits
      have hpri : ∀ t, (m₁.threads t).pri = (m.threads t).pri := htook.thread_pri
      simp only [hslists, hlists, hthread, hpri, hfilter]
      rw [List.filter_cons_of_pos hw, served_cons hn, List.map_cons, List.append_assoc, ← List.filter_append]
      rfl
    · have hskip : futexWakeOne addr (n, m) i = .ok (n, m) := by
        exact if_neg fun h => hit ⟨h.1, waitsAt_iff.mpr h.2⟩
      obtain ⟨s, hs, hslists⟩ := ih (m := m) (n := n) hl (fun j hj => hready j (List.mem_cons_of_mem _ hj))
        (fun j hj k hk => honce j (List.mem_cons_of_mem _ hj) k (List.mem_cons_of_mem _ hk))
      refine ⟨s, by rw [List.foldlM_cons, hskip]; exact hs, fun pri => ?_⟩
      rw [hslists]
      by_cases hn : n = 0
      · rw [hn, served_zero, served_zero]
      · rw [List.filter_cons_of_neg fun hw => hit ⟨hn, hw⟩]

theorem firstFor_subset {k : Nat} (h : i ∈ m.firstFor addr k) : i ∈ m.entriesFor addr := List.mem_of_mem_take h

/-- What a thread that is parked is fit for. -/
theorem Parked.ready (hq : Queued m) (hp : Parked m) (hi : i < FUTEX_COUNT) (hw : m.waitsAt addr i = true) :
    Ready m (m.futexQueue i).thread := by
  have hvalid := (waitsAt_iff.mp hw).1
  have hsleep := hp.sleeping i hi hvalid
  have hne : (m.threads (m.futexQueue i).thread).state ≠ .runnable := by
    rw [hsleep]
    decide
  exact ⟨hne, hp.pri i hi hvalid, fun pri _ hmem => hne (hq.state pri _ hmem)⟩

/-- **A wake of `n` waiters** returns and wakes the first `n`. -/
theorem Parked.futexWake (hq : Queued m) (hp : Parked m) (addr n : Nat) :
    ∃ m', Sched.futexWake addr n m = .ok m' ∧ WakesFirst addr n m m' ∧ Took (m.firstFor addr n) m m' := by
  obtain ⟨s, hs, hlists⟩ : ∃ s, (List.range FUTEX_COUNT).foldlM (futexWakeOne addr) ((n : Int), m) = .ok s ∧
      ∀ pri : Nat, s.2.priSchedList pri = m.priSchedList pri ++
        ((served n (m.entriesFor addr)).map fun i => (m.futexQueue i).thread).filter fun t => (m.threads t).pri = pri :=
    foldlM_ready List.nodup_range (fun i hi hw => hp.ready hq (List.mem_range.mp hi) hw)
      fun i hi j hj hwi hwj => hp.once i (List.mem_range.mp hi) j (List.mem_range.mp hj) (waitsAt_iff.mp hwi).1 (waitsAt_iff.mp hwj).1
  have hok : Sched.futexWake addr n m = .ok s.2 := by
    unfold Sched.futexWake
    rw [hs]
    rfl
  have htook : Took (m.firstFor addr n) m s.2 := by
    have := took_futexWake hok
    rw [served_natCast] at this
    exact this
  refine ⟨s.2, hok, ⟨?_, ?_, fun t => ?_, htook.thread, ?_, htook.rest⟩, htook⟩
  · unfold Machine.wokenAt Machine.firstFor
    rw [List.length_map, List.length_take]
  · refine List.Nodup.map_on (fun i hi j hj heq => ?_) ((List.nodup_range.filter _).sublist (List.take_sublist _ _))
    obtain ⟨hilt, hiv, -⟩ := mem_entriesFor.mp (firstFor_subset hi)
    obtain ⟨hjlt, hjv, -⟩ := mem_entriesFor.mp (firstFor_subset hj)
    exact hp.once i hilt j hjlt hiv hjv heq
  · have hthread : s.2.threads t = if t ∈ m.wokenAt addr n then
        { m.threads t with state := .runnable, trapframe := update (m.threads t).trapframe .a0 0 }
      else m.threads t := htook.thread t
    unfold Woke
    rw [hthread]
    constructor
    · rintro ⟨hne, hr⟩
      by_contra hmem
      rw [if_neg hmem] at hr
      exact hne hr
    · intro hmem
      rw [if_pos hmem]
      obtain ⟨i, hi, rfl⟩ := List.mem_map.mp hmem
      obtain ⟨hlt, hvalid, -⟩ := mem_entriesFor.mp (firstFor_subset hi)
      refine ⟨?_, rfl⟩
      rw [hp.sleeping i hlt hvalid]
      decide
  · intro pri
    rw [hlists, served_natCast]
    rfl

/-- **A requeue** wakes as many and moves the rest. -/
theorem Parked.futexRequeue (hq : Queued m) (hp : Parked m) (addr n newAddr : Nat) :
    ∃ m', Sched.futexRequeue addr n newAddr m = .ok m' ∧ WakesFirst addr n m m' ∧
      ∀ i, m'.futexQueue i = if i ∈ m.firstFor addr n then { m.futexQueue i with valid := false }
        else if i ∈ m.entriesFor addr then { m.futexQueue i with addr := newAddr } else m.futexQueue i := by
  obtain ⟨m₁, h₁, hfirst, htook⟩ := hp.futexWake hq addr n
  obtain ⟨m', hok⟩ : ∃ m', Sched.futexRequeue addr n newAddr m = .ok m' := by
    unfold Sched.futexRequeue
    rw [h₁]
    exact ⟨_, rfl⟩
  obtain ⟨m₂, h₂, hentry, hrest⟩ := futexRequeue_ok hok
  have heq : m₂ = m₁ := Except.ok.inj (h₂.symm.trans h₁)
  subst heq
  refine ⟨m', hok, ⟨hfirst.count, hfirst.once, fun t => ?_, fun t => ?_, fun pri => ?_, ?_⟩, fun i => ?_⟩
  · rw [← hfirst.woken, hrest]
    exact Iff.rfl
  · rw [← hfirst.thread, hrest]
  · rw [← hfirst.lists, hrest]
  · rw [hrest, hfirst.rest]
  · have hmem : i ∈ m₂.entriesFor addr ↔ i ∈ m.entriesFor addr ∧ i ∉ m.firstFor addr n := htook.mem_entriesFor_iff
    rw [hentry]
    by_cases hi : i ∈ m.firstFor addr n
    · rw [if_neg fun h => (hmem.mp h).2 hi, htook.entry, if_pos hi, if_pos hi]
    · rw [if_neg hi, htook.entry_of_not_mem hi]
      by_cases hfor : i ∈ m.entriesFor addr
      · rw [if_pos hfor, if_pos (hmem.mpr ⟨hfor, hi⟩)]
      · rw [if_neg hfor, if_neg fun h => hfor (hmem.mp h).1]

end Count

/-! ## The thread that is selected -/

section Selected

variable {m m' : Machine} {t u now : Nat}

/-- A pass makes no thread `RUNNING`. -/
theorem Wakes.running (h : Wakes m m') (ht : (m'.threads t).state = .running) : (m.threads t).state = .running := by
  rcases h.state t with hs | ⟨-, hr⟩
  · rw [← hs, ht]
  · rw [hr] at ht
    cases ht

theorem threadFree_running (h : threadFree u m = .ok m') (ht : (m'.threads t).state = .running) :
    (m.threads t).state = .running := by
  obtain ⟨m₁, hw, rfl⟩ := threadFree_spec.of_ok h
  refine hw.running ?_
  have hsame : ∀ m₀ : Machine, (retire u m₀).threads t = update m₀.threads u { m₀.threads u with state := .unused } t :=
    fun _ => rfl
  rw [hsame] at ht
  by_cases htu : t = u
  · subst htu
    rw [update_self] at ht
    cases ht
  · rw [update_of_ne htu] at ht
    split at ht
    · exact ht
    · exact ht

/-- A pass starts no thread. -/
theorem scan_running {pris : List Nat} {r : Pass} (h : scan now pris m = .ok (r, m'))
    (ht : (m'.threads t).state = .running) : (m.threads t).state = .running := by
  induction pris generalizing m with
  | nil =>
    cases h
    exact ht
  | cons pri pris ih =>
    unfold scan at h
    split at h
    · exact ih h
    · split at h
      · obtain ⟨⟨own, m₁⟩, h₁, h⟩ := bind_ok h
        have hfree : (m₁.threads t).state = .running → (m.threads t).state = .running := fun hr => by
          obtain ⟨m₂, h₂, heq⟩ := map_ok h₁
          refine threadFree_running h₂ ?_
          split at heq
          · cases heq
            exact hr
          · cases heq
            exact hr
        cases own with
        | true =>
          cases h
          exact hfree ht
        | false => exact hfree (ih h)
      · split at h
        · obtain ⟨m₁, h₁, h⟩ := bind_ok h
          obtain ⟨m₂, h₂, h⟩ := bind_ok h
          have hr := ih h
          obtain ⟨_, -, -, -, rfl⟩ := insertWith_ok h₂
          unfold remove at h₁
          split at h₁
          · cases h₁
            exact hr
          · cases h₁
        · cases h
          exact ht

theorem threadRun_queue (u : Nat) (m : Machine) : (threadRun u m).currentThread = some u ∧ (threadRun u m).futexQueue = m.futexQueue := by
  unfold threadRun
  cases m.currentThread with
  | none => exact ⟨rfl, rfl⟩
  | some c => exact ⟨rfl, rfl⟩

theorem dispatch_ok (h : dispatch u m = .ok m') : m'.currentThread = some u ∧ ∃ m₁ : Machine, m'.futexQueue = (futexClear u m₁).futexQueue := by
  obtain ⟨m₁, -, h⟩ := bind_ok h
  cases h
  exact ⟨(threadRun_queue u _).1, _, (threadRun_queue u _).2⟩

theorem futexClear_cleared {i : Nat} (hi : i < FUTEX_COUNT) (hvalid : ((futexClear t m).futexQueue i).valid = true) :
    ((futexClear t m).futexQueue i).thread ≠ t := by
  have hq : (futexClear t m).futexQueue i = if i < FUTEX_COUNT ∧ (m.futexQueue i).valid = true ∧ (m.futexQueue i).thread = t then
      { m.futexQueue i with valid := false } else m.futexQueue i := rfl
  rw [hq] at hvalid ⊢
  split at hvalid
  · cases hvalid
  · rename_i hnot
    rw [if_neg hnot]
    exact fun ht => hnot ⟨hi, hvalid, ht⟩

/-- The thread that `fifoSched` selects waits nowhere. -/
theorem fifoSched_not_waiting {clock : List Nat} (h : fifoSched clock m = .ok m') (hcur : m'.currentThread = some t)
    (hrun : (m'.threads t).state = .running) (hnot : (m.threads t).state ≠ .running) :
    ∀ i < FUTEX_COUNT, (m'.futexQueue i).valid → (m'.futexQueue i).thread ≠ t := by
  induction clock generalizing m with
  | nil =>
    cases h
    exact absurd hrun hnot
  | cons now clock ih =>
    obtain ⟨⟨r, m₁⟩, h₁, h⟩ := bind_ok h
    have hnot₁ : (m₁.threads t).state ≠ .running := fun hr => hnot (scan_running h₁ hr)
    cases r with
    | idle => exact ih h hnot₁
    | restart => exact ih h hnot₁
    | picked u =>
      obtain ⟨hcur', m₂, hqueue⟩ := dispatch_ok h
      rw [hcur'] at hcur
      cases hcur
      intro i hi hvalid
      rw [hqueue] at hvalid ⊢
      exact futexClear_cleared hi hvalid

end Selected

/-- **Counts.** Of the waiters at an address a wake of `n` makes the first `n` ready, each once at the end of
its own list, and takes their entries out; a requeue does the same and moves the others; and a thread that
`fifoSched` selects has no entry left. -/
theorem futex_counts {m : Machine} (hq : Queued m) (hp : Parked m) (addr n newAddr : Nat) :
    (∃ m', futexWake addr n m = .ok m' ∧ WakesFirst addr n m m' ∧
      ∀ i, m'.futexQueue i = if i ∈ m.firstFor addr n then { m.futexQueue i with valid := false } else m.futexQueue i) ∧
    (∃ m', futexRequeue addr n newAddr m = .ok m' ∧ WakesFirst addr n m m' ∧
      ∀ i, m'.futexQueue i = if i ∈ m.firstFor addr n then { m.futexQueue i with valid := false }
        else if i ∈ m.entriesFor addr then { m.futexQueue i with addr := newAddr } else m.futexQueue i) ∧
    ∀ (s s' : Machine) (clock : List Nat) (t : Nat), fifoSched clock s = .ok s' → s'.currentThread = some t →
      (s'.threads t).state = .running → (s.threads t).state ≠ .running →
      ∀ i < FUTEX_COUNT, (s'.futexQueue i).valid → (s'.futexQueue i).thread ≠ t := by
  obtain ⟨m', hok, hfirst, htook⟩ := hp.futexWake hq addr n
  exact ⟨⟨m', hok, hfirst, htook.entry⟩, hp.futexRequeue hq addr n newAddr,
    fun _ _ _ _ h hcur hrun hnot => fifoSched_not_waiting h hcur hrun hnot⟩

/-- Threads 0 and 1 sleep at address 8. -/
def parkedPair : Machine := { boot with
  threads := fun t => { boot.threads t with state := if t < 2 then .sleeping else .unused }
  usedThreads := [0, 1]
  futexQueue := fun i => { addr := 8, thread := i, valid := i < 2 } }

theorem queued_parkedPair : Queued parkedPair :=
  ⟨fun _ _ h => (List.not_mem_nil h).elim, fun _ _ h => (List.not_mem_nil h).elim, fun _ => List.nodup_nil⟩

theorem parked_parkedPair : Parked parkedPair where
  sleeping := fun i _ hi => by
    show (if i < 2 then ProcessState.sleeping else .unused) = .sleeping
    rw [if_pos (of_decide_eq_true hi)]
  once := fun i _ j _ _ _ heq => heq
  pri := fun i _ _ => by
    show 0 ≤ (99 - 0 : Int) ∧ (99 - 0 : Int) < PRI_COUNT
    decide

/-- Two threads wait at 8: one is woken, and the other moved to 16. -/
theorem futex_counts_parkedPair : parkedPair.entriesFor 8 = [0, 1] ∧ ∃ m', futexRequeue 8 1 16 parkedPair = .ok m' ∧
    WakesFirst 8 1 parkedPair m' ∧ m'.futexQueue 1 = { addr := 16, thread := 1, valid := true } := by
  obtain ⟨-, ⟨m', hok, hfirst, hentry⟩, -⟩ := futex_counts queued_parkedPair parked_parkedPair 8 1 16
  have hnot : 1 ∉ parkedPair.firstFor 8 1 := by decide
  have hfor : 1 ∈ parkedPair.entriesFor 8 := by decide
  refine ⟨by decide, m', hok, hfirst, ?_⟩
  rw [hentry, if_neg hnot, if_pos hfor]
  rfl

end Exaros.Sched
