import Exaros.Process.Params
import Exaros.Process.Priority

/-!
# Where a thread stands after its priority changes

The rules for a thread whose priority changes while it may run: raised, it goes to the end of its new list, lowered,
to the front, and with the priority it had it stays where it is. `sched_setscheduler` writes the new priority before it
takes the thread out, compares it with nothing, and always puts the thread in front.
-/

namespace Exaros.Sched

open Loop

/-- The rules, for thread `t` with the priority `old` that gets the priority `new`: its place, and the order of the other
threads in every list. -/
structure Requeued (m m' : Machine) (t : Nat) (old new : Int) : Prop where
  raised : old < new → ∃ l, m'.priSchedList (99 - new).toNat = l ++ [t]
  lowered : new < old → ∃ l, m'.priSchedList (99 - new).toNat = t :: l
  same : new = old → m'.priSchedList (99 - new).toNat = m.priSchedList (99 - new).toNat
  others : ∀ pri, (m'.priSchedList pri).filter (· ≠ t) = (m.priSchedList pri).filter (· ≠ t)
  elsewhere : ∀ pri, t ∈ m'.priSchedList pri → pri = (99 - new).toNat

/-- A policy and a priority that `sched_setscheduler` takes: 0 for `SCHED_OTHER`, and one that has a list. -/
def Takes (policy priority : Int) : Prop :=
  ¬ (policy = SCHED_OTHER ∧ priority ≠ 0) ∧ 0 ≤ 99 - priority ∧ 99 - priority < PRI_COUNT

instance (policy priority : Int) : Decidable (Takes policy priority) :=
  inferInstanceAs (Decidable (_ ∧ _ ∧ _))

section Requeue

variable {m : Machine} {t pid : Nat} {policy priority : Int}

/-- The lists of a machine without the thread. -/
theorem Queued.unlinked (h : Queued m) : (m.unlink t).linked t = false := by
  refine Bool.eq_false_iff.mpr fun hl => ?_
  obtain ⟨j, -, hj⟩ := List.any_eq_true.mp hl
  exact (h.nodup j).not_mem_erase (of_decide_eq_true hj)

/-- **What the call does**: the thread leaves its list for the front of the one of the new priority. -/
theorem schedSetscheduler_runnable (hq : Queued m) (hpid : tid2Thread (pid % 2 ^ 32) m = .ok (some t))
    (ht : (m.threads t).state = .runnable) (hlinked : ∃ pri, t ∈ m.priSchedList pri) (htakes : Takes policy priority) :
    ∃ m', schedSetscheduler pid policy priority m = .ok (0, m') ∧ ∀ pri, m'.priSchedList pri =
      if pri = (99 - priority).toNat then t :: (m.priSchedList pri).erase t else (m.priSchedList pri).erase t := by
  obtain ⟨i, hi⟩ := hlinked
  obtain ⟨hvalid, hlow, hhigh⟩ := htakes
  let m₁ := m.setThread t { m.threads t with schedPolicy := policy, schedPriority := priority }
  have hself : m₁.threads t = { m.threads t with schedPolicy := policy, schedPriority := priority } := Function.update_self ..
  have hstate : (m₁.threads t).state = .runnable := by
    rw [hself]
    exact ht
  have hremove : remove t m₁ = .ok (m₁.unlink t) := by
    unfold remove
    rw [if_pos (show m₁.linked t = true from hq.linked_of_mem hi)]
    rfl
  have hfree : (m₁.unlink t).linked t = false := hq.unlinked
  have hpri : ((m₁.unlink t).threads t).pri = 99 - priority := by
    show (m₁.threads t).pri = _
    rw [hself]
    rfl
  have hinsert : insertHead t (m₁.unlink t) =
      .ok ((m₁.unlink t).setList (99 - priority).toNat (t :: (m₁.unlink t).priSchedList (99 - priority).toNat)) := by
    unfold insertHead insertWith
    rw [hpri, if_pos ⟨hlow, hhigh⟩, hfree]
    rfl
  refine ⟨(m₁.unlink t).setList (99 - priority).toNat (t :: (m₁.unlink t).priSchedList (99 - priority).toNat), ?_, fun pri => ?_⟩
  · unfold schedSetscheduler
    rw [hpid, ok_bind]
    dsimp only
    rw [if_neg hvalid, if_pos hstate, hremove, ok_bind, hinsert]
    rfl
  · by_cases heq : pri = (99 - priority).toNat
    · rw [if_pos heq, heq]
      exact Function.update_self ..
    · rw [if_neg heq]
      exact Function.update_of_ne heq _ _

/-- A list with the thread in front is one with it at the end exactly if it has no other. -/
theorem cons_eq_append_iff {l : List Nat} (hnot : t ∉ l) : (∃ l', t :: l = l' ++ [t]) ↔ l = [] := by
  constructor
  · rintro ⟨l', hl⟩
    cases l' with
    | nil => exact (List.cons.inj hl).2
    | cons a l' =>
      have hmem : t ∈ l := by
        rw [(List.cons.inj hl).2]
        exact List.mem_append_right _ List.mem_cons_self
      exact absurd hmem hnot
  · intro hl
    exact ⟨[], by rw [hl]; rfl⟩

/-- A list with one of its threads moved to the front is the list before exactly if the thread was in front. -/
theorem cons_erase_iff {l : List Nat} : t :: l.erase t = l ↔ l.head? = some t := by
  cases l with
  | nil => exact iff_of_false (List.cons_ne_nil _ _) fun h => by cases h
  | cons a l =>
    constructor
    · intro h
      rw [List.head?_cons, (List.cons.inj h).1]
    · intro h
      obtain rfl : a = t := Option.some.inj h
      rw [List.erase_cons_head]

theorem filter_erase (l : List Nat) : (l.erase t).filter (· ≠ t) = l.filter (· ≠ t) := by
  induction l with
  | nil => rfl
  | cons a l ih =>
    by_cases ha : a = t
    · subst ha
      rw [List.erase_cons_head, List.filter_cons_of_neg (by simp)]
    · rw [List.erase_cons_tail (by simpa using ha), List.filter_cons_of_pos (by simpa using ha),
        List.filter_cons_of_pos (by simpa using ha), ih]

/-- **`sched_setscheduler` follows the rules** exactly where putting the thread in front does: a raised thread finds its
new list empty, and a thread that keeps its priority was in front before. -/
theorem setscheduler_requeues_iff (hq : RunQueues m) (hpid : tid2Thread (pid % 2 ^ 32) m = .ok (some t))
    (ht : (m.threads t).state = .runnable) (htakes : Takes policy priority) :
    (∃ m', schedSetscheduler pid policy priority m = .ok (0, m') ∧ Requeued m m' t (m.threads t).schedPriority priority) ↔
      ((m.threads t).schedPriority < priority → m.priSchedList (99 - priority).toNat = []) ∧
      (priority = (m.threads t).schedPriority → (m.priSchedList (99 - priority).toNat).head? = some t) := by
  obtain ⟨m₁, hrun, hlists⟩ := schedSetscheduler_runnable hq.queued hpid ht (hq.linked t ht) htakes
  obtain ⟨i, hi⟩ := hq.linked t ht
  have hnew := hlists (99 - priority).toNat
  rw [if_pos rfl] at hnew
  have hnot : t ∉ (m.priSchedList (99 - priority).toNat).erase t := (hq.nodup _).not_mem_erase
  -- the new list of a raised thread does not have it
  have hraise : (m.threads t).schedPriority < priority →
      (m.priSchedList (99 - priority).toNat).erase t = m.priSchedList (99 - priority).toNat := fun hlt => by
    refine List.erase_of_not_mem fun hmem => ?_
    have hpri : 99 - (m.threads t).schedPriority = ((99 - priority).toNat : Int) := (hq.pri _ t hmem).1
    have hlow := htakes.2.1
    omega
  constructor
  · rintro ⟨m', hrun', h⟩
    obtain rfl : m' = m₁ := (Prod.mk.inj (Except.ok.inj (hrun'.symm.trans hrun))).2
    constructor
    · intro hlt
      have hlast := h.raised hlt
      rw [hnew] at hlast
      have hnil := (cons_eq_append_iff hnot).mp hlast
      rwa [hraise hlt] at hnil
    · intro heq
      have hsame := h.same heq
      rw [hnew] at hsame
      exact cons_erase_iff.mp hsame
  · rintro ⟨hup, hsame⟩
    refine ⟨m₁, hrun, ?_, ?_, ?_, ?_, ?_⟩
    · intro hlt
      rw [hnew]
      refine (cons_eq_append_iff hnot).mpr ?_
      rw [hraise hlt]
      exact hup hlt
    · intro _
      exact ⟨_, hnew⟩
    · intro heq
      rw [hnew]
      exact cons_erase_iff.mpr (hsame heq)
    · intro pri
      rw [hlists pri]
      split
      · rw [List.filter_cons_of_neg (by simp)]
        exact filter_erase _
      · exact filter_erase _
    · intro pri hmem
      by_contra hne
      rw [hlists pri, if_neg hne] at hmem
      exact (hq.nodup pri).not_mem_erase hmem

end Requeue

/-! ## A thread that is raised -/

/-- Two threads that may run: thread 0 of priority 0 and thread 1 of priority 1. -/
def twoQueued : Machine :=
  { boot with
    threads := fun t =>
      if t < 2 then { boot.threads t with state := .runnable, threadId := 2048 + t, schedPolicy := t, schedPriority := t }
      else boot.threads t
    usedThreads := [0, 1]
    priSchedList := fun pri => if pri = 99 then [0] else if pri = 98 then [1] else [] }

theorem mem_twoQueued {pri t : Nat} : t ∈ twoQueued.priSchedList pri ↔ t < 2 ∧ pri = 99 - t := by
  show t ∈ (if pri = 99 then [0] else if pri = 98 then [1] else []) ↔ _
  by_cases h0 : pri = 99
  · rw [if_pos h0, List.mem_singleton]
    omega
  · rw [if_neg h0]
    by_cases h1 : pri = 98
    · rw [if_pos h1, List.mem_singleton]
      omega
    · rw [if_neg h1]
      exact iff_of_false List.not_mem_nil (by omega)

theorem twoQueued_thread {t : Nat} (ht : t < 2) :
    (twoQueued.threads t).state = .runnable ∧ (twoQueued.threads t).schedPriority = t := by
  have hth : twoQueued.threads t =
      { boot.threads t with state := .runnable, threadId := 2048 + t, schedPolicy := t, schedPriority := t } := if_pos ht
  rw [hth]
  exact ⟨rfl, rfl⟩

theorem runQueues_twoQueued : RunQueues twoQueued where
  used pri t ht := by
    have hlt := (mem_twoQueued.mp ht).1
    show t ∈ [0, 1]
    rw [List.mem_cons, List.mem_singleton]
    omega
  state pri t ht := (twoQueued_thread (mem_twoQueued.mp ht).1).1
  pri pri t ht := by
    obtain ⟨hlt, hpri⟩ := mem_twoQueued.mp ht
    have hthread := (twoQueued_thread hlt).2
    have hcount : PRI_COUNT = 140 := rfl
    unfold Thread.pri
    omega
  nodup pri := by
    show (if pri = 99 then [0] else if pri = 98 then [1] else []).Nodup
    split
    · exact List.nodup_singleton 0
    · split
      · exact List.nodup_singleton 1
      · exact List.nodup_nil
  linked t ht := by
    by_cases hlt : t < 2
    · exact ⟨99 - t, mem_twoQueued.mpr ⟨hlt, rfl⟩⟩
    · have hth : twoQueued.threads t = boot.threads t := if_neg hlt
      rw [hth] at ht
      cases ht

theorem twoQueued_tid {t : Nat} (ht : t < 2) : tid2Thread ((2048 + t) % 2 ^ 32) twoQueued = .ok (some t) := by
  obtain rfl | rfl : t = 0 ∨ t = 1 := by omega
  · rfl
  · rfl

/-- Thread 0, raised to priority 1, overtakes thread 1. -/
theorem setscheduler_overtakes : ¬ ∀ (m : Machine) (t pid : Nat) (policy priority : Int), RunQueues m →
    tid2Thread (pid % 2 ^ 32) m = .ok (some t) → (m.threads t).state = .runnable → Takes policy priority →
      ∃ m', schedSetscheduler pid policy priority m = .ok (0, m') ∧
        Requeued m m' t (m.threads t).schedPriority priority := by
  intro h
  obtain ⟨m', hrun, hrules⟩ := h twoQueued 0 2048 SCHED_FIFO 1 runQueues_twoQueued (twoQueued_tid (t := 0) (by decide))
    (twoQueued_thread (by decide)).1 (by decide)
  have hlist : (schedSetscheduler 2048 SCHED_FIFO 1 twoQueued).toOption.map (fun r => r.2.priSchedList 98) = some [0, 1] := by
    decide
  rw [hrun] at hlist
  have hlist : m'.priSchedList 98 = [0, 1] := Option.some.inj hlist
  obtain ⟨l, hl⟩ := hrules.raised (by decide)
  have hlast : [0, 1] = l ++ [0] := hlist.symm.trans hl
  have hend : some 1 = some 0 := (congrArg List.getLast? hlast).trans List.getLast?_concat
  cases hend

/-- The thread of priority 1 is lowered to 0. -/
theorem setscheduler_requeues_lowered :
    (∃ m', schedSetscheduler 2049 SCHED_OTHER 0 twoQueued = .ok (0, m') ∧
        Requeued twoQueued m' 1 (twoQueued.threads 1).schedPriority 0) ↔
      ((twoQueued.threads 1).schedPriority < 0 → twoQueued.priSchedList 99 = []) ∧
      (0 = (twoQueued.threads 1).schedPriority → (twoQueued.priSchedList 99).head? = some 1) :=
  setscheduler_requeues_iff runQueues_twoQueued (twoQueued_tid (t := 1) (by decide)) (twoQueued_thread (by decide)).1 (by decide)

end Exaros.Sched
