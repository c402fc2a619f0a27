import Exaros.Process.Queues

/-!
# Strict priority

A pass of `fifoSched` looks at the head of each list and no further: a head that is asleep goes to the end
of its list and a killed head is destroyed, and in either case the pass goes on to the next list. So the
thread it picks is the first that may run exactly when nobody who may run stands behind such a head
(`Unblocked`), or is put there by its destruction.

**What it does not establish.** How long a thread runs once it is picked.
-/

namespace Exaros.Sched

open Loop

/-- The run queues link the `RUNNABLE` threads, each once, in the list of its priority. -/
structure RunQueues (m : Machine) : Prop where
  used : ∀ pri t, t ∈ m.priSchedList pri → t ∈ m.usedThreads
  state : ∀ pri t, t ∈ m.priSchedList pri → (m.threads t).state = .runnable
  pri : ∀ pri t, t ∈ m.priSchedList pri → (m.threads t).pri = pri ∧ pri < PRI_COUNT
  nodup : ∀ pri, (m.priSchedList pri).Nodup
  linked : ∀ t, (m.threads t).state = .runnable → ∃ pri, t ∈ m.priSchedList pri

/-- Not killed, and not to sleep on. -/
def Machine.eligible (m : Machine) (now t : Nat) : Bool :=
  (m.threads t).killed = false ∧ (m.threads t).awakeTime ≤ now

/-- `t` is the first thread that may run, list by list. -/
def First (now : Nat) (m : Machine) (t : Nat) : Prop :=
  ∃ pri < PRI_COUNT, (m.priSchedList pri).find? (m.eligible now) = some t ∧
    ∀ j < pri, ∀ u ∈ m.priSchedList j, m.eligible now u = false

/-- Threads that a step has made ready. -/
def Woke (m m' : Machine) (u : Nat) : Prop := (m.threads u).state ≠ .runnable ∧ (m'.threads u).state = .runnable

/-- Up to the first head that may run, nobody who may run stands behind a head, and the destruction of a killed
head wakes nobody who may run for a list that the pass has come to. -/
def Unblocked (now : Nat) : List Nat → Machine → Prop
  | [], _ => True
  | pri :: pris, m =>
    match m.priSchedList pri with
    | [] => Unblocked now pris m
    | t :: rest =>
      if (m.threads t).killed then
        (∀ u ∈ rest, m.eligible now u = false) ∧ ∀ own m', threadDestroy t m = .ok (own, m') →
          (∀ u, Woke m m' u → m.eligible now u → pri < (m.threads u).pri) ∧ (own = false → Unblocked now pris m')
      else if (m.threads t).awakeTime > now then
        (∀ u ∈ rest, m.eligible now u = false) ∧ Unblocked now pris (m.setList pri (rest ++ [t]))
      else True

/-! ## The queues during a pass -/

/-- The part of the invariant that a pass relies on. -/
structure Queued (m : Machine) : Prop where
  state : ∀ pri t, t ∈ m.priSchedList pri → (m.threads t).state = .runnable
  pri : ∀ pri t, t ∈ m.priSchedList pri → (m.threads t).pri = pri ∧ pri < PRI_COUNT
  nodup : ∀ pri, (m.priSchedList pri).Nodup

theorem RunQueues.queued {m : Machine} (h : RunQueues m) : Queued m := ⟨h.state, h.pri, h.nodup⟩

/-- The lists before `i` hold nobody who may run. -/
def Passed (now : Nat) (m : Machine) (i : Nat) : Prop := ∀ j < i, ∀ u ∈ m.priSchedList j, m.eligible now u = false

section Queued

variable {m m' : Machine} {now i j t u : Nat} {rest : List Nat}

theorem Queued.index_eq (h : Queued m) (hi : t ∈ m.priSchedList i) (hj : t ∈ m.priSchedList j) : i = j := by
  have := (h.pri i t hi).1.symm.trans (h.pri j t hj).1
  exact Int.ofNat.inj this

theorem Queued.linked_of_mem (h : Queued m) (ht : t ∈ m.priSchedList i) : m.linked t = true :=
  List.any_eq_true.mpr ⟨i, List.mem_range.mpr (h.pri i t ht).2, decide_eq_true ht⟩

theorem Queued.wakes (h : Queued m) (hw : Wakes m m') : Queued m' where
  state := fun pri t ht => by
    obtain ⟨l, hl, -, hmem⟩ := hw.lists pri
    rw [hl] at ht
    rcases List.mem_append.mp ht with ht | ht
    · exact hw.runnable (h.state pri t ht)
    · exact (hmem t ht).2.1
  pri := fun pri t ht => by
    obtain ⟨l, hl, -, hmem⟩ := hw.lists pri
    rw [hl] at ht
    rw [pri_of_params hw.params]
    rcases List.mem_append.mp ht with ht | ht
    · exact h.pri pri t ht
    · exact (hmem t ht).2.2
  nodup := fun pri => by
    obtain ⟨l, hl, hnd, hmem⟩ := hw.lists pri
    rw [hl]
    refine List.nodup_append.mpr ⟨h.nodup pri, hnd, fun a ha b hb hab => ?_⟩
    exact (hmem b hb).1 (hab ▸ h.state pri a ha)

/-- Without a thread the lists are those of the others. -/
theorem Queued.unlink_lists (h : Queued m) (hlist : m.priSchedList i = t :: rest) (j : Nat) :
    (m.unlink t).priSchedList j = if j = i then rest else m.priSchedList j := by
  show (m.priSchedList j).erase t = _
  split
  · rename_i hj
    rw [hj, hlist, List.erase_cons_head]
  · rename_i hj
    refine List.erase_of_not_mem fun ht => hj ?_
    exact h.index_eq ht (by rw [hlist]; exact List.mem_cons_self ..)

/-- A head goes to the end of its list. -/
theorem Queued.rotate (h : Queued m) (hlist : m.priSchedList i = t :: rest) :
    (remove t m >>= insertTail t) = .ok (m.setList i (rest ++ [t])) := by
  have ht : t ∈ m.priSchedList i := by rw [hlist]; exact List.mem_cons_self ..
  obtain ⟨hpri, hlt⟩ := h.pri i t ht
  have hremove : remove t m = .ok (m.unlink t) := by
    unfold remove
    rw [if_pos (h.linked_of_mem ht)]
    rfl
  have hnot : t ∉ rest := by
    have := h.nodup i
    rw [hlist] at this
    exact (List.nodup_cons.mp this).1
  have hfree : (m.unlink t).linked t = false := by
    refine Bool.eq_false_iff.mpr fun hl => ?_
    obtain ⟨j, -, hj⟩ := List.any_eq_true.mp hl
    have hj := of_decide_eq_true hj
    rw [h.unlink_lists hlist] at hj
    split at hj
    · exact hnot hj
    · rename_i hne
      exact hne (h.index_eq hj ht)
  rw [hremove, ok_bind]
  unfold insertTail insertWith
  have hp : ((m.unlink t).threads t).pri = i := hpri
  rw [hp, if_pos ⟨Int.natCast_nonneg i, Int.ofNat_lt.mpr hlt⟩, hfree]
  show Except.ok ((m.unlink t).setList (i : Int).toNat _) = _
  rw [Int.toNat_natCast, h.unlink_lists hlist, if_pos rfl]
  unfold Machine.setList
  congr 2
  funext j
  by_cases hj : j = i
  · subst hj
    simp
  · rw [Function.update_of_ne hj, Function.update_of_ne hj, h.unlink_lists hlist, if_neg hj]

theorem Queued.rotated (h : Queued m) (hlist : m.priSchedList i = t :: rest) : Queued (m.setList i (rest ++ [t])) := by
  have hmem : ∀ j u, u ∈ (m.setList i (rest ++ [t])).priSchedList j → u ∈ m.priSchedList j := fun j u hu => by
    by_cases hj : j = i
    · subst hj
      simp only [Machine.setList, Function.update_self] at hu
      rw [hlist]
      simpa [or_comm] using hu
    · simpa [Machine.setList, hj] using hu
  refine ⟨fun j u hu => h.state j u (hmem j u hu), fun j u hu => h.pri j u (hmem j u hu), fun j => ?_⟩
  by_cases hj : j = i
  · subst hj
    have := h.nodup j
    rw [hlist] at this
    simp only [Machine.setList, Function.update_self]
    exact (List.perm_append_singleton t rest).nodup_iff.mpr this
  · simpa [Machine.setList, hj] using h.nodup j

/-! ## What a pass leaves behind -/

/-- Past a head that sleeps. -/
theorem passed_rotated (hlist : m.priSchedList i = t :: rest) (hsleep : (m.threads t).awakeTime > now) :
    Passed now (m.setList i (rest ++ [t])) (i + 1) ↔ Passed now m i ∧ ∀ u ∈ rest, m.eligible now u = false := by
  have hself : (m.setList i (rest ++ [t])).priSchedList i = rest ++ [t] := by simp [Machine.setList]
  have hother : ∀ j, j ≠ i → (m.setList i (rest ++ [t])).priSchedList j = m.priSchedList j := fun j hj => by
    simp [Machine.setList, hj]
  have hasleep : m.eligible now t = false := decide_eq_false fun h => absurd h.2 (Nat.not_le.mpr hsleep)
  constructor
  · intro h
    refine ⟨fun j hj u hu => h j (Nat.lt_succ_of_lt hj) u ?_, fun u hu => h i (Nat.lt_succ_self i) u ?_⟩
    · rw [hother j (Nat.ne_of_lt hj)]
      exact hu
    · rw [hself]
      exact List.mem_append_left _ hu
  · rintro ⟨hp, hrest⟩ j hj u hu
    by_cases hji : j = i
    · subst hji
      rw [hself] at hu
      rcases List.mem_append.mp hu with hu | hu
      · exact hrest u hu
      · rw [List.mem_singleton] at hu
        rw [hu]
        exact hasleep
    · rw [hother j hji] at hu
      exact hp j (Nat.lt_of_le_of_ne (Nat.le_of_lt_succ hj) hji) u hu

/-- What the destruction of a head leaves: the lists without it, with the threads it woke at their ends. -/
theorem Queued.destroyed (now : Nat) (h : Queued m) (hlist : m.priSchedList i = t :: rest) {own : Bool}
    (hok : threadDestroy t m = .ok (own, m')) :
    Queued m' ∧ (∀ u, m'.eligible now u = m.eligible now u) ∧
      (∀ j u, u ∈ m'.priSchedList j ↔ u ∈ (if j = i then rest else m.priSchedList j) ∨ Woke m m' u ∧ (m.threads u).pri = j) ∧
      ∀ u, Woke m m' u → 0 ≤ (m.threads u).pri := by
  have ht : t ∈ m.priSchedList i := by rw [hlist]; exact List.mem_cons_self ..
  obtain ⟨m₁, hfree, hend⟩ : ∃ m₁, threadFree t m = .ok m₁ ∧
      (if m₁.currentThread = some t then (true, { m₁ with currentThread := none }) else (false, m₁)) = (own, m') := by
    unfold threadDestroy at hok
    cases hf : threadFree t m with
    | error e =>
      rw [hf] at hok
      cases hok
    | ok m₁ =>
      rw [hf] at hok
      exact ⟨m₁, rfl, Except.ok.inj hok⟩
  have hm' : m'.threads = m₁.threads ∧ m'.priSchedList = m₁.priSchedList := by
    split at hend
    · cases hend
      exact ⟨rfl, rfl⟩
    · cases hend
      exact ⟨rfl, rfl⟩
  obtain ⟨m₀, hw, hm₁⟩ := threadFree_spec.of_ok hfree
  have hq := h.wakes hw
  rw [if_pos (hw.runnable (h.state i t ht))] at hm₁
  obtain ⟨l, hl, -, -⟩ := hw.lists i
  have hlist₀ : m₀.priSchedList i = t :: (rest ++ l) := by rw [hl, hlist, List.cons_append]
  have hlists : ∀ j, m'.priSchedList j = if j = i then rest ++ l else m₀.priSchedList j := fun j => by
    rw [hm'.2, hm₁]
    exact hq.unlink_lists hlist₀ j
  have hthreads : ∀ u, u ≠ t → m'.threads u = m₀.threads u := fun u hu => by
    rw [hm'.1, hm₁]
    simp [retire, Machine.setState, Machine.setThread, Machine.unlink, hu]
  have hself : m'.threads t = { m₀.threads t with state := .unused } := by
    rw [hm'.1, hm₁]
    simp [retire, Machine.setState, Machine.setThread, Machine.unlink]
  have hnot : ∀ j, t ∉ m'.priSchedList j := fun j hj => by
    rw [hlists] at hj
    split at hj
    · have := hq.nodup i
      rw [hlist₀] at this
      exact (List.nodup_cons.mp this).1 hj
    · rename_i hne
      exact hne (hq.index_eq hj (by rw [hlist₀]; exact List.mem_cons_self ..))
  have hsub : ∀ j u, u ∈ m'.priSchedList j → u ∈ m₀.priSchedList j := fun j u hu => by
    rw [hlists] at hu
    split at hu
    · rename_i hj
      rw [hj, hlist₀]
      exact List.mem_cons_of_mem _ hu
    · exact hu
  have hne : ∀ j u, u ∈ m'.priSchedList j → u ≠ t := fun j u hu hut => hnot j (hut ▸ hu)
  have hwoke : ∀ u, Woke m m' u → u ≠ t ∧ ∃ q : Nat, u ∈ m₀.priSchedList q ∧ (m.threads u).pri = q := fun u hu => by
    have hut : u ≠ t := fun hut => hu.1 (hut ▸ h.state i t ht)
    exact ⟨hut, hw.queued u hu.1 (hthreads u hut ▸ hu.2)⟩
  refine ⟨⟨fun j u hu => ?_, fun j u hu => ?_, fun j => ?_⟩, fun u => ?_, fun j u => ⟨fun hu => ?_, ?_⟩, fun u hu => ?_⟩
  · rw [hthreads u (hne j u hu)]
    exact hq.state j u (hsub j u hu)
  · rw [hthreads u (hne j u hu)]
    exact hq.pri j u (hsub j u hu)
  · rw [hlists]
    split
    · have := hq.nodup i
      rw [hlist₀] at this
      exact (List.nodup_cons.mp this).2
    · exact hq.nodup j
  · unfold Machine.eligible
    by_cases hu : u = t
    · subst hu
      rw [hself, ← hw.killed, ← hw.awakeTime]
    · rw [hthreads u hu, ← hw.killed, ← hw.awakeTime]
  · obtain ⟨l', hl', -, hmem'⟩ := hw.lists j
    have hu₀ := hsub j u hu
    rw [hl'] at hu₀
    rcases List.mem_append.mp hu₀ with hold | hnew
    · left
      split
      · rename_i hj
        rw [hj, hlist] at hold
        exact (List.mem_cons.mp hold).resolve_left (hne j u hu)
      · exact hold
    · obtain ⟨hs, hr, hp, -⟩ := hmem' u hnew
      refine .inr ⟨⟨hs, ?_⟩, hp⟩
      rw [hthreads u (hne j u hu)]
      exact hr
  · rintro (hu | ⟨hu, hp⟩)
    · rw [hlists]
      split at hu
      · rename_i hj
        rw [if_pos hj]
        exact List.mem_append_left _ hu
      · rename_i hj
        rw [if_neg hj]
        exact hw.mem hu
    · obtain ⟨hut, q, hmem, hq'⟩ := hwoke u hu
      have hjq : q = j := Int.ofNat.inj (hq'.symm.trans hp)
      subst hjq
      rw [hlists]
      split
      · rename_i hj
        rw [hj, hlist₀] at hmem
        exact (List.mem_cons.mp hmem).resolve_left hut
      · exact hmem
  · obtain ⟨-, q, -, hq'⟩ := hwoke u hu
    rw [hq']
    exact Int.natCast_nonneg q

/-- Past a head that is destroyed. -/
theorem passed_destroyed (hpass : ∀ u, m'.eligible now u = m.eligible now u)
    (hlists : ∀ j u, u ∈ m'.priSchedList j ↔ u ∈ (if j = i then rest else m.priSchedList j) ∨ Woke m m' u ∧ (m.threads u).pri = j)
    (hin : ∀ u, Woke m m' u → 0 ≤ (m.threads u).pri) :
    Passed now m' (i + 1) ↔ Passed now m i ∧ (∀ u ∈ rest, m.eligible now u = false) ∧
      ∀ u, Woke m m' u → m.eligible now u → i < (m.threads u).pri := by
  constructor
  · intro h
    refine ⟨fun j hj u hu => ?_, fun u hu => ?_, fun u hu he => ?_⟩
    · rw [← hpass]
      refine h j (Nat.lt_succ_of_lt hj) u ((hlists j u).mpr (.inl ?_))
      rw [if_neg (Nat.ne_of_lt hj)]
      exact hu
    · rw [← hpass]
      refine h i (Nat.lt_succ_self i) u ((hlists i u).mpr (.inl ?_))
      rw [if_pos rfl]
      exact hu
    · by_contra hle
      have hpri := Int.toNat_of_nonneg (hin u hu)
      have hmem : u ∈ m'.priSchedList (m.threads u).pri.toNat := (hlists _ u).mpr (.inr ⟨hu, hpri.symm⟩)
      have := h _ (by omega) u hmem
      rw [hpass, he] at this
      cases this
  · rintro ⟨hp, hrest, hwoke⟩ j hj u hu
    rw [hpass]
    rcases (hlists j u).mp hu with hu | ⟨hu, hpri⟩
    · split at hu
      · exact hrest u hu
      · rename_i hne
        exact hp j (Nat.lt_of_le_of_ne (Nat.le_of_lt_succ hj) hne) u hu
    · by_contra he
      have := hwoke u hu (by simpa using he)
      omega

end Queued

/-! ## The thread a pass picks -/

section Pick

variable {m m' : Machine} {now i t : Nat} {rest : List Nat}

theorem passed_empty (hlist : m.priSchedList i = []) : Passed now m (i + 1) ↔ Passed now m i := by
  constructor
  · exact fun h j hj => h j (Nat.lt_succ_of_lt hj)
  · intro h j hj u hu
    by_cases hji : j = i
    · rw [hji, hlist] at hu
      cases hu
    · exact h j (Nat.lt_of_le_of_ne (Nat.le_of_lt_succ hj) hji) u hu

/-- A head that may run is the first when the lists before it hold nobody who may. -/
theorem Queued.first_head (h : Queued m) (hlist : m.priSchedList i = t :: rest) (hel : m.eligible now t = true) :
    First now m t ↔ Passed now m i := by
  have ht : t ∈ m.priSchedList i := by rw [hlist]; exact List.mem_cons_self ..
  constructor
  · rintro ⟨pri, -, hfind, hbefore⟩
    rwa [h.index_eq (List.mem_of_find?_eq_some hfind) ht] at hbefore
  · intro hp
    refine ⟨i, (h.pri i t ht).2, ?_, hp⟩
    rw [hlist, List.find?_cons_of_pos hel]

/-- From list `i` on. -/
theorem Queued.scan_first (h : Queued m) (n : Nat) (hok : scan now (List.range' i n) m = .ok (.picked t, m')) :
    First now m' t ↔ Passed now m i ∧ Unblocked now (List.range' i n) m := by
  -- the lists still to come are counted down; what has been passed grows by one list at a time
  induction n generalizing i m with
  | zero => cases hok
  | succ n ih =>
    rw [List.range'_succ] at hok ⊢
    cases hlist : m.priSchedList i with
    | nil =>
      simp only [scan, hlist] at hok
      simp only [Unblocked, hlist]
      rw [ih h hok, passed_empty hlist]
    | cons th rest =>
      simp only [scan, hlist] at hok
      simp only [Unblocked, hlist]
      by_cases hkilled : (m.threads th).killed = true
      · rw [if_pos hkilled] at hok ⊢
        obtain ⟨⟨own, m₁⟩, hd, hok⟩ := bind_ok hok
        cases own with
        | true => cases hok
        | false =>
          obtain ⟨hq, hel, hlists, hin⟩ := h.destroyed now hlist hd
          rw [ih hq hok, passed_destroyed hel hlists hin]
          constructor
          · rintro ⟨⟨hp, hrest, hwoke⟩, hnext⟩
            refine ⟨hp, hrest, fun own m₂ hd' => ?_⟩
            rw [hd] at hd'
            cases hd'
            exact ⟨hwoke, fun _ => hnext⟩
          · rintro ⟨hp, hrest, hall⟩
            exact ⟨⟨hp, hrest, (hall false m₁ hd).1⟩, (hall false m₁ hd).2 rfl⟩
      · rw [if_neg hkilled] at hok ⊢
        by_cases hsleep : (m.threads th).awakeTime > now
        · rw [if_pos hsleep] at hok ⊢
          have hrot : (remove th m >>= insertTail th >>= scan now (List.range' (i + 1) n)) = .ok (.picked t, m') := by
            rw [bind_assoc]
            exact hok
          rw [h.rotate hlist, ok_bind] at hrot
          rw [ih (h.rotated hlist) hrot, passed_rotated hlist hsleep, and_assoc]
        · rw [if_neg hsleep] at hok ⊢
          cases hok
          rw [h.first_head hlist (decide_eq_true ⟨by simpa using hkilled, Nat.le_of_not_lt hsleep⟩)]
          exact (and_iff_left trivial).symm

/-- **Strict priority.** The thread a pass picks is the first that may run exactly when nobody who may run is
kept behind a head that may not. -/
theorem pass_first_iff (h : RunQueues m) (hok : pass now m = .ok (.picked t, m')) :
    First now m' t ↔ Unblocked now (List.range PRI_COUNT) m := by
  unfold pass at hok
  rw [List.range_eq_range'] at hok ⊢
  rw [h.queued.scan_first _ hok]
  exact and_iff_right fun j hj => absurd hj (Nat.not_lt_zero j)

end Pick

/-! ## A thread kept waiting -/

/-- Thread 0 sleeps until 5 at the head of the list of priority 99; 1 is behind it and 2 one list on. -/
def blocked : Machine where
  threads := fun t =>
    { trapframe := fun _ => 0, awakeTime := if t = 0 then 5 else 0, threadId := t
      state := if t < 3 then .runnable else .unused
      channel := none, reason := false, retValue := 0, clearChildTid := 0, process := some t
      schedPolicy := SCHED_FIFO, schedPriority := if t < 2 then 99 else 98, killed := false }
  procs := fun _ => { processId := 0, parentId := 0, state := .runnable, retValue := 0, threadCount := 1, ofile := fun _ => none }
  files := fun _ => { type := .none, ref := 0, readable := false, writable := false, pipe := 0, socket := 0, tmpfile := 0 }
  freeThreads := []
  usedThreads := [0, 1, 2]
  freeProcesses := []
  usedProcesses := [0, 1, 2]
  priSchedList := fun pri => if pri = 0 then [0, 1] else if pri = 1 then [2] else []
  currentThread := none
  futexQueue := fun _ => { addr := 0, thread := 0, valid := false }
  hart := fun _ => 0
  nextThreadId := 3
  nextProcessId := 3

theorem runQueues_blocked : RunQueues blocked := by
  have hmem : ∀ pri t, t ∈ blocked.priSchedList pri → pri = 0 ∧ t < 2 ∨ pri = 1 ∧ t = 2 := fun pri t ht => by
    simp only [blocked] at ht
    split at ht
    · simp at ht
      omega
    · split at ht
      · simp at ht
        omega
      · cases ht
  refine ⟨fun pri t ht => ?_, fun pri t ht => ?_, fun pri t ht => ?_, fun pri => ?_, fun t ht => ?_⟩
  · rcases hmem pri t ht with ⟨-, h⟩ | ⟨-, h⟩
    · simp only [blocked, List.mem_cons, List.not_mem_nil, or_false]
      omega
    · simp [blocked, h]
  · have : t < 3 := by rcases hmem pri t ht with ⟨-, h⟩ | ⟨-, h⟩ <;> omega
    simp [blocked, this]
  · rcases hmem pri t ht with ⟨rfl, h⟩ | ⟨rfl, rfl⟩
    · simp only [blocked, Thread.pri, if_pos h]
      decide
    · simp [blocked, Thread.pri, PRI_COUNT]
  · simp only [blocked]
    split
    · decide
    · split <;> decide
  · have hlt : t < 3 := by
      by_contra h
      simp [blocked, h] at ht
    by_cases h2 : t = 2
    · exact ⟨1, by simp [blocked, h2]⟩
    · refine ⟨0, ?_⟩
      simp only [blocked, if_true, List.mem_cons, List.not_mem_nil, or_false]
      omega

/-- At time 0 the pass turns to thread 2 while thread 1, of a higher priority, may run. -/
theorem pass_blocked_not_first :
    ∃ m', RunQueues blocked ∧ pass 0 blocked = .ok (.picked 2, m') ∧ ¬ First 0 m' 2 := by
  have hlist : blocked.priSchedList 0 = 0 :: [1] := rfl
  have hrot : (remove 0 blocked >>= insertTail 0) = .ok (blocked.setList 0 ([1] ++ [0])) := runQueues_blocked.queued.rotate hlist
  refine ⟨blocked.setList 0 [1, 0], runQueues_blocked, ?_, fun hfirst => ?_⟩
  · show (remove 0 blocked >>= fun m => insertTail 0 m >>= scan 0 (List.range' 1 139)) = _
    rw [← bind_assoc, hrot]
    rfl
  · have hq : Queued (blocked.setList 0 ([1] ++ [0])) := runQueues_blocked.queued.rotated hlist
    have hpassed := (hq.first_head (i := 1) rfl rfl).mp hfirst
    exact absurd (hpassed 0 Nat.one_pos 1 (List.mem_cons_self ..)) (by decide)

/-- As `blocked`, but thread 1 sleeps too. -/
def asleep : Machine := blocked.setThread 1 { blocked.threads 1 with awakeTime := 7 }

theorem runQueues_asleep : RunQueues asleep := by
  have hstate : ∀ t, (asleep.threads t).state = (blocked.threads t).state := fun t => by
    by_cases ht : t = 1
    · subst ht
      rfl
    · exact congrArg Thread.state (Function.update_of_ne ht _ blocked.threads)
  have hpri : ∀ t, (asleep.threads t).pri = (blocked.threads t).pri := fun t => by
    by_cases ht : t = 1
    · subst ht
      rfl
    · exact congrArg Thread.pri (Function.update_of_ne ht _ blocked.threads)
  have h := runQueues_blocked
  exact ⟨h.used, fun pri t ht => (hstate t).trans (h.state pri t ht), fun pri t ht => by rw [hpri]; exact h.pri pri t ht,
    h.nodup, fun t ht => h.linked t ((hstate t).symm.trans ht)⟩

/-- With both threads of priority 99 asleep at time 0 the pass turns the head of their list to its end, and takes thread 2
of the next list: nobody who may run stood behind the head. -/
theorem pass_first_iff_asleep : ∃ m', RunQueues asleep ∧ pass 0 asleep = .ok (.picked 2, m') ∧ m'.priSchedList 0 = [1, 0] ∧
    (First 0 m' 2 ↔ Unblocked 0 (List.range PRI_COUNT) asleep) := by
  have hlist : asleep.priSchedList 0 = 0 :: [1] := rfl
  have hrot : (remove 0 asleep >>= insertTail 0) = .ok (asleep.setList 0 ([1] ++ [0])) := runQueues_asleep.queued.rotate hlist
  have hpass : pass 0 asleep = .ok (.picked 2, asleep.setList 0 ([1] ++ [0])) := by
    show (remove 0 asleep >>= fun m => insertTail 0 m >>= scan 0 (List.range' 1 139)) = _
    rw [← bind_assoc, hrot]
    rfl
  exact ⟨_, runQueues_asleep, hpass, rfl, pass_first_iff runQueues_asleep hpass⟩

end Exaros.Sched
