import Exaros.Process.Members

/-!
# Parents and children

The life of the processes over runs of `clone`, `exit` and `wait`, with the yields, sleeps and wakes that
interleave them. `Family` adds to the machine what only the statements read: who forked whom, what a process
left behind, and the ids that have been handed out and handed back.

**What it does not establish.** That a parent ever waits for its children.
-/

namespace Exaros.Sched

open Loop Run
open Files (PROCESS_TOTAL_NUMBER)

structure Family where
  machine : Machine
  /-- The id of the process that forked the one in the slot, 0 for none. -/
  forker : Nat → Nat
  /-- `retValue` as the process left it. -/
  status : Nat → Option Nat
  handed : List Nat
  reaped : List Nat

inductive Event
  | call (op : Op)
  | wait (p : Nat) (targetProcessId : Int) (addr : Nat) (e : WaitEnd)
  | pass

/-- The calls of these runs, `wait` apart. -/
def Op.Plain : Op → Prop
  | .create _ _ | .clone _ _ _ _ _ | .callYield _ | .timeYield _ | .sleep _ _ | .resume _ | .wakeup _ | .nanosleep _ _
  | .exit _ _ => True
  | _ => False

/-- The id of the process that makes a new one: the kernel has none. -/
def Op.caller (op : Op) (m : Machine) : Nat :=
  match op, m.processRunning with
  | .clone _ _ _ _ _, some p => (m.procs p).processId
  | _, _ => 0

/-- What a process leaves with its last thread. -/
def Op.value : Op → Nat
  | .exit ec _ => (ec <<< 8) % 2 ^ 32
  | _ => 0

/-- Ids do not wrap. -/
def Machine.Unwrapped (m : Machine) : Prop := m.nextProcessId < 2 ^ 21

namespace Family

/-- The family after a step of the machine to `m'`, in which `caller` may have made a process. -/
def after (w : Family) (caller : Nat) (m' : Machine) : Family where
  machine := m'
  forker := fun c => if c ∈ w.machine.freeProcesses ∧ c ∉ m'.freeProcesses then caller else w.forker c
  status := fun c =>
    if (w.machine.procs c).state ≠ .zombie ∧ (m'.procs c).state = .zombie then some (m'.procs c).retValue else w.status c
  handed := ((w.machine.freeProcesses.filter fun c => c ∉ m'.freeProcesses ∧ (m'.procs c).state ≠ .unused).map
    fun c => (m'.procs c).processId) ++ w.handed
  reaped := w.reaped

/-- The ids `wait` hands back. -/
def handBack (e : WaitEnd) (w : Family) : Family :=
  match e with
  | .reaped pid _ => { w with reaped := pid :: w.reaped }
  | _ => w

inductive Step : Family → Event → Family → Prop
  | call {w : Family} {m' : Machine} (op : Op) : op.Plain → op.clock = [] → op.Called w.machine →
      exec op w.machine = .ok m' → m'.Unwrapped → Step w (.call op) (w.after (op.caller w.machine) m')
  | wait {w : Family} {m' : Machine} {t p addr : Nat} {targetProcessId : Int} {e : WaitEnd} : w.machine.busy →
      myThread w.machine = .ok (t, p) → Sched.wait targetProcessId addr [] w.machine = .ok (e, m') →
      Step w (.wait p targetProcessId addr e) (handBack e (w.after 0 m'))
  | look {w : Family} {m' : Machine} {now : Nat} {r : Pass} : ¬ w.machine.busy → pass now w.machine = .ok (r, m') →
      (∀ t, r ≠ .picked t) → Step w .pass (w.after 0 m')
  | select {w : Family} {m₁ m' : Machine} {now t : Nat} : ¬ w.machine.busy → pass now w.machine = .ok (.picked t, m₁) →
      dispatch t m₁ = .ok m' → Step w .pass (w.after 0 m')

/-- The machine just booted. -/
def Start (w : Family) : Prop := w.machine = boot ∧ w.handed = [] ∧ w.reaped = []

def Reached (w : Family) : Prop := Reach Start (fun w w' => ∃ e, Step w e w') w

/-- Every slot is in one of the two lists, once; no id is handed out twice, nor handed back twice. -/
structure Kept (w : Family) : Prop where
  slots : (w.machine.freeProcesses ++ w.machine.usedProcesses).Perm (List.range PROCESS_TOTAL_NUMBER)
  handed : w.handed.Nodup
  reaped : w.reaped.Nodup
  known : ∀ i ∈ w.reaped, i ∈ w.handed

/-- What a step may do to a process: its parent alone hands it back, when it is a `ZOMBIE`, with what it left. -/
structure Fair (w : Family) (e : Event) (w' : Family) : Prop where
  moved : ∀ c ∈ w.machine.usedProcesses, c ∈ w'.machine.freeProcesses →
    ∃ p targetProcessId addr value, (w.machine.procs c).state = .zombie ∧ w.forker c = (w.machine.procs p).processId ∧
      w.status c = some value ∧
      e = .wait p targetProcessId addr (.reaped (w.machine.procs c).processId (if addr ≠ 0 then some value else none))
  returned : ∀ p targetProcessId addr pid stored, e = .wait p targetProcessId addr (.reaped pid stored) →
    ∃ c ∈ w.machine.usedProcesses, c ∈ w'.machine.freeProcesses ∧ (w.machine.procs c).processId = pid
  failed : ∀ p targetProcessId addr, e = .wait p targetProcessId addr .failed → ∀ c ∈ w.machine.usedProcesses,
    (w.machine.procs c).state ≠ .unused → w.forker c ≠ (w.machine.procs p).processId
  live : ∀ c ∈ w.machine.usedProcesses, (w.machine.procs c).state ≠ .zombie → c ∈ w'.machine.usedProcesses
  exited : ∀ ec c, e = .call (.exit ec []) → (w.machine.procs c).state ≠ .zombie → (w'.machine.procs c).state = .zombie →
    w'.status c = some ((ec <<< 8) % 2 ^ 32)

end Family

/-! ## The threads -/

section Kin

variable {m m' : Machine} {member : Nat → Option Nat} {t p : Nat}

theorem processRunning_of_myThread (h : myThread m = .ok (t, p)) : m.processRunning = some p := by
  have hcur := myThread_ok h
  unfold myThread at h
  rw [hcur] at h
  dsimp only at h
  unfold Machine.processRunning
  rw [hcur]
  split at h
  · cases h
  · rename_i q hq
    cases h
    exact hq

/-- **What a call does** to threads and processes. -/
theorem Kin.exec (h : Kin m member) (hdisj : ∀ c ∈ m.freeProcesses, c ∉ m.usedProcesses) {op : Op} (hplain : op.Plain)
    (hclock : op.clock = []) (hcalled : op.Called m) (hok : Sched.exec op m = .ok m') :
    ∃ member', Kin m' member' ∧ Turn (op.caller m) op.value m m' := by
  have hquiet : Quiet m m' → ∃ member', Kin m' member' ∧ Turn (op.caller m) op.value m m' := fun hq =>
    ⟨member, h.quiet hq, hq.turn⟩
  cases op with
  | create pages frame => exact h.processCreatePriority hdisj hok
  | clone pages flags stackVa tls ctid =>
    obtain ⟨⟨r, m₁⟩, h₁, rfl⟩ := map_ok hok
    unfold clone at h₁
    split at h₁
    · obtain ⟨⟨t, p⟩, hmy⟩ : ∃ s, myThread m = .ok s := by
        obtain ⟨s, hs, -⟩ := bind_ok h₁
        exact ⟨s, hs⟩
      exact h.threadFork hmy h₁
    · obtain ⟨⟨t, p⟩, hmy⟩ : ∃ s, myThread m = .ok s := by
        obtain ⟨s, hs, -⟩ := bind_ok h₁
        exact ⟨s, hs⟩
      have hcaller : (Op.clone pages flags stackVa tls ctid).caller m = (m.procs p).processId := by
        unfold Op.caller
        rw [processRunning_of_myThread hmy]
      rw [hcaller]
      exact h.processFork hdisj hmy h₁
  | callYield clock =>
    cases (show clock = [] from hclock)
    obtain ⟨t, hcur, -⟩ := hcalled
    exact hquiet (quiet_callYield h.queued hcur hok)
  | timeYield clock =>
    cases (show clock = [] from hclock)
    obtain ⟨t, hcur, -⟩ := hcalled
    exact hquiet (quiet_timeYield h.queued hcur hok)
  | sleep channel clock =>
    cases (show clock = [] from hclock)
    exact hquiet (quiet_sleep h.queued h.killed hcalled hok)
  | resume clock =>
    cases (show clock = [] from hclock)
    exact hquiet (quiet_resume h.queued h.killed hok)
  | wakeup channel => exact hquiet ((moves_wakeup hok).rouse h.queued).quiet
  | nanosleep time clock =>
    cases (show clock = [] from hclock)
    exact hquiet (quiet_nanosleep h.queued hok)
  | exit ec clock =>
    cases (show clock = [] from hclock)
    exact h.exit hcalled hok
  | setscheduler => exact hplain.elim
  | futexWait => exact hplain.elim
  | futexWake => exact hplain.elim
  | futexRequeue => exact hplain.elim
  | sigkill => exact hplain.elim
  | reap => exact hplain.elim

/-- A `ZOMBIE` that is taken has no member. -/
theorem Kin.reap (h : Kin m member) {c : Nat} (hzombie : (m.procs c).state = .zombie) : Kin (Sched.reap c m) member := by
  have hne : ∀ u q, member u = some q → q ≠ c := fun u q hu hq => by
    have := (h.alive u q hu).2
    rw [hq, hzombie] at this
    cases this
  refine ⟨⟨h.queued.state, h.queued.pri, h.queued.nodup⟩, h.killed, h.futex, h.process, h.attached, h.free, h.nodup, h.range,
    fun q => ?_, fun u q hu => ?_⟩
  · rw [← h.count q]
    show Proc.threadCount (Function.update m.procs c _ q) = _
    by_cases hq : q = c
    · rw [hq, Function.update_self]
    · rw [Function.update_of_ne hq]
  · obtain ⟨hused, hstate⟩ := h.alive u q hu
    refine ⟨(List.mem_erase_of_ne (hne u q hu)).mpr hused, ?_⟩
    show Proc.state (Function.update m.procs c _ q) = _
    rw [Function.update_of_ne (hne u q hu), hstate]

/-- A `wait` takes a zombie of the caller's, or the round has changed nothing. -/
theorem wait_cases {target : Int} {addr : Nat} {e : WaitEnd} (h : Queued m) (hk : ∀ t, (m.threads t).killed = false) (hb : m.busy)
    (hmy : myThread m = .ok (t, p)) (hok : wait target addr [] m = .ok (e, m')) :
    (∃ c ∈ m.usedProcesses, (m.procs c).parentId = (m.procs p).processId ∧ (m.procs c).state = .zombie ∧
      e = .reaped (m.procs c).processId (if addr ≠ 0 then some (m.procs c).retValue else none) ∧ m' = Sched.reap c m) ∨
    (e = .failed ∧ m' = m ∧ ∀ c ∈ m.usedProcesses, (m.procs c).parentId ≠ (m.procs p).processId) ∨ (e = .asleep ∧ Quiet m m') := by
  unfold wait at hok
  rw [hmy, ok_bind] at hok
  dsimp only at hok
  rcases waitRound_cases p target addr false m.usedProcesses m with ⟨c, hc, hpar, -, hzombie, hend⟩ | ⟨-, hend⟩
  · rw [hend] at hok
    cases hok
    exact .inl ⟨c, hc, hpar, hzombie, rfl, rfl⟩
  · rw [hend] at hok
    by_cases hchild : ∃ c ∈ m.usedProcesses, (m.procs c).parentId = (m.procs p).processId
    · rw [if_pos (.inr hchild)] at hok
      obtain ⟨m₁, h₁, heq⟩ := map_ok hok
      cases heq
      exact .inr (.inr ⟨rfl, quiet_sleep h hk hb h₁⟩)
    · have hfalse : ¬ (false = true ∨ ∃ c ∈ m.usedProcesses, (m.procs c).parentId = (m.procs p).processId) := fun h =>
        h.elim Bool.false_ne_true hchild
      rw [if_neg hfalse] at hok
      cases hok
      exact .inr (.inl ⟨rfl, rfl, fun c hc hpar => hchild ⟨c, hc, hpar⟩⟩)

end Kin

/-! ## The processes -/

/-- What the statements read agrees with what the slots say. -/
structure Ledger (w : Family) : Prop where
  perm : (w.machine.freeProcesses ++ w.machine.usedProcesses).Perm (List.range PROCESS_TOTAL_NUMBER)
  forker : ∀ c ∈ w.machine.usedProcesses, (w.machine.procs c).state ≠ .unused → w.forker c = (w.machine.procs c).parentId
  status : ∀ c ∈ w.machine.usedProcesses, (w.machine.procs c).state = .zombie → w.status c = some (w.machine.procs c).retValue
  id : ∀ c ∈ w.machine.usedProcesses, (w.machine.procs c).state ≠ .unused →
    (w.machine.procs c).processId ∈ w.handed ∧ (w.machine.procs c).processId ∉ w.reaped ∧ (w.machine.procs c).processId % 2 ^ 11 = c
  handed : w.handed.Nodup
  bound : ∀ i ∈ w.handed, i < (w.machine.nextProcessId + 1) * 2 ^ 11
  reaped : w.reaped.Nodup
  known : ∀ i ∈ w.reaped, i ∈ w.handed
  next : w.machine.Unwrapped

section Ledger

variable {w : Family} {m' : Machine} {caller value c : Nat}

theorem Ledger.nodup (h : Ledger w) : (w.machine.freeProcesses ++ w.machine.usedProcesses).Nodup :=
  h.perm.nodup_iff.mpr List.nodup_range

theorem Ledger.disjoint (h : Ledger w) : ∀ c ∈ w.machine.freeProcesses, c ∉ w.machine.usedProcesses := fun c hf hu =>
  (List.nodup_append.mp h.nodup).2.2 c hf c hu rfl

theorem Ledger.free_lt (h : Ledger w) (hc : c ∈ w.machine.freeProcesses) : c < PROCESS_TOTAL_NUMBER :=
  List.mem_range.mp (h.perm.mem_iff.mp (List.mem_append_left _ hc))

theorem record_fields {a b : Proc} (h : a.record = b.record) :
    a.processId = b.processId ∧ a.parentId = b.parentId ∧ a.state = b.state ∧ a.retValue = b.retValue := by
  unfold Proc.record at h
  simp only [Prod.mk.injEq] at h
  exact h

/-- No slot has left the free list. -/
theorem after_same (w : Family) (caller : Nat) (hfree : m'.freeProcesses = w.machine.freeProcesses) :
    (w.after caller m').forker = w.forker ∧ (w.after caller m').handed = w.handed := by
  constructor
  · funext c
    show (if c ∈ w.machine.freeProcesses ∧ c ∉ m'.freeProcesses then caller else w.forker c) = _
    rw [if_neg]
    rw [hfree]
    exact fun h => h.2 h.1
  · show (w.machine.freeProcesses.filter _).map _ ++ w.handed = _
    rw [List.filter_eq_nil_iff.mpr, List.map_nil, List.nil_append]
    intro c hc hnew
    rw [hfree] at hnew
    simp only [decide_eq_true_eq] at hnew
    exact hnew.1 hc

/-- The first slot has left the free list. -/
theorem after_taken (w : Family) (caller : Nat) {rest : List Nat} (hnodup : w.machine.freeProcesses.Nodup)
    (hfree : w.machine.freeProcesses = c :: rest) (hfree' : m'.freeProcesses = rest) :
    (∀ d, (w.after caller m').forker d = if d = c then caller else w.forker d) ∧
      (w.after caller m').handed = (if (m'.procs c).state ≠ .unused then [(m'.procs c).processId] else []) ++ w.handed := by
  rw [hfree] at hnodup
  have hnot := (List.nodup_cons.mp hnodup).1
  constructor
  · intro d
    show (if d ∈ w.machine.freeProcesses ∧ d ∉ m'.freeProcesses then caller else w.forker d) = _
    have hiff : (d ∈ w.machine.freeProcesses ∧ d ∉ m'.freeProcesses) ↔ d = c := by
      rw [hfree, hfree']
      constructor
      · rintro ⟨hd, hout⟩
        exact (List.mem_cons.mp hd).resolve_right hout
      · rintro rfl
        exact ⟨List.mem_cons_self .., hnot⟩
    simp only [hiff]
  · show (w.machine.freeProcesses.filter _).map _ ++ w.handed = _
    rw [hfree, hfree']
    have hrest : (rest.filter fun d => decide (d ∉ rest ∧ (m'.procs d).state ≠ .unused)) = [] := by
      rw [List.filter_eq_nil_iff]
      intro d hd hnew
      exact (of_decide_eq_true hnew).1 hd
    rw [List.filter_cons, hrest]
    by_cases hstate : (m'.procs c).state ≠ .unused
    · rw [if_pos (decide_eq_true ⟨hnot, hstate⟩), if_pos hstate]
      rfl
    · rw [if_neg fun hd => hstate (of_decide_eq_true hd).2, if_neg hstate]
      rfl

theorem after_status (w : Family) (caller : Nat) (hzombie : (m'.procs c).state = .zombie)
    (hbefore : (w.machine.procs c).state = .zombie → w.status c = some (m'.procs c).retValue) :
    (w.after caller m').status c = some (m'.procs c).retValue := by
  show (if _ ≠ _ ∧ _ = _ then some (m'.procs c).retValue else w.status c) = _
  by_cases hwas : (w.machine.procs c).state = .zombie
  · rw [if_neg fun h => h.1 hwas]
    exact hbefore hwas
  · rw [if_pos ⟨hwas, hzombie⟩]

/-- A step that takes no slot off the free list. -/
theorem Ledger.keep (h : Ledger w) (hfree : m'.freeProcesses = w.machine.freeProcesses)
    (hused : m'.usedProcesses = w.machine.usedProcesses) (hnext : m'.nextProcessId = w.machine.nextProcessId)
    (hrecord : ∀ c ∈ w.machine.usedProcesses, (m'.procs c).record = (w.machine.procs c).record ∨
      (m'.procs c).processId = (w.machine.procs c).processId ∧ (m'.procs c).parentId = (w.machine.procs c).parentId ∧
      (w.machine.procs c).state = .runnable) : Ledger (w.after caller m') := by
  obtain ⟨hforker, hhanded⟩ := after_same w caller hfree
  have hids : ∀ c ∈ w.machine.usedProcesses, (m'.procs c).processId = (w.machine.procs c).processId ∧
      (m'.procs c).parentId = (w.machine.procs c).parentId ∧ ((m'.procs c).state ≠ .unused → (w.machine.procs c).state ≠ .unused) := by
    intro c hc
    rcases hrecord c hc with hsame | ⟨hpid, hpar, hrun⟩
    · obtain ⟨hpid, hpar, hstate, -⟩ := record_fields hsame
      exact ⟨hpid, hpar, fun hs => by rw [← hstate]; exact hs⟩
    · refine ⟨hpid, hpar, fun _ => ?_⟩
      rw [hrun]
      decide
  refine ⟨?_, fun c hc hs => ?_, fun c hc hs => ?_, fun c hc hs => ?_, ?_, fun i hi => ?_, h.reaped, fun i hi => ?_, ?_⟩
  · show (m'.freeProcesses ++ m'.usedProcesses).Perm _
    rw [hfree, hused]
    exact h.perm
  · have hc' : c ∈ w.machine.usedProcesses := by rw [← hused]; exact hc
    obtain ⟨-, hpar, hstate⟩ := hids c hc'
    rw [hforker, h.forker c hc' (hstate hs)]
    exact hpar.symm
  · have hc' : c ∈ w.machine.usedProcesses := by rw [← hused]; exact hc
    refine after_status w caller hs fun hwas => ?_
    rcases hrecord c hc' with hsame | ⟨-, -, hrun⟩
    · rw [(record_fields hsame).2.2.2]
      exact h.status c hc' hwas
    · rw [hrun] at hwas
      cases hwas
  · have hc' : c ∈ w.machine.usedProcesses := by rw [← hused]; exact hc
    obtain ⟨hpid, -, hstate⟩ := hids c hc'
    rw [hhanded]
    show (m'.procs c).processId ∈ _ ∧ (m'.procs c).processId ∉ _ ∧ (m'.procs c).processId % 2 ^ 11 = c
    rw [hpid]
    exact h.id c hc' (hstate hs)
  · rw [hhanded]
    exact h.handed
  · rw [hhanded] at hi
    show i < (m'.nextProcessId + 1) * 2 ^ 11
    rw [hnext]
    exact h.bound i hi
  · rw [hhanded]
    exact h.known i hi
  · show m'.nextProcessId < 2 ^ 21
    rw [hnext]
    exact h.next

/-- A step that takes a slot off the free list, and sets a process up there or not. -/
theorem Ledger.take (h : Ledger w) {rest : List Nat} (hc : w.machine.freeProcesses = c :: rest) (hf : m'.freeProcesses = rest)
    (hu : m'.usedProcesses = c :: w.machine.usedProcesses) (hr : ∀ d, d ≠ c → (m'.procs d).record = (w.machine.procs d).record)
    (hlow : w.machine.nextProcessId ≤ m'.nextProcessId) (hunwrapped : m'.Unwrapped) (hzombie : (m'.procs c).state ≠ .zombie)
    (hset : (m'.procs c).state ≠ .unused → (m'.procs c).parentId = caller ∧ w.machine.nextProcessId < m'.nextProcessId ∧
      (m'.procs c).processId = m'.nextProcessId * 2 ^ 11 + c) : Ledger (w.after caller m') := by
  obtain ⟨hforker, hhanded⟩ := after_taken w caller (List.nodup_append.mp h.nodup).1 hc hf
  have hcfree : c ∈ w.machine.freeProcesses := by rw [hc]; exact List.mem_cons_self ..
  have hclt : c < 2 ^ 11 := Nat.lt_trans (h.free_lt hcfree) (by decide)
  have hold : ∀ d ∈ m'.usedProcesses, d = c ∨ d ≠ c ∧ d ∈ w.machine.usedProcesses := fun d hd => by
    rw [hu] at hd
    rcases List.mem_cons.mp hd with rfl | hd
    · exact .inl rfl
    · exact .inr ⟨fun hdc => h.disjoint c hcfree (hdc ▸ hd), hd⟩
  -- the new id is past all that have been handed out
  have hnew : (m'.procs c).state ≠ .unused → (m'.procs c).processId ∉ w.handed := fun hs hmem => by
    obtain ⟨-, hnext, hid⟩ := hset hs
    have := h.bound _ hmem
    rw [hid] at this
    omega
  have hin : ∀ i ∈ w.handed, i ∈ (w.after caller m').handed := fun i hi => by
    rw [hhanded]
    exact List.mem_append_right _ hi
  refine ⟨?_, fun d hd hs => ?_, fun d hd hs => ?_, fun d hd hs => ?_, ?_, fun i hi => ?_, h.reaped, fun i hi => hin i (h.known i hi), hunwrapped⟩
  · show (m'.freeProcesses ++ m'.usedProcesses).Perm _
    rw [hf, hu]
    have hperm := h.perm
    rw [hc] at hperm
    exact List.perm_middle.trans hperm
  · rw [hforker]
    rcases hold d hd with rfl | ⟨hne, hd⟩
    · rw [if_pos rfl]
      exact (hset hs).1.symm
    · obtain ⟨-, hpar, hstate, -⟩ := record_fields (hr d hne)
      rw [if_neg hne, h.forker d hd (fun hun => hs (hstate.trans hun))]
      exact hpar.symm
  · rcases hold d hd with rfl | ⟨hne, hd⟩
    · exact absurd hs hzombie
    · refine after_status w caller hs fun hwas => ?_
      rw [(record_fields (hr d hne)).2.2.2]
      exact h.status d hd hwas
  · rcases hold d hd with rfl | ⟨hne, hd⟩
    · obtain ⟨-, -, hid⟩ := hset hs
      refine ⟨?_, fun hmem => hnew hs (h.known _ hmem), ?_⟩
      · rw [hhanded, if_pos (show (m'.procs d).state ≠ .unused from hs)]
        exact List.mem_append_left _ (List.mem_singleton.mpr rfl)
      · show (m'.procs d).processId % 2 ^ 11 = d
        rw [hid, Nat.mul_comm, Nat.mul_add_mod, Nat.mod_eq_of_lt hclt]
    · obtain ⟨hpid, -, hstate, -⟩ := record_fields (hr d hne)
      obtain ⟨hmem, hout, hslot⟩ := h.id d hd fun hun => hs (hstate.trans hun)
      show (m'.procs d).processId ∈ _ ∧ (m'.procs d).processId ∉ _ ∧ (m'.procs d).processId % 2 ^ 11 = d
      rw [hpid]
      exact ⟨hin _ hmem, hout, hslot⟩
  · rw [hhanded]
    split
    · rename_i hs
      exact List.nodup_cons.mpr ⟨hnew hs, h.handed⟩
    · exact h.handed
  · show i < (m'.nextProcessId + 1) * 2 ^ 11
    have hmono : (w.machine.nextProcessId + 1) * 2 ^ 11 ≤ (m'.nextProcessId + 1) * 2 ^ 11 :=
      Nat.mul_le_mul_right _ (Nat.succ_le_succ hlow)
    rw [hhanded] at hi
    rcases List.mem_append.mp hi with hi | hi
    · split at hi
      · rename_i hs
        rw [List.mem_singleton.mp hi, (hset hs).2.2, Nat.succ_mul]
        omega
      · cases hi
    · exact Nat.lt_of_lt_of_le (h.bound i hi) hmono

/-- **A turn** of the processes is entered in the ledger. -/
theorem Ledger.turn (h : Ledger w) (ht : Turn caller value w.machine m') (hunwrapped : m'.Unwrapped) : Ledger (w.after caller m') := by
  cases ht with
  | still hf hu hn hr => exact h.keep hf hu hn fun c _ => .inl (hr c)
  | died p hf hu hn hr hp hs hz =>
    refine h.keep hf hu hn fun c _ => ?_
    by_cases hcp : c = p
    · subst hcp
      unfold Proc.record at hz
      simp only [Prod.mk.injEq] at hz
      exact .inr ⟨hz.1, hz.2.1, hs⟩
    · exact .inl (hr c hcp)
  | failed c rest hc hf hu hn hr hs =>
    exact h.take hc hf hu hr (Nat.le_of_eq hn.symm) hunwrapped (by rw [hs]; decide) fun hne => absurd hs hne
  | born c rest hc hf hu hn hr hs =>
    have hnext : m'.nextProcessId = w.machine.nextProcessId + 1 := by
      have := h.next
      unfold Machine.Unwrapped at this
      omega
    have hclt : c < PROCESS_TOTAL_NUMBER := h.free_lt (by rw [hc]; exact List.mem_cons_self ..)
    unfold Proc.record at hs
    simp only [Prod.mk.injEq] at hs
    obtain ⟨hid, hpar, hstate, -⟩ := hs
    refine h.take hc hf hu hr (by omega) hunwrapped (by rw [hstate]; decide) fun _ => ⟨hpar, by omega, ?_⟩
    rw [hid, makeId_eq hunwrapped hclt]

/-- **A child is handed back**: its slot is free, and its id is spent. -/
theorem Ledger.reap (h : Ledger w) (hc : c ∈ w.machine.usedProcesses) (hzombie : (w.machine.procs c).state = .zombie)
    (stored : Option Nat) :
    Ledger (Family.handBack (.reaped (w.machine.procs c).processId stored) (w.after 0 (Sched.reap c w.machine))) := by
  have hother : ∀ d, d ≠ c → (Sched.reap c w.machine).procs d = w.machine.procs d := fun d hd => Function.update_of_ne hd ..
  have hfree : ∀ d, d ∈ w.machine.freeProcesses → d ∈ (Sched.reap c w.machine).freeProcesses := fun d hd => List.mem_cons_of_mem _ hd
  have hforker : (w.after 0 (Sched.reap c w.machine)).forker = w.forker := funext fun d => if_neg fun hd => hd.2 (hfree d hd.1)
  have hhanded : (w.after 0 (Sched.reap c w.machine)).handed = w.handed := by
    show (w.machine.freeProcesses.filter _).map _ ++ w.handed = _
    rw [List.filter_eq_nil_iff.mpr, List.map_nil, List.nil_append]
    intro d hd hnew
    exact (of_decide_eq_true hnew).1 (hfree d hd)
  have husedNodup : w.machine.usedProcesses.Nodup := (List.nodup_append.mp h.nodup).2.1
  have hold : ∀ d ∈ (Sched.reap c w.machine).usedProcesses, d ≠ c ∧ d ∈ w.machine.usedProcesses := fun d hd =>
    husedNodup.mem_erase_iff.mp hd
  obtain ⟨hcid, hcout, hcslot⟩ := h.id c hc (by rw [hzombie]; decide)
  refine ⟨?_, fun d hd hs => ?_, fun d hd hs => ?_, fun d hd hs => ?_, ?_, fun i hi => ?_, ?_, fun i hi => ?_, h.next⟩
  · show (c :: w.machine.freeProcesses ++ w.machine.usedProcesses.erase c).Perm _
    refine List.Perm.trans ?_ h.perm
    exact List.perm_middle.symm.trans (List.Perm.append_left _ (List.perm_cons_erase hc).symm)
  · obtain ⟨hne, hd⟩ := hold d hd
    show (w.after 0 (Sched.reap c w.machine)).forker d = ((Sched.reap c w.machine).procs d).parentId
    rw [hforker, hother d hne]
    refine h.forker d hd ?_
    rw [← hother d hne]
    exact hs
  · obtain ⟨hne, hd⟩ := hold d hd
    have hs' : ((Sched.reap c w.machine).procs d).state = .zombie := hs
    refine after_status w 0 hs' fun hwas => ?_
    rw [hother d hne]
    exact h.status d hd hwas
  · obtain ⟨hne, hd⟩ := hold d hd
    have hs' : ((Sched.reap c w.machine).procs d).state ≠ .unused := hs
    rw [hother d hne] at hs'
    obtain ⟨hmem, hout, hslot⟩ := h.id d hd hs'
    show ((Sched.reap c w.machine).procs d).processId ∈ (w.after 0 (Sched.reap c w.machine)).handed ∧
      ((Sched.reap c w.machine).procs d).processId ∉ _ :: w.reaped ∧ ((Sched.reap c w.machine).procs d).processId % 2 ^ 11 = d
    rw [hother d hne, hhanded]
    refine ⟨hmem, fun hin => ?_, hslot⟩
    rcases List.mem_cons.mp hin with heq | hin
    · exact hne (hslot.symm.trans ((congrArg (· % 2 ^ 11) heq).trans hcslot))
    · exact hout hin
  · exact hhanded ▸ h.handed
  · have hi' : i ∈ (w.after 0 (Sched.reap c w.machine)).handed := hi
    rw [hhanded] at hi'
    exact h.bound i hi'
  · exact List.nodup_cons.mpr ⟨hcout, h.reaped⟩
  · show i ∈ (w.after 0 (Sched.reap c w.machine)).handed
    rw [hhanded]
    rcases List.mem_cons.mp hi with rfl | hi
    · exact hcid
    · exact h.known i hi

end Ledger

/-! ## Runs -/

/-- The state between the steps of a run. -/
structure Family.Inv (w : Family) : Prop where
  kin : ∃ member, Kin w.machine member
  ledger : Ledger w

section Runs

variable {w w' : Family} {e : Event}

theorem Ledger.quiet {m' : Machine} (h : Ledger w) (hq : Quiet w.machine m') : Ledger (w.after 0 m') :=
  h.keep hq.freeProcesses hq.usedProcesses hq.nextProcessId fun c _ => .inl (hq.record c)

theorem Family.Inv.step (h : w.Inv) (hstep : Family.Step w e w') : w'.Inv := by
  obtain ⟨⟨member, hkin⟩, hledger⟩ := h
  cases hstep with
  | call op hplain hclock hcalled hok hunwrapped =>
    obtain ⟨member', hkin', hturn⟩ := hkin.exec hledger.disjoint hplain hclock hcalled hok
    exact ⟨⟨member', hkin'⟩, hledger.turn hturn hunwrapped⟩
  | wait hb hmy hok =>
    rcases wait_cases hkin.queued hkin.killed hb hmy hok with ⟨c, hc, -, hzombie, rfl, rfl⟩ | ⟨rfl, rfl, -⟩ | ⟨rfl, hq⟩
    · exact ⟨⟨member, hkin.reap hzombie⟩, hledger.reap hc hzombie _⟩
    · exact ⟨⟨member, hkin⟩, hledger.quiet (Quiet.refl hkin.queued)⟩
    · exact ⟨⟨member, hkin.quiet hq⟩, hledger.quiet hq⟩
  | look _ hpass _ =>
    obtain ⟨hq, -⟩ := quiet_scan hkin.queued hkin.killed hpass
    exact ⟨⟨member, hkin.quiet hq⟩, hledger.quiet hq⟩
  | select _ hpass hdispatch =>
    obtain ⟨hq, -, hlink⟩ := quiet_scan hkin.queued hkin.killed hpass
    have hfutex := (hkin.quiet hq).futex
    have hall := hq.trans (quiet_dispatch hq.queued hfutex (hlink _ rfl) hdispatch)
    exact ⟨⟨member, hkin.quiet hall⟩, hledger.quiet hall⟩

/-- A turn frees no slot. -/
theorem Turn.lists {m m' : Machine} {caller value : Nat} (h : Turn caller value m m') :
    (∀ c ∈ m'.freeProcesses, c ∈ m.freeProcesses) ∧ ∀ c ∈ m.usedProcesses, c ∈ m'.usedProcesses := by
  cases h with
  | still hf hu => exact ⟨fun c hc => hf ▸ hc, fun c hc => hu ▸ hc⟩
  | failed c rest hc hf hu =>
    refine ⟨fun d hd => ?_, fun d hd => ?_⟩
    · rw [hc]
      exact List.mem_cons_of_mem _ (hf ▸ hd)
    · rw [hu]
      exact List.mem_cons_of_mem _ hd
  | born c rest hc hf hu =>
    refine ⟨fun d hd => ?_, fun d hd => ?_⟩
    · rw [hc]
      exact List.mem_cons_of_mem _ (hf ▸ hd)
    · rw [hu]
      exact List.mem_cons_of_mem _ hd
  | died p hf hu => exact ⟨fun c hc => hf ▸ hc, fun c hc => hu ▸ hc⟩

/-- A process that becomes a `ZOMBIE` leaves the value of the turn. -/
theorem Turn.left {m m' : Machine} {caller value c : Nat} (h : Turn caller value m m') (hwas : (m.procs c).state ≠ .zombie)
    (his : (m'.procs c).state = .zombie) : (m'.procs c).retValue = value := by
  cases h with
  | still _ _ _ hr => exact absurd ((record_fields (hr c)).2.2.1.symm.trans his) hwas
  | failed d rest _ _ _ _ hr hs =>
    by_cases hcd : c = d
    · rw [hcd, hs] at his
      cases his
    · exact absurd ((record_fields (hr c hcd)).2.2.1.symm.trans his) hwas
  | born d rest _ _ _ _ hr hs =>
    by_cases hcd : c = d
    · unfold Proc.record at hs
      simp only [Prod.mk.injEq] at hs
      rw [hcd, hs.2.2.1] at his
      cases his
    · exact absurd ((record_fields (hr c hcd)).2.2.1.symm.trans his) hwas
  | died p _ _ _ hr _ _ hz =>
    by_cases hcp : c = p
    · unfold Proc.record at hz
      simp only [Prod.mk.injEq] at hz
      rw [hcp, hz.2.2.2]
    · exact absurd ((record_fields (hr c hcp)).2.2.1.symm.trans his) hwas

/-- A step that is no `wait` hands nobody back. -/
theorem fair_of_turn {m' : Machine} {caller value : Nat} (hledger : Ledger w) (hturn : Turn caller value w.machine m')
    (hw' : w'.machine = m') (hstatus : w'.status = (w.after caller m').status)
    (hnot : ∀ p target addr e', e = .wait p target addr e' → e' = .asleep)
    (hexit : ∀ ec, e = .call (.exit ec []) → value = (ec <<< 8) % 2 ^ 32) : Family.Fair w e w' := by
  refine ⟨fun c hu hf => ?_, fun p target addr pid stored he => ?_, fun p target addr he => ?_, fun c hu _ => ?_, fun ec c he hwas his => ?_⟩
  · rw [hw'] at hf
    exact absurd hu (hledger.disjoint c (hturn.lists.1 c hf))
  · cases hnot p target addr _ he
  · cases hnot p target addr _ he
  · rw [hw']
    exact hturn.lists.2 c hu
  · rw [hw'] at his
    rw [hstatus, after_status w caller his fun h => absurd h hwas, hturn.left hwas his, hexit ec he]

/-- **What a step may do** to a process. -/
theorem Family.Inv.fair (h : w.Inv) (hstep : Family.Step w e w') : Family.Fair w e w' := by
  obtain ⟨⟨member, hkin⟩, hledger⟩ := h
  have hquiet : ∀ m', Quiet w.machine m' → Turn 0 0 w.machine m' := fun m' hq => hq.turn
  cases hstep with
  | call op hplain hclock hcalled hok _ =>
    obtain ⟨-, -, hturn⟩ := hkin.exec hledger.disjoint hplain hclock hcalled hok
    refine fair_of_turn hledger hturn rfl rfl (fun p target addr e' he => by cases he) fun ec he => ?_
    cases he
    rfl
  | look _ hpass _ =>
    obtain ⟨hq, -⟩ := quiet_scan hkin.queued hkin.killed hpass
    exact fair_of_turn hledger (hquiet _ hq) rfl rfl (fun p target addr e' he => by cases he) fun ec he => by cases he
  | select _ hpass hdispatch =>
    obtain ⟨hq, -, hlink⟩ := quiet_scan hkin.queued hkin.killed hpass
    have hall := hq.trans (quiet_dispatch hq.queued (hkin.quiet hq).futex (hlink _ rfl) hdispatch)
    exact fair_of_turn hledger (hquiet _ hall) rfl rfl (fun p target addr e' he => by cases he) fun ec he => by cases he
  | wait hb hmy hok =>
    rename_i t p addr target e'
    rcases wait_cases hkin.queued hkin.killed hb hmy hok with ⟨c, hc, hpar, hzombie, rfl, rfl⟩ | ⟨rfl, rfl, hnone⟩ | ⟨rfl, hq⟩
    · have hforker := hledger.forker c hc (by rw [hzombie]; decide)
      refine ⟨fun d hu hf => ?_, fun p' target' addr' pid stored he => ?_, fun p' target' addr' he => (by cases he), fun d hu hs => ?_,
        fun ec d he => by cases he⟩
      · have hdc : d = c := by
          rcases List.mem_cons.mp (show d ∈ c :: w.machine.freeProcesses from hf) with heq | hf
          · exact heq
          · exact absurd hu (hledger.disjoint d hf)
        subst hdc
        exact ⟨p, target, addr, _, hzombie, hforker.trans hpar, hledger.status d hc hzombie, rfl⟩
      · cases he
        exact ⟨c, hc, List.mem_cons_self .., rfl⟩
      · refine (List.mem_erase_of_ne fun hdc => hs ?_).mpr hu
        rw [hdc, hzombie]
    · refine ⟨fun d hu hf => absurd hu (hledger.disjoint d hf), fun p' target' addr' pid stored he => (by cases he), fun p' target' addr' he d hd hs => ?_,
        fun d hu _ => hu, fun ec d he => by cases he⟩
      cases he
      rw [hledger.forker d hd hs]
      exact hnone d hd
    · refine fair_of_turn hledger (hquiet _ hq) rfl rfl (fun p' target' addr' e' he => ?_) fun ec he => by cases he
      cases he
      rfl

/-- At the start there are no processes. -/
theorem inv_start (h : w.Start) : w.Inv := by
  obtain ⟨hm, hhanded, hreaped⟩ := h
  have hthreads : boot.freeThreads = List.range PROCESS_TOTAL_NUMBER := by rw [boot]
  have hfree : boot.freeProcesses = List.range PROCESS_TOTAL_NUMBER := by rw [boot]
  have hused : boot.usedProcesses = [] := rfl
  refine ⟨⟨fun _ => none, ?_⟩, ?_⟩
  · rw [hm]
    refine ⟨⟨fun _ t ht => (by cases ht), fun _ t ht => (by cases ht), fun _ => List.nodup_nil⟩, fun _ => rfl, fun _ => rfl,
      fun t p ht => (by cases ht), fun t ht => ?_, fun t ht => ⟨rfl, ?_⟩, ?_, fun t p ht => (by cases ht), fun p => ?_, fun t p ht => by cases ht⟩
    · rcases ht with hc | ⟨pri, hl⟩ | hs
      · cases hc
      · cases hl
      · cases hs
    · rw [hthreads] at ht
      exact List.mem_range.mp ht
    · rw [hthreads]
      exact List.nodup_range
    · have hzero : Count.fiber (Finset.range PROCESS_TOTAL_NUMBER) (fun _ : Nat => (none : Option Nat)) (some p) = 0 :=
        Count.fiber_eq_zero.mpr fun _ _ => by simp
      rw [hzero]
      rfl
  · have hno : ∀ c, c ∉ w.machine.usedProcesses := fun c hc => by
      rw [hm] at hc
      cases hc
    refine ⟨?_, fun c hc => absurd hc (hno c), fun c hc => absurd hc (hno c), fun c hc => absurd hc (hno c), ?_, fun i hi => ?_, ?_, fun i hi => ?_, ?_⟩
    · rw [hm, hfree, hused, List.append_nil]
    · rw [hhanded]
      exact List.nodup_nil
    · rw [hhanded] at hi
      cases hi
    · rw [hreaped]
      exact List.nodup_nil
    · rw [hreaped] at hi
      cases hi
    · rw [hm]
      show (0 : Nat) < 2 ^ 21
      decide

theorem inv_of_reached (h : w.Reached) : w.Inv :=
  Reach.invariant h (fun w hw => inv_start hw) fun w w' hi hs => by
    obtain ⟨e, hstep⟩ := hs
    exact hi.step hstep

/-- **Every child is handed back once**, to its parent, with what it left. -/
theorem family_kept (h : w.Reached) : w.Kept ∧ ∀ e w', Family.Step w e w' → Family.Fair w e w' := by
  have hinv := inv_of_reached h
  exact ⟨⟨hinv.ledger.perm, hinv.ledger.handed, hinv.ledger.reaped, hinv.ledger.known⟩, fun e w' hstep => hinv.fair hstep⟩

end Runs

/-! ## A child that is waited for -/

/-- The machines of a run: a process is made, forks, and yields to its child, which exits with 5. -/
structure ChildRun where
  made : Machine
  picked : Pass × Machine
  parent : Machine
  forked : Machine
  yielded : Machine
  pickedChild : Pass × Machine
  child : Machine
  exited : Machine
  pickedParent : Pass × Machine
  back : Machine

def childRun : Except Halt ChildRun := do
  let made ← processCreatePriority ⟨true, true, true⟩ (fun _ => 0) boot
  let picked ← pass 0 made
  let parent ← dispatch 0 picked.2
  let forked ← exec (.clone ⟨true, true, true⟩ 0 0 0 0) parent
  let yielded ← callYield [] forked
  let pickedChild ← pass 0 yielded
  let child ← dispatch 1 pickedChild.2
  let exited ← exit 5 [] child
  let pickedParent ← pass 0 exited
  let back ← dispatch 0 pickedParent.2
  return ⟨made, picked, parent, forked, yielded, pickedChild, child, exited, pickedParent, back⟩

/-- Thread `t` runs. -/
def Machine.runs (m : Machine) (t : Nat) : Bool := m.currentThread = some t ∧ (m.threads t).state = .running

/-- The thread that ran last, if any, runs no more. -/
def Machine.stopped (m : Machine) : Bool :=
  match m.currentThread with
  | some t => (m.threads t).state ≠ .running
  | none => true

theorem busy_of_runs {m : Machine} {t : Nat} (h : m.runs t = true) : m.busy := ⟨t, of_decide_eq_true h⟩

theorem not_busy_of_stopped {m : Machine} (h : m.stopped = true) : ¬ m.busy := fun ⟨t, hcur, hrun⟩ => by
  unfold Machine.stopped at h
  rw [hcur] at h
  exact of_decide_eq_true h hrun

/-- What `childRun` comes to. -/
def ChildRun.fits (r : ChildRun) : Bool :=
  r.made.stopped ∧ r.picked.1 = .picked 0 ∧ r.parent.runs 0 ∧ r.forked.runs 0 ∧ r.yielded.stopped ∧ r.pickedChild.1 = .picked 1 ∧
    r.child.runs 1 ∧ r.exited.stopped ∧ r.pickedParent.1 = .picked 0 ∧ r.back.runs 0 ∧
    (r.made.nextProcessId ≤ 2 ∧ r.forked.nextProcessId ≤ 2 ∧ r.yielded.nextProcessId ≤ 2 ∧ r.exited.nextProcessId ≤ 2) ∧
    (r.back.procs 1).state = .zombie ∧ (r.back.procs 1).retValue = 5 <<< 8

/-- A child that has exited with 5 and is not waited for. -/
theorem childRun_reached : ∃ w : Family, w.Reached ∧ w.machine.busy ∧ (w.machine.procs 1).state = .zombie ∧
    (w.machine.procs 1).retValue = 5 <<< 8 := by
  have hrun : childRun.toOption.map ChildRun.fits = some true := by decide +kernel
  obtain ⟨r, hok, hfits⟩ := exists_of_toOption hrun
  obtain ⟨made, h₁, hok⟩ := bind_ok hok
  obtain ⟨⟨r₂, m₂⟩, h₂, hok⟩ := bind_ok hok
  obtain ⟨parent, h₃, hok⟩ := bind_ok hok
  obtain ⟨forked, h₄, hok⟩ := bind_ok hok
  obtain ⟨yielded, h₅, hok⟩ := bind_ok hok
  obtain ⟨⟨r₆, m₆⟩, h₆, hok⟩ := bind_ok hok
  obtain ⟨child, h₇, hok⟩ := bind_ok hok
  obtain ⟨exited, h₈, hok⟩ := bind_ok hok
  obtain ⟨⟨r₉, m₉⟩, h₉, hok⟩ := bind_ok hok
  obtain ⟨back, h₁₀, hok⟩ := bind_ok hok
  cases hok
  obtain ⟨hmade, hpick, hparent, hforked, hyielded, hpick', hchild, hexited, hpick'', hback, ⟨hn₁, hn₂, hn₃, hn₄⟩, hzombie, hvalue⟩ :=
    of_decide_eq_true hfits
  subst hpick hpick' hpick''
  have hunwrapped : ∀ m : Machine, m.nextProcessId ≤ 2 → m.Unwrapped := fun m hm => Nat.lt_of_le_of_lt hm (by decide)
  have w₀ : Family.Reached ⟨boot, fun _ => 0, fun _ => none, [], []⟩ := .init ⟨rfl, rfl, rfl⟩
  have w₁ := w₀.step ⟨_, .call (.create ⟨true, true, true⟩ fun _ => 0) trivial rfl trivial h₁ (hunwrapped _ hn₁)⟩
  have w₂ := w₁.step ⟨_, .select (not_busy_of_stopped hmade) h₂ h₃⟩
  have w₃ := w₂.step ⟨_, .call (.clone ⟨true, true, true⟩ 0 0 0 0) trivial rfl (busy_of_runs hparent) h₄ (hunwrapped _ hn₂)⟩
  have w₄ := w₃.step ⟨_, .call (.callYield []) trivial rfl (busy_of_runs hforked) h₅ (hunwrapped _ hn₃)⟩
  have w₅ := w₄.step ⟨_, .select (not_busy_of_stopped hyielded) h₆ h₇⟩
  have w₆ := w₅.step ⟨_, .call (.exit 5 []) trivial rfl (busy_of_runs hchild) h₈ (hunwrapped _ hn₄)⟩
  have w₇ := w₆.step ⟨_, .select (not_busy_of_stopped hexited) h₉ h₁₀⟩
  exact ⟨_, w₇, busy_of_runs hback, hzombie, hvalue⟩

/-- The child is a zombie and has left 5, and whatever happens next, only its parent may hand it back. -/
theorem family_kept_zombie : ∃ w : Family, w.machine.busy ∧ w.Reached ∧ w.Kept ∧ (w.machine.procs 1).state = .zombie ∧
    (w.machine.procs 1).retValue = 5 <<< 8 ∧ ∀ e w', Family.Step w e w' → Family.Fair w e w' := by
  obtain ⟨w, hreached, hbusy, hzombie, hvalue⟩ := childRun_reached
  obtain ⟨hkept, hfair⟩ := family_kept hreached
  exact ⟨w, hbusy, hreached, hkept, hzombie, hvalue, hfair⟩

end Exaros.Sched
