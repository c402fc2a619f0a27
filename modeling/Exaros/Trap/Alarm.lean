import Exaros.Signal.Slots

/-!
# Alarm timers

`setTimer` and the branch of `handleInterrupt` for timer interrupts. The hart has one timer, and each thread a
deadline in `setAlarm`, which `threadSetup` leaves to the next thread of the slot. Calls move slots as the signal
machine says; whatever else happens to threads between them leaves the slots and their ids alone. The history
tells which threads have been made, have called and have been sent a signal.

**What it does not establish.** When a signal that has been sent is handled.
-/

namespace Exaros.Timer

open Loop Run
open Signal (Stop SIGALRM onSched)
open Sched (Steady)
open Files (PROCESS_TOTAL_NUMBER)
open Function (update update_self update_of_ne)

/-- `TimeSpec` -/
structure TimeSpec where
  second : Nat
  microSecond : Int

structure IntervalTimer where
  interval : TimeSpec
  expiration : TimeSpec

inductive Event
  | created (t : Nat)
  | called (t : Nat) (deadline : Int)
  /-- `SIGALRM`, with the clock's reading -/
  | sent (t : Nat) (now : Nat)
deriving DecidableEq

structure State where
  machine : Signal.Machine
  setAlarm : Nat → Nat
  timer : IntervalTimer
  /-- what the hardware timer was last set to -/
  timeout : Option Nat
  /-- the latest first -/
  history : List Event

/-- `u64` -/
def u64 (n : Int) : Nat := (n % 2 ^ 64).toNat

def setNextTimeoutInterval (time : Nat) (s : State) : State := { s with timeout := some time }

/-- When a timer set at `now` is due. -/
def deadline (time : IntervalTimer) (now : Nat) : Int := now + (time.expiration.second * 1000000 + time.expiration.microSecond)

def setTimer (time : IntervalTimer) (now : Nat) (s : State) : Except Stop State :=
  let s := { s with timer := time }
  let interval := u64 (time.expiration.second * 1000000 + time.expiration.microSecond)
  let s := setNextTimeoutInterval (u64 (now + interval)) s
  match s.machine.sched.currentThread with
  | none => .error .null
  | some t => .ok { s with
      setAlarm := update s.setAlarm t (u64 (interval + now))
      history := .called t (deadline time now) :: s.history }

/-- The turn of `LIST_FOREACH` for the thread, with the clock's reading. -/
def alarmTurn (reading : Nat → Nat) (s : State) (thread : Nat) : Except Stop State :=
  let realtime := reading thread
  if s.setAlarm thread ≠ 0 ∧ s.setAlarm thread ≤ realtime then do
    let threadId := (s.machine.sched.threads thread).threadId
    let found ← onSched (Sched.tid2Thread (threadId % 2 ^ 32) s.machine.sched)
    let r ← Signal.tkill threadId SIGALRM s.machine
    return { s with
      machine := r.2
      setAlarm := update s.setAlarm thread 0
      history := (found.map fun t => Event.sent t realtime).toList ++ s.history }
  else .ok s

/-- The case `INTERRUPT_STI` of `handleInterrupt`: whether the thread that runs has an alarm, in the bits of an
`int`, and what is left to `timeYield` otherwise. -/
def handleInterrupt (now : Nat) (reading : Nat → Nat) (s : State) : Except Stop (Bool × State) :=
  let s := setNextTimeoutInterval ((now + 0xffffffff) % 2 ^ 64) s
  match s.machine.sched.currentThread with
  | none => .error .null
  | some t =>
    let flag := decide (s.setAlarm t % 2 ^ 32 ≠ 0)
    (s.machine.sched.usedThreads.foldlM (alarmTurn reading) s).map fun s => (flag, s)

inductive Op
  | call (op : Signal.Op)
  | setTimer (time : IntervalTimer) (now : Nat)
  | interrupt (now : Nat) (reading : Nat → Nat)
  /-- what the scheduler does, and the calls that do not deal with signals -/
  | rest (sched : Sched.Machine)

/-- The threads the call has made. -/
def created (m m' : Signal.Machine) : List Event :=
  (m'.sched.usedThreads.filter fun t => t ∉ m.sched.usedThreads).map .created

def perform (op : Op) (s : State) : Except Stop State :=
  match op with
  | .call op => (Signal.perform op s.machine).map fun m => { s with machine := m, history := created s.machine m ++ s.history }
  | .setTimer time now => setTimer time now s
  | .interrupt now reading => (handleInterrupt now reading s).map (·.2)
  | .rest sched => .ok { s with machine := s.machine.setSched sched }

/-- Live threads end, and what happens between calls leaves the slots alone. -/
def Enabled (s : State) : Op → Prop
  | .call (.destroy t) => t ∈ s.machine.sched.usedThreads
  | .rest sched => Steady s.machine.sched sched
  | _ => True

/-- A step that `ok` admits. -/
def Step (ok : State → Op → Prop) (s s' : State) : Prop := ∃ op, Enabled s op ∧ ok s op ∧ perform op s = .ok s'

def Start (s : State) : Prop := s.machine = Signal.boot ∧ (∀ t, s.setAlarm t = 0) ∧ s.timeout = none ∧ s.history = []

/-! ## What is claimed -/

/-- Each signal answers a call its thread has made since it was created, not before the deadline of that call, and
no other signal answers it; these are the deadlines of the calls that are left. -/
inductive Accounted : List Event → (Nat → List Int) → Prop
  | nil : Accounted [] fun _ => []
  | created {h : List Event} {calls : Nat → List Int} {t : Nat} (hacc : Accounted h calls) :
      Accounted (.created t :: h) (update calls t [])
  | called {h : List Event} {calls : Nat → List Int} {t : Nat} {d : Int} (hacc : Accounted h calls) :
      Accounted (.called t d :: h) (update calls t (d :: calls t))
  | sent {h : List Event} {calls : Nat → List Int} {t now : Nat} {d : Int} (hacc : Accounted h calls) (hcall : d ∈ calls t)
      (hdue : d ≤ now) : Accounted (.sent t now :: h) (update calls t ((calls t).erase d))

/-- The hardware timer is set to no later than any alarm of a live thread. -/
def Programmed (s : State) : Prop :=
  ∀ t ∈ s.machine.sched.usedThreads, s.setAlarm t ≠ 0 → ∃ time, s.timeout = some time ∧ time ≤ s.setAlarm t

structure Sound (s : State) : Prop where
  accounted : ∃ calls, Accounted s.history calls
  programmed : Programmed s

/-- A slot is taken over without an alarm; a timer is set that is due in 64 bits, and no later than the alarms of
others; and at an interrupt, an alarm is due, of a thread whose id is not 0, or not before the timer's next one. -/
def Meets (s : State) : Op → Prop
  | .call op => op.makes = true → ∀ t rest, s.machine.sched.freeThreads = t :: rest → s.setAlarm t = 0
  | .setTimer time now => 0 ≤ deadline time now ∧ deadline time now < 2 ^ 64 ∧
      ∀ t ∈ s.machine.sched.usedThreads, s.machine.sched.currentThread ≠ some t → s.setAlarm t ≠ 0 → deadline time now ≤ s.setAlarm t
  | .interrupt now reading => ∀ t ∈ s.machine.sched.usedThreads, s.setAlarm t ≠ 0 →
      if s.setAlarm t ≤ reading t then (s.machine.sched.threads t).threadId ≠ 0 else (now + 0xffffffff) % 2 ^ 64 ≤ s.setAlarm t
  | .rest _ => True

/-! ## The slots -/

/-- Each slot is taken or free, and the id in a slot that is taken ends in it. -/
structure Slots (m : Sched.Machine) : Prop where
  nodup : (m.usedThreads ++ m.freeThreads).Nodup
  slot : ∀ t ∈ m.usedThreads ++ m.freeThreads, t < PROCESS_TOTAL_NUMBER
  offset : ∀ t ∈ m.usedThreads, Sched.processOffset (m.threads t).threadId = t
  id : ∀ t ∈ m.usedThreads, (m.threads t).threadId < 2 ^ 32

section Slots

variable {m m' : Sched.Machine} {op : Signal.Op} {t : Nat}

theorem Slots.steady (h : Slots m) (hs : Steady m m') : Slots m' where
  nodup := by
    rw [hs.used, hs.free]
    exact h.nodup
  slot := fun t ht => by
    rw [hs.used, hs.free] at ht
    exact h.slot t ht
  offset := fun t ht => by
    rw [hs.used] at ht
    rw [hs.id]
    exact h.offset t ht
  id := fun t ht => by
    rw [hs.used] at ht
    rw [hs.id]
    exact h.id t ht

/-- What a move does to the slots and their ids. -/
theorem Slots.moves (h : Slots m) (hlive : ∀ t, op = .destroy t → t ∈ m.usedThreads) (hs : Signal.Moves op m m') : Slots m' := by
  cases hs with
  | steady hs => exact h.steady hs
  | @taken t rest _ hfree hused hrest hid hother =>
    have hslot : t < PROCESS_TOTAL_NUMBER := by
      apply h.slot
      rw [hfree]
      exact List.mem_append_right _ (List.mem_cons_self ..)
    have hnot : t ∉ m.usedThreads := fun ht => by
      have hdisj := (List.nodup_append.mp h.nodup).2.2 t ht t
      rw [hfree] at hdisj
      exact hdisj (List.mem_cons_self ..) rfl
    have hperm : (m'.usedThreads ++ m'.freeThreads).Perm (m.usedThreads ++ m.freeThreads) := by
      rw [hused, hrest, hfree]
      exact List.perm_middle.symm
    refine ⟨hperm.nodup_iff.mpr h.nodup, fun u hu => h.slot u (hperm.mem_iff.mp hu), fun u hu => ?_, fun u hu => ?_⟩
    all_goals
      rw [hused] at hu
      by_cases hut : u = t
    · rw [hut, hid]
      exact Sched.processOffset_makeId _ hslot
    · rw [hother u hut]
      exact h.offset u (List.mem_of_ne_of_mem hut hu)
    · rw [hut, hid]
      exact Sched.makeId_lt _ hslot
    · rw [hother u hut]
      exact h.id u (List.mem_of_ne_of_mem hut hu)
  | @freed t hop hused hfree hid =>
    have ht := hlive t hop
    have hnot : t ∉ m.freeThreads := fun hf => (List.nodup_append.mp h.nodup).2.2 t ht t hf rfl
    have hperm : (m'.usedThreads ++ m'.freeThreads).Perm (m.usedThreads ++ m.freeThreads) := by
      rw [hused, hfree, List.erase_of_not_mem hnot]
      apply List.perm_middle.trans
      exact (List.perm_cons_erase ht).symm.append_right m.freeThreads
    refine ⟨hperm.nodup_iff.mpr h.nodup, fun u hu => h.slot u (hperm.mem_iff.mp hu), fun u hu => ?_, fun u hu => ?_⟩
    all_goals
      rw [hused] at hu
      rw [hid]
    · exact h.offset u (List.mem_of_mem_erase hu)
    · exact h.id u (List.mem_of_mem_erase hu)

/-- A thread's id finds the thread, or nobody. -/
theorem Slots.found (h : Slots m) (ht : t ∈ m.usedThreads) (hid : (m.threads t).threadId ≠ 0) {found : Option Nat}
    (hok : Sched.tid2Thread ((m.threads t).threadId % 2 ^ 32) m = .ok found) : found = none ∨ found = some t := by
  rw [Nat.mod_eq_of_lt (h.id t ht)] at hok
  unfold Sched.tid2Thread at hok
  rw [if_neg hid, h.offset t ht] at hok
  dsimp only at hok
  split at hok
  · cases hok
    exact .inl rfl
  · cases hok
    exact .inr rfl

end Slots

/-! ## Steps -/

/-- The alarm of a live thread is the deadline of a call that has not been answered. -/
def Armed (s : State) (calls : Nat → List Int) : Prop :=
  ∀ t ∈ s.machine.sched.usedThreads, s.setAlarm t ≠ 0 → (s.setAlarm t : Int) ∈ calls t

structure Inv (s : State) : Prop where
  apart : Lists.Apart s.machine.list
  slots : Slots s.machine.sched
  armed : ∃ calls, Accounted s.history calls ∧ Armed s calls
  programmed : Programmed s

theorem Inv.sound {s : State} (h : Inv s) : Sound s := by
  obtain ⟨calls, hacc, -⟩ := h.armed
  exact ⟨⟨calls, hacc⟩, h.programmed⟩

section Calls

variable {s s' : State} {m : Signal.Machine} {op : Signal.Op}

theorem created_of_used (h : m.sched.usedThreads ⊆ s.machine.sched.usedThreads) : created s.machine m = [] := by
  unfold created
  rw [List.map_eq_nil_iff, List.filter_eq_nil_iff]
  intro t ht
  simpa using h ht

theorem created_of_taken {t : Nat} (ht : t ∉ s.machine.sched.usedThreads)
    (hused : m.sched.usedThreads = t :: s.machine.sched.usedThreads) : created s.machine m = [.created t] := by
  have hrest : s.machine.sched.usedThreads.filter (fun u => u ∉ s.machine.sched.usedThreads) = [] := by
    rw [List.filter_eq_nil_iff]
    intro u hu
    simpa using hu
  unfold created
  rw [hused, List.filter_cons_of_pos (by simpa using ht), hrest]
  rfl

/-- A thread that is made has no alarm, and those of the others stay. -/
theorem Inv.call (h : Inv s) (hlive : ∀ t, op = .destroy t → t ∈ s.machine.sched.usedThreads)
    (hmeets : op.makes = true → ∀ t rest, s.machine.sched.freeThreads = t :: rest → s.setAlarm t = 0)
    (hok : Signal.perform op s.machine = .ok m) : Inv { s with machine := m, history := created s.machine m ++ s.history } := by
  have hmoves := Signal.moves_perform h.apart hok
  have hapart := (Signal.acts_perform h.apart hok).apart h.apart
  have hslots := h.slots.moves hlive hmoves
  obtain ⟨calls, hacc, harmed⟩ := h.armed
  cases hmoves with
  | steady hs =>
    have hsub : m.sched.usedThreads ⊆ s.machine.sched.usedThreads := by
      rw [hs.used]
      exact List.Subset.refl _
    rw [created_of_used hsub]
    exact ⟨hapart, hslots, ⟨calls, hacc, fun t ht => harmed t (hsub ht)⟩, fun t ht => h.programmed t (hsub ht)⟩
  | freed _ hused =>
    have hsub : m.sched.usedThreads ⊆ s.machine.sched.usedThreads := by
      rw [hused]
      exact List.erase_subset
    rw [created_of_used hsub]
    exact ⟨hapart, hslots, ⟨calls, hacc, fun t ht => harmed t (hsub ht)⟩, fun t ht => h.programmed t (hsub ht)⟩
  | @taken t rest hop hfree hused =>
    have hzero := hmeets hop t rest hfree
    have hnot : t ∉ s.machine.sched.usedThreads := fun ht => by
      have hdisj := (List.nodup_append.mp h.slots.nodup).2.2 t ht t
      rw [hfree] at hdisj
      exact hdisj (List.mem_cons_self ..) rfl
    rw [created_of_taken hnot hused]
    -- the new thread has no alarm, so only those of the others count
    have hold : ∀ u ∈ m.sched.usedThreads, s.setAlarm u ≠ 0 → u ≠ t ∧ u ∈ s.machine.sched.usedThreads := fun u hu halarm => by
      have hut : u ≠ t := fun hut => halarm (by rw [hut, hzero])
      rw [hused] at hu
      exact ⟨hut, List.mem_of_ne_of_mem hut hu⟩
    refine ⟨hapart, hslots, ⟨_, .created hacc, fun u hu halarm => ?_⟩, fun u hu halarm => ?_⟩
    · obtain ⟨hut, hu'⟩ := hold u hu halarm
      rw [update_of_ne hut]
      exact harmed u hu' halarm
    · exact h.programmed u (hold u hu halarm).2 halarm

end Calls

section Timers

variable {s s' : State} {time : IntervalTimer} {now : Nat}

/-- A deadline of 64 bits is what the code computes. -/
theorem u64_deadline (hlo : 0 ≤ deadline time now) (hhi : deadline time now < 2 ^ 64) :
    (u64 (now + u64 (time.expiration.second * 1000000 + time.expiration.microSecond)) : Int) = deadline time now := by
  unfold u64
  unfold deadline at hlo hhi ⊢
  generalize (time.expiration.second * 1000000 + time.expiration.microSecond : Int) = interval at hlo hhi ⊢
  omega

/-- A timer that is set. -/
theorem Inv.setTimer (h : Inv s) (hmeets : Meets s (.setTimer time now)) (hok : setTimer time now s = .ok s') : Inv s' := by
  obtain ⟨hlo, hhi, hfirst⟩ := hmeets
  have hvalue := u64_deadline hlo hhi
  obtain ⟨calls, hacc, harmed⟩ := h.armed
  unfold Timer.setTimer setNextTimeoutInterval at hok
  dsimp only at hok
  split at hok
  · cases hok
  · rename_i t hcur
    cases hok
    rw [Int.add_comm] at hvalue
    refine ⟨h.apart, h.slots, ⟨_, .called hacc, fun u hu halarm => ?_⟩, fun u hu halarm => ⟨_, rfl, ?_⟩⟩
    all_goals
      dsimp only at halarm ⊢
      by_cases hut : u = t
    · rw [hut, update_self, update_self, hvalue]
      exact List.mem_cons_self ..
    · rw [update_of_ne hut] at halarm ⊢
      rw [update_of_ne hut]
      exact harmed u hu halarm
    · rw [hut, update_self, Int.add_comm]
    · rw [update_of_ne hut] at halarm ⊢
      have hle := hfirst u hu (fun heq => hut (Option.some.inj (hcur.symm.trans heq)).symm) halarm
      rw [← hvalue, Int.add_comm] at hle
      exact Int.ofNat_le.mp hle

end Timers

section Interrupts

variable {s₀ s s' : State} {time now t : Nat} {reading : Nat → Nat} {done : List Nat}

/-- What has come of the state the loop began in, when it has done these threads. -/
structure Looped (s₀ : State) (time : Nat) (done : List Nat) (s : State) : Prop where
  apart : Lists.Apart s.machine.list
  steady : Steady s₀.machine.sched s.machine.sched
  timeout : s.timeout = some time
  armed : ∃ calls, Accounted s.history calls ∧ Armed s calls
  rest : ∀ t, t ∉ done → s.setAlarm t = s₀.setAlarm t
  done : ∀ t ∈ done, s.setAlarm t ≠ 0 → time ≤ s.setAlarm t

/-- A turn that leaves the alarm. -/
theorem Looped.skip (h : Looped s₀ time done s) (hleft : s.setAlarm t ≠ 0 → time ≤ s.setAlarm t) :
    Looped s₀ time (done ++ [t]) s where
  apart := h.apart
  steady := h.steady
  timeout := h.timeout
  armed := h.armed
  rest := fun u hu => h.rest u fun hd => hu (List.mem_append_left _ hd)
  done := fun u hu => by
    rcases List.mem_append.mp hu with hd | ht
    · exact h.done u hd
    · rw [List.mem_singleton.mp ht]
      exact hleft

/-- A turn that sends the signal and takes the alarm away. -/
theorem Looped.send (h : Looped s₀ time done s) {m : Signal.Machine} {ret : Int} {tid : Int} {found : Option Nat}
    (ht : t ∈ s₀.machine.sched.usedThreads) (halarm : s.setAlarm t ≠ 0) (hdue : s.setAlarm t ≤ now)
    (hfound : found = none ∨ found = some t) (hok : Signal.tkill tid SIGALRM s.machine = .ok (ret, m)) :
    Looped s₀ time (done ++ [t]) { s with
      machine := m
      setAlarm := update s.setAlarm t 0
      history := (found.map fun t => Event.sent t now).toList ++ s.history } := by
  have hsteady := Signal.steady_tkill hok
  have hact : Signal.perform (.tkill tid SIGALRM) s.machine = .ok m := by
    show (Signal.tkill tid SIGALRM s.machine).map (·.2) = .ok m
    rw [hok]
    rfl
  refine ⟨(Signal.acts_perform h.apart hact).apart h.apart, h.steady.trans hsteady, h.timeout, ?_, fun u hu => ?_, fun u hu => ?_⟩
  · obtain ⟨calls, hacc, harmed⟩ := h.armed
    have hcall : (s.setAlarm t : Int) ∈ calls t := by
      apply harmed t _ halarm
      rw [h.steady.used]
      exact ht
    -- the others keep their calls
    have hothers : ∀ calls' : Nat → List Int, (∀ u, u ≠ t → calls' u = calls u) → ∀ u ∈ m.sched.usedThreads,
        update s.setAlarm t 0 u ≠ 0 → ((update s.setAlarm t 0 u : Nat) : Int) ∈ calls' u :=
      fun calls' hsame u hu hne => by
        by_cases hut : u = t
        · rw [hut, update_self] at hne
          exact absurd rfl hne
        · rw [update_of_ne hut] at hne ⊢
          rw [hsame u hut]
          rw [hsteady.used] at hu
          exact harmed u hu hne
    rcases hfound with rfl | rfl
    · exact ⟨calls, hacc, hothers calls fun _ _ => rfl⟩
    · refine ⟨_, .sent hacc hcall (Int.ofNat_le.mpr hdue), hothers _ fun u hut => ?_⟩
      rw [update_of_ne hut]
  · have hut : u ≠ t := fun hut => hu (List.mem_append_right _ (List.mem_singleton.mpr hut))
    show update s.setAlarm t 0 u = _
    rw [update_of_ne hut]
    exact h.rest u fun hd => hu (List.mem_append_left _ hd)
  · show update s.setAlarm t 0 u ≠ 0 → time ≤ update s.setAlarm t 0 u
    by_cases hut : u = t
    · rw [hut, update_self]
      exact fun hne => absurd rfl hne
    · rw [update_of_ne hut]
      exact h.done u ((List.mem_append.mp hu).resolve_right fun hu => hut (List.mem_singleton.mp hu))

/-- **A turn of the loop.** -/
theorem Looped.turn (h : Looped s₀ time done s) (hslots : Slots s₀.machine.sched) (hnot : t ∉ done)
    (ht : t ∈ s₀.machine.sched.usedThreads)
    (hmeets : s₀.setAlarm t ≠ 0 →
      if s₀.setAlarm t ≤ reading t then (s₀.machine.sched.threads t).threadId ≠ 0 else time ≤ s₀.setAlarm t)
    (hok : alarmTurn reading s t = .ok s') : Looped s₀ time (done ++ [t]) s' := by
  unfold alarmTurn at hok
  dsimp only at hok
  rw [← h.rest t hnot] at hmeets
  split at hok
  · rename_i hdue
    obtain ⟨found, hfound, hok⟩ := bind_ok hok
    obtain ⟨⟨ret, m⟩, hsent, hok⟩ := bind_ok hok
    cases hok
    have hid := hmeets hdue.1
    rw [if_pos hdue.2, ← h.steady.id] at hid
    have ht' : t ∈ s.machine.sched.usedThreads := by
      rw [h.steady.used]
      exact ht
    exact h.send ht hdue.1 hdue.2 ((hslots.steady h.steady).found ht' hid (Signal.onSched_ok hfound)) hsent
  · rename_i hidle
    cases hok
    refine h.skip fun halarm => ?_
    have hleft := hmeets halarm
    rwa [if_neg fun hle => hidle ⟨halarm, hle⟩] at hleft

theorem Inv.interrupt (h : Inv s) (hmeets : Meets s (.interrupt now reading)) {flag : Bool}
    (hok : handleInterrupt now reading s = .ok (flag, s')) : Inv s' := by
  unfold handleInterrupt setNextTimeoutInterval at hok
  dsimp only at hok
  split at hok
  · cases hok
  · obtain ⟨s₁, hloop, heq⟩ := map_ok hok
    cases heq
    have hstart : Looped s ((now + 0xffffffff) % 2 ^ 64) [] { s with timeout := some ((now + 0xffffffff) % 2 ^ 64) } := by
      refine ⟨h.apart, Steady.refl _, rfl, h.armed, fun _ _ => rfl, fun t ht => ?_⟩
      cases ht
    have hend := foldlM_kept hloop (show ([] ++ s.machine.sched.usedThreads).Nodup from (List.nodup_append.mp h.slots.nodup).1) hstart
      fun done t s₂ s₃ ht hnot h₂ hturn => h₂.turn h.slots hnot ht (hmeets t ht) hturn
    refine ⟨hend.apart, h.slots.steady hend.steady, hend.armed, fun t ht halarm => ⟨_, hend.timeout, ?_⟩⟩
    rw [hend.steady.used] at ht
    exact hend.done t ht halarm

end Interrupts

/-! ## Runs -/

section Runs

variable {s s' : State}

theorem Inv.start (h : Start s) : Inv s where
  apart := by
    rw [h.1]
    exact Signal.apart_boot
  slots := by
    rw [h.1, Signal.boot_sched]
    refine ⟨Sched.orderly_boot.nodup, fun t ht => ?_, fun t ht => ?_, fun t ht => ?_⟩
    · have ht' : t ∈ Sched.boot.usedThreads ++ Sched.boot.freeThreads := ht
      simp only [Sched.boot, List.nil_append] at ht'
      exact List.mem_range.mp ht'
    · cases ht
    · cases ht
  armed := by
    obtain ⟨-, halarm, -, hhistory⟩ := h
    rw [hhistory]
    exact ⟨_, .nil, fun t _ hne => absurd (halarm t) hne⟩
  programmed := fun t _ hne => absurd (h.2.1 t) hne

/-- **Every step**, by cases. -/
theorem Inv.step (h : Inv s) (hstep : Step Meets s s') : Inv s' := by
  obtain ⟨op, henabled, hmeets, hok⟩ := hstep
  cases op with
  | call op =>
    obtain ⟨m, hcall, rfl⟩ := map_ok hok
    refine h.call (fun t hop => ?_) hmeets hcall
    rw [hop] at henabled
    exact henabled
  | setTimer time now => exact h.setTimer hmeets hok
  | interrupt now reading =>
    obtain ⟨⟨flag, s₁⟩, hint, rfl⟩ := map_ok hok
    exact h.interrupt hmeets hint
  | rest sched =>
    cases hok
    have hs : Steady s.machine.sched sched := henabled
    obtain ⟨calls, hacc, harmed⟩ := h.armed
    refine ⟨h.apart, h.slots.steady hs, ⟨calls, hacc, fun t ht => harmed t ?_⟩, fun t ht => h.programmed t ?_⟩
    · rw [← hs.used]
      exact ht
    · rw [← hs.used]
      exact ht

/-- **Alarms**: in runs whose steps meet the condition, signals answer calls that are due, one each, and the hardware
timer is set in time. -/
theorem alarms_in_time (h : Reach Start (Step Meets) s) : Sound s :=
  Inv.sound (h.invariant (fun _ => Inv.start) fun _ _ h₁ hstep => h₁.step hstep)

end Runs

def atBoot : State := ⟨Signal.boot, fun _ => 0, ⟨⟨0, 0⟩, ⟨0, 0⟩⟩, none, []⟩

/-- Once, in so many seconds. -/
def once (second : Nat) : IntervalTimer := ⟨⟨0, 0⟩, ⟨second, 0⟩⟩

/-- The first process with its thread running, when it has set a timer of 100 seconds. -/
def armedRun : Except Stop (State × State × State) := do
  let s₁ ← perform (.call (.create ⟨true, true, true⟩ fun _ => 0)) atBoot
  let s₂ ← perform (.rest (Sched.threadRun 0 s₁.machine.sched)) s₁
  let s₃ ← perform (.setTimer (once 100) 1) s₂
  return (s₁, s₂, s₃)

theorem reach_armedRun {ok : State → Op → Prop} {s₁ s₂ s₃ : State} (hok : armedRun = .ok (s₁, s₂, s₃))
    (hcreate : ok atBoot (.call (.create ⟨true, true, true⟩ fun _ => 0))) (hrest : ∀ s sched, ok s (.rest sched))
    (hset : ok s₂ (.setTimer (once 100) 1)) : Reach Start (Step ok) s₃ := by
  obtain ⟨t₁, h₁, hok⟩ := bind_ok hok
  obtain ⟨t₂, h₂, hok⟩ := bind_ok hok
  obtain ⟨t₃, h₃, hok⟩ := bind_ok hok
  cases hok
  have hstart : Reach Start (Step ok) atBoot := .init ⟨rfl, fun _ => rfl, rfl, rfl⟩
  have hcreated := hstart.step ⟨.call (.create ⟨true, true, true⟩ fun _ => 0), trivial, hcreate, h₁⟩
  have hruns := hcreated.step ⟨.rest (Sched.threadRun 0 s₁.machine.sched), Sched.steady_threadRun 0 _, hrest _ _, h₂⟩
  exact hruns.step ⟨.setTimer (once 100) 1, trivial, hset, h₃⟩

/-- The timer goes off in time. -/
def answeredRun : Except Stop ((State × State × State) × State) := do
  let r ← armedRun
  let s ← perform (.interrupt 100000001 fun _ => 100000001) r.2.2
  return (r, s)

/-- A timer is set, and its signal sent when it is due. -/
theorem alarms_in_time_once : ∃ s, Reach Start (Step Meets) s ∧
    s.history = [.sent 0 100000001, .called 0 100000001, .created 0] ∧ Sound s := by
  have hrun : (answeredRun.toOption.map fun r => decide (r.1.2.1.machine.sched.usedThreads = [0] ∧
      r.1.2.1.setAlarm 0 = 0 ∧ r.1.2.2.machine.sched.usedThreads = [0] ∧ r.1.2.2.setAlarm 0 ≤ 100000001 ∧
      (r.1.2.2.machine.sched.threads 0).threadId ≠ 0 ∧
      r.2.history = [.sent 0 100000001, .called 0 100000001, .created 0])) = some true := by decide +kernel
  obtain ⟨⟨⟨s₁, s₂, s₃⟩, s⟩, hok, hchecks⟩ := exists_of_toOption hrun
  obtain ⟨hused₂, hzero, hused₃, hdue, hid, hhistory⟩ := of_decide_eq_true hchecks
  obtain ⟨_, harmed, hok⟩ := bind_ok hok
  obtain ⟨_, hint, hok⟩ := bind_ok hok
  cases hok
  have hreach : Reach Start (Step Meets) s₃ := by
    refine reach_armedRun harmed (fun _ _ _ _ => rfl) (fun _ _ => trivial) ⟨by decide, by decide, fun t ht _ hne => ?_⟩
    rw [show s₂.machine.sched.usedThreads = [0] from hused₂, List.mem_singleton] at ht
    rw [ht] at hne
    exact absurd hzero hne
  have hend := hreach.step ⟨.interrupt 100000001 fun _ => 100000001, trivial, fun t ht _ => ?_, hint⟩
  · exact ⟨s, hend, hhistory, alarms_in_time hend⟩
  · rw [show s₃.machine.sched.usedThreads = [0] from hused₃, List.mem_singleton] at ht
    rw [ht, if_pos hdue]
    exact hid

/-- A second thread sets a timer of 1000 seconds. -/
def latedRun : Except Stop ((State × State × State) × State × State × State) := do
  let r ← armedRun
  let s₄ ← perform (.call (.threadFork ⟨true, true, true⟩ 0 0 0)) r.2.2
  let s₅ ← perform (.rest (Sched.threadRun 1 s₄.machine.sched)) s₄
  let s₆ ← perform (.setTimer (once 1000) 2) s₅
  return (r, s₄, s₅, s₆)

/-- The hardware timer is left at the second deadline, 900 seconds after the first. -/
theorem alarm_programmed_over : ∃ s, Reach Start (Step fun _ _ => True) s ∧ ¬ Sound s := by
  have hrun : (latedRun.toOption.map fun r => decide (0 ∈ r.2.2.2.machine.sched.usedThreads ∧
      r.2.2.2.setAlarm 0 = 100000001 ∧ r.2.2.2.timeout = some 1000000002)) = some true := by decide +kernel
  obtain ⟨⟨⟨s₁, s₂, s₃⟩, s₄, s₅, s₆⟩, hok, hchecks⟩ := exists_of_toOption hrun
  obtain ⟨hused, halarm, htimeout⟩ := of_decide_eq_true hchecks
  obtain ⟨_, harmed, hok⟩ := bind_ok hok
  obtain ⟨_, h₄, hok⟩ := bind_ok hok
  obtain ⟨_, h₅, hok⟩ := bind_ok hok
  obtain ⟨_, h₆, hok⟩ := bind_ok hok
  cases hok
  have hreach : Reach Start (Step fun _ _ => True) s₃ := reach_armedRun harmed trivial (fun _ _ => trivial) trivial
  have hforked := hreach.step ⟨.call (.threadFork ⟨true, true, true⟩ 0 0 0), trivial, trivial, h₄⟩
  have hruns := hforked.step ⟨.rest (Sched.threadRun 1 s₄.machine.sched), Sched.steady_threadRun 1 _, trivial, h₅⟩
  have hset := hruns.step ⟨.setTimer (once 1000) 2, trivial, trivial, h₆⟩
  refine ⟨s₆, hset, fun hsound => ?_⟩
  obtain ⟨time, htime, hle⟩ := hsound.programmed 0 hused (by rw [halarm]; decide)
  rw [htimeout] at htime
  cases htime
  rw [halarm] at hle
  exact absurd hle (by decide)

end Exaros.Timer
