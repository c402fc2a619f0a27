import Exaros.Process.Futex

/-!
# `wait`

One round of the loop of `wait` goes over `usedProcesses` and takes the first child that matches the target
and is a `ZOMBIE`. When there is none it sleeps or fails, according to whether it has seen a child at all.
-/

namespace Exaros.Sched

open Loop Run

/-- What `copyout` returns, if it returns. -/
def copyout : Int := 0

/-- How a round ends: with the id of a child and what has been stored for it, with -1, or asleep. -/
inductive WaitEnd
  | reaped (pid : Nat) (stored : Option Nat)
  | failed
  | asleep
deriving DecidableEq

/-- `targetProcessId == -1 || np->processId == targetProcessId` -/
def Proc.matches (np : Proc) (targetProcessId : Int) : Prop :=
  targetProcessId = -1 ∨ (np.processId : Int) = targetProcessId % 2 ^ 32

instance (np : Proc) (targetProcessId : Int) : Decidable (np.matches targetProcessId) :=
  inferInstanceAs (Decidable (_ ∨ _))

/-- `LIST_FOREACH` over `usedProcesses` in `wait`, for the process `p`. -/
def waitRound (p : Nat) (targetProcessId : Int) (addr : Nat) (haveChildProcess : Bool) : List Nat → Machine → WaitEnd × Machine
  | [], m => (if haveChildProcess then .asleep else .failed, m)
  | np :: rest, m =>
    if (m.procs np).parentId = (m.procs p).processId then
      if (m.procs np).matches targetProcessId ∧ (m.procs np).state = .zombie then
        if addr ≠ 0 ∧ copyout < 0 then (.failed, m)
        else (.reaped (m.procs np).processId (if addr ≠ 0 then some (m.procs np).retValue else none), reap np m)
      else waitRound p targetProcessId addr true rest m
    else waitRound p targetProcessId addr haveChildProcess rest m

/-- `wait` up to its end or its sleep; after the sleep it begins a new round. -/
def wait (targetProcessId : Int) (addr : Nat) (clock : List Nat) (m : Machine) : Except Halt (WaitEnd × Machine) := do
  let (_, p) ← myThread m
  match waitRound p targetProcessId addr false m.usedProcesses m with
  | (.asleep, m) => (sleep (.process p) clock m).map (.asleep, ·)
  | (e, m) => return (e, m)

/-- A child of `p` that may be waited for. -/
def Machine.Child (m : Machine) (p c : Nat) : Prop := c ∈ m.usedProcesses ∧ (m.procs c).parentId = (m.procs p).processId

/-- `p` sleeps only for a matching child that still lives, and fails when no child matches. -/
structure NotInVain (m : Machine) (p : Nat) (targetProcessId : Int) (addr : Nat) : Prop where
  sleeps : (waitRound p targetProcessId addr false m.usedProcesses m).1 = .asleep →
    ∃ c, m.Child p c ∧ (m.procs c).state ≠ .zombie ∧ (m.procs c).matches targetProcessId
  fails : (∀ c, m.Child p c → ¬ (m.procs c).matches targetProcessId) →
    (waitRound p targetProcessId addr false m.usedProcesses m).1 = .failed

/-! ## The end of a round -/

section Round

variable {m m' : Machine} {p : Nat} {target : Int} {addr : Nat} {seen : Bool} {l : List Nat}

/-- The state and the result of a round: a matching zombie is taken, or there is none. -/
theorem waitRound_cases (p : Nat) (target : Int) (addr : Nat) (seen : Bool) (l : List Nat) (m : Machine) :
    (∃ c ∈ l, (m.procs c).parentId = (m.procs p).processId ∧ (m.procs c).matches target ∧ (m.procs c).state = .zombie ∧
      waitRound p target addr seen l m =
        (.reaped (m.procs c).processId (if addr ≠ 0 then some (m.procs c).retValue else none), reap c m)) ∨
    ((∀ c ∈ l, (m.procs c).parentId = (m.procs p).processId → (m.procs c).matches target → (m.procs c).state ≠ .zombie) ∧
      waitRound p target addr seen l m =
        (if seen = true ∨ ∃ c ∈ l, (m.procs c).parentId = (m.procs p).processId then .asleep else .failed, m)) := by
  induction l generalizing seen with
  | nil =>
    refine .inr ⟨fun c hc => absurd hc List.not_mem_nil, ?_⟩
    cases seen with
    | true => rw [if_pos (.inl rfl)]; rfl
    | false => rw [if_neg (by simp)]; rfl
  | cons np rest ih =>
    unfold waitRound
    by_cases hchild : (m.procs np).parentId = (m.procs p).processId
    · rw [if_pos hchild]
      by_cases hdone : (m.procs np).matches target ∧ (m.procs np).state = .zombie
      · rw [if_pos hdone, if_neg fun hfault => absurd hfault.2 (by decide)]
        exact .inl ⟨np, List.mem_cons_self .., hchild, hdone.1, hdone.2, rfl⟩
      · rw [if_neg hdone]
        rcases ih true with ⟨c, hc, hrest⟩ | ⟨hnone, hend⟩
        · exact .inl ⟨c, List.mem_cons_of_mem _ hc, hrest⟩
        · refine .inr ⟨fun c hc hpar hmat hz => ?_, ?_⟩
          · rcases List.mem_cons.mp hc with rfl | hc
            · exact hdone ⟨hmat, hz⟩
            · exact hnone c hc hpar hmat hz
          · rw [hend, if_pos (.inl rfl), if_pos (.inr ⟨np, List.mem_cons_self .., hchild⟩)]
    · rw [if_neg hchild]
      rcases ih seen with ⟨c, hc, hrest⟩ | ⟨hnone, hend⟩
      · exact .inl ⟨c, List.mem_cons_of_mem _ hc, hrest⟩
      · refine .inr ⟨fun c hc hpar hmat hz => ?_, ?_⟩
        · rcases List.mem_cons.mp hc with rfl | hc
          · exact hchild hpar
          · exact hnone c hc hpar hmat hz
        · rw [hend]
          have hiff : (∃ c ∈ np :: rest, (m.procs c).parentId = (m.procs p).processId) ↔
              ∃ c ∈ rest, (m.procs c).parentId = (m.procs p).processId := by
            simp [hchild]
          simp only [hiff]

/-- **No sleep in vain** exactly when the caller has no child at all, or one that matches. -/
theorem notInVain_iff (m : Machine) (p : Nat) (target : Int) (addr : Nat) :
    NotInVain m p target addr ↔ (∀ c, ¬ m.Child p c) ∨ ∃ c, m.Child p c ∧ (m.procs c).matches target := by
  rcases waitRound_cases p target addr false m.usedProcesses m with ⟨c, hc, hpar, hmat, -, hend⟩ | ⟨hnone, hend⟩
  · constructor
    · exact fun _ => .inr ⟨c, ⟨hc, hpar⟩, hmat⟩
    · intro _
      refine ⟨fun h => ?_, fun h => absurd hmat (h c ⟨hc, hpar⟩)⟩
      rw [hend] at h
      cases h
  · by_cases hchild : ∃ c ∈ m.usedProcesses, (m.procs c).parentId = (m.procs p).processId
    · rw [if_pos (.inr hchild)] at hend
      obtain ⟨c₀, hc₀, hpar₀⟩ := hchild
      constructor
      · intro h
        by_contra hno
        have hfailed := h.fails fun c hc hmat => hno (.inr ⟨c, hc, hmat⟩)
        rw [hend] at hfailed
        cases hfailed
      · rintro (hno | ⟨c, hc, hmat⟩)
        · exact absurd ⟨hc₀, hpar₀⟩ (hno c₀)
        · exact ⟨fun _ => ⟨c, hc, hnone c hc.1 hc.2 hmat, hmat⟩, fun h => absurd hmat (h c hc)⟩
    · have hfalse : ¬ (false = true ∨ ∃ c ∈ m.usedProcesses, (m.procs c).parentId = (m.procs p).processId) := fun h =>
        h.elim Bool.false_ne_true hchild
      rw [if_neg hfalse] at hend
      constructor
      · exact fun _ => .inl fun c hc => hchild ⟨c, hc.1, hc.2⟩
      · intro _
        refine ⟨fun h => ?_, fun _ => by rw [hend]⟩
        rw [hend] at h
        cases h

end Round

/-! ## A wait for a stranger -/

/-- A process is made and forks. -/
def parentRun : List Op :=
  [.create ⟨true, true, true⟩ fun _ => 0, .callYield [0], .clone ⟨true, true, true⟩ 0 0 0 0]

/-- The id of the child of `parentRun`. -/
def childId : Nat := makeId 2 1

theorem parentRun_child : ∃ m, Reach (· = boot) (Step fun _ _ => True) m ∧ m.processRunning = some 0 ∧
    (∀ c, m.Child 0 c ↔ c = 1) ∧ (m.procs 1).processId = childId ∧ (m.procs 1).state = .runnable := by
  have hrun : (execAll parentRun boot).toOption.map (fun m => decide (m.processRunning = some 0 ∧ m.usedProcesses = [1, 0] ∧
      (m.procs 1).parentId = (m.procs 0).processId ∧ (m.procs 0).parentId ≠ (m.procs 0).processId ∧
      (m.procs 1).processId = childId ∧ (m.procs 1).state = .runnable)) = some true := by decide +kernel
  obtain ⟨m, hok, hlook⟩ := exists_of_toOption hrun
  obtain ⟨hcur, hused, hpar, hself, hid, hstate⟩ := of_decide_eq_true hlook
  refine ⟨m, reach_execAll (.init rfl) (fun _ _ _ => trivial) hok, hcur, fun c => ?_, hid, hstate⟩
  unfold Machine.Child
  rw [hused]
  constructor
  · rintro ⟨hmem, hc⟩
    rcases List.mem_cons.mp hmem with rfl | hmem
    · rfl
    · rw [List.mem_singleton.mp hmem] at hc
      exact absurd hc hself
  · rintro rfl
    exact ⟨List.mem_cons_self .., hpar⟩

/-- Who waits for a process that is no child of his, and has one, sleeps. -/
theorem wait_in_vain : ∃ m, Reach (· = boot) (Step fun _ _ => True) m ∧ m.processRunning = some 0 ∧
    ¬ NotInVain m 0 (childId + 1) 0 := by
  obtain ⟨m, hreach, hcur, hchild, hid, -⟩ := parentRun_child
  refine ⟨m, hreach, hcur, fun h => ?_⟩
  have hnot : ∀ c, m.Child 0 c → ¬ (m.procs c).matches (childId + 1) := fun c hc hmat => by
    rw [(hchild c).mp hc] at hmat
    unfold Proc.matches at hmat
    rw [hid] at hmat
    exact absurd hmat (by decide)
  have hfailed := h.fails hnot
  rcases waitRound_cases 0 (childId + 1) 0 false m.usedProcesses m with ⟨c, hc, hpar, hmat, -⟩ | ⟨-, hend⟩
  · exact hnot c ⟨hc, hpar⟩ hmat
  · have h₁ := (hchild 1).mpr rfl
    rw [hend, if_pos (.inr ⟨1, h₁.1, h₁.2⟩)] at hfailed
    cases hfailed

end Exaros.Sched
