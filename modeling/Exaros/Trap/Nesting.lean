import Exaros.Lib.Run
import Mathlib.Algebra.Group.Int.Defs
import Mathlib.Data.Finset.Card

/-!
# Interrupt nesting

`interruptLayer` counts how often interrupts have been disabled on the hart, by the spinlocks that are held and
by `myThread` while it reads the current thread. `myThread` returns without `interruptPop` when there is none,
and `main` hands over to the scheduler that way, so from the first thread on the counter is ahead of the locks.

**What it does not establish.** Anything of a second hart.
-/

namespace Exaros.Trap

open Loop Run

inductive Spinlock
  | vdiskLock
  | waitLock
  | freeProcessesLock
  | thread (i : Nat)
  | process (i : Nat)
  | pipe (i : Nat)
  | socket (i : Nat)
  deriving DecidableEq

structure Hart where
  interruptLayer : Int := 0
  lastInterruptEnable : Bool := false

/-- What the hart runs: kernel code, the loop of `fifoSched`, or the program of the current thread. -/
inductive Mode
  | kernel
  | scheduling
  | user
  deriving DecidableEq

structure Kernel where
  hart : Hart := {}
  /-- The bit `intr_get` reads. -/
  sie : Bool := false
  locked : Finset Spinlock := ∅
  currentThread : Option Nat := none
  /-- The lock a thread asleep takes back when it runs again. -/
  reason : Nat → Option Spinlock := fun _ => none
  /-- What the trap handlers on the kernel stack return to. -/
  interrupted : List Mode := []
  mode : Mode := .kernel

inductive Halt
  | overflow
  | interruptBit
  | notMatch
  | acquired
  | released
  | nullThread
  deriving DecidableEq

def intMax : Int := 2 ^ 31 - 1

def interruptPush (k : Kernel) : Except Halt Kernel :=
  if k.hart.interruptLayer = intMax then throw .overflow
  else return { k with
    sie := false
    hart.lastInterruptEnable := if k.hart.interruptLayer = 0 then k.sie else k.hart.lastInterruptEnable
    hart.interruptLayer := k.hart.interruptLayer + 1 }

def interruptPop (k : Kernel) : Except Halt Kernel :=
  if k.sie then throw .interruptBit
  else if k.hart.interruptLayer < 0 then throw .notMatch
  else return { k with
    hart.interruptLayer := k.hart.interruptLayer - 1
    sie := decide (k.hart.interruptLayer - 1 = 0) && k.hart.lastInterruptEnable }

/-- One hart: whoever holds a lock is the hart that asks. -/
def holding (lk : Spinlock) (k : Kernel) : Bool := decide (lk ∈ k.locked)

def acquireLock (lk : Spinlock) (k : Kernel) : Except Halt Kernel := do
  let k ← interruptPush k
  if holding lk k then throw .acquired
  else return { k with locked := insert lk k.locked }

def releaseLock (lk : Spinlock) (k : Kernel) : Except Halt Kernel :=
  if !holding lk k then throw .released
  else interruptPop { k with locked := k.locked.erase lk }

/-- The early return skips `interruptPop`. -/
def myThread (k : Kernel) : Except Halt (Option Nat × Kernel) := do
  let k ← interruptPush k
  match k.currentThread with
  | none => return (none, k)
  | some t =>
    let k ← interruptPop k
    return (some t, k)

/-- `myThread()->…` -/
def thisThread (k : Kernel) : Except Halt (Nat × Kernel) := do
  match ← myThread k with
  | (none, _) => throw .nullThread
  | (some t, k) => return (t, k)

/-- Up to its loop, where interrupts are on. -/
def fifoSched (k : Kernel) : Kernel := { k with sie := true, mode := .scheduling }

def callYield (k : Kernel) : Except Halt Kernel := do
  let r ← myThread k
  return fifoSched r.2

def timeYield (k : Kernel) : Except Halt Kernel := do
  let r ← myThread k
  return fifoSched r.2

/-- The thread that runs ends, `threadFree` done. -/
def threadDestroy (k : Kernel) : Except Halt Kernel := callYield { k with currentThread := none }

/-- `sleep` up to `sleepSave`. -/
def sleep (lk : Spinlock) (killed : Bool) (k : Kernel) : Except Halt Kernel := do
  let r ← thisThread k
  let k ← acquireLock (.thread r.1) r.2
  let k ← releaseLock lk k
  let k := { k with reason := Function.update k.reason r.1 (some lk) }
  let k ← releaseLock (.thread r.1) k
  if killed then threadDestroy k else callYield k

/-- `sleep` from `sleepRec` on. -/
def sleepRec (th : Nat) (lk : Spinlock) (killed : Bool) (k : Kernel) : Except Halt Kernel := do
  let k ← acquireLock (.thread th) k
  let k ← releaseLock (.thread th) k
  if killed then threadDestroy k else acquireLock lk k

def wakeup (usedThreads : List Nat) (k : Kernel) : Except Halt Kernel :=
  usedThreads.foldlM (fun k th => do
    let k ← acquireLock (.thread th) k
    releaseLock (.thread th) k) k

/-- The end of `fifoSched`, and the thread it has picked. -/
def threadRun (th : Nat) (killed : Bool) (k : Kernel) : Except Halt Kernel :=
  let k := { k with sie := false, currentThread := some th, interrupted := [], mode := .kernel }
  match k.reason th with
  | some lk => sleepRec th lk killed { k with reason := Function.update k.reason th none }
  | none => return k

/-- `sret` moves SPIE, which is set, to SIE. -/
def userTrapReturn (k : Kernel) : Except Halt Kernel := do
  let r ← myThread k
  let r ← thisThread r.2
  let r ← thisThread r.2
  return { r.2 with sie := true, mode := .user }

def userTrap (k : Kernel) : Kernel := { k with sie := false, mode := .kernel }

def kernelTrap (k : Kernel) : Kernel :=
  { k with sie := false, mode := .kernel, interrupted := k.mode :: k.interrupted }

/-- `kernelHandler` has restored `sstatus`. -/
def kernelReturn (m : Mode) (rest : List Mode) (k : Kernel) : Kernel := { k with sie := true, mode := m, interrupted := rest }

/-- What the kernel's code does to the hart, call by call. -/
inductive Event
  | acquireLock (lk : Spinlock)
  | releaseLock (lk : Spinlock)
  | myThread
  | wakeup (usedThreads : List Nat)
  | sleep (lk : Spinlock) (killed : Bool)
  | callYield
  | timeYield
  | threadDestroy
  | threadRun (th : Nat) (killed : Bool)
  | userTrapReturn
  | userTrap
  | kernelTrap
  | kernelReturn (m : Mode) (rest : List Mode)

/-- A system call, a fault, a handler and the scheduler between two threads are any sequence of these. -/
def Enabled (k : Kernel) : Event → Prop
  | .threadRun _ _ => k.mode = .scheduling
  | .userTrap => k.mode = .user
  | .kernelTrap => k.mode ≠ .user ∧ k.sie = true
  | .kernelReturn m rest => k.mode = .kernel ∧ k.interrupted = m :: rest
  | .userTrapReturn => k.mode = .kernel
  | _ => k.mode ≠ .user

def perform (k : Kernel) : Event → Except Halt Kernel
  | .acquireLock lk => acquireLock lk k
  | .releaseLock lk => releaseLock lk k
  | .myThread => do
    let r ← myThread k
    return r.2
  | .wakeup usedThreads => wakeup usedThreads k
  | .sleep lk killed => sleep lk killed k
  | .callYield => callYield k
  | .timeYield => timeYield k
  | .threadDestroy => threadDestroy k
  | .threadRun th killed => threadRun th killed k
  | .userTrapReturn => userTrapReturn k
  | .userTrap => return userTrap k
  | .kernelTrap => return kernelTrap k
  | .kernelReturn m rest => return kernelReturn m rest k

def Step (k k' : Kernel) : Prop := ∃ e, Enabled k e ∧ perform k e = .ok k'

/-- `main`: the counters are in the cleared `.bss`. -/
structure Boot (k : Kernel) : Prop where
  layer : k.hart.interruptLayer = 0
  locked : k.locked = ∅
  currentThread : k.currentThread = none
  interrupted : k.interrupted = []
  mode : k.mode = .kernel

/-! ## What one call does -/

/-- How far the counter is ahead of the locks. -/
def gap (k : Kernel) : Int := k.hart.interruptLayer - k.locked.card

/-- Everything but the counter, the locks and the interrupt bit. -/
structure Same (k k' : Kernel) : Prop where
  currentThread : k'.currentThread = k.currentThread
  interrupted : k'.interrupted = k.interrupted
  mode : k'.mode = k.mode

section Calls

variable {k k' k₁ k₂ : Kernel} {lk : Spinlock} {killed : Bool}

theorem Same.refl (k : Kernel) : Same k k := ⟨rfl, rfl, rfl⟩

theorem Same.trans (h : Same k k₁) (h' : Same k₁ k₂) : Same k k₂ :=
  ⟨h'.currentThread.trans h.currentThread, h'.interrupted.trans h.interrupted, h'.mode.trans h.mode⟩

theorem interruptPush_ok (h : interruptPush k = .ok k') :
    Same k k' ∧ k'.locked = k.locked ∧ k'.hart.interruptLayer = k.hart.interruptLayer + 1 := by
  unfold interruptPush at h
  split at h
  · cases h
  · cases h
    exact ⟨⟨rfl, rfl, rfl⟩, rfl, rfl⟩

theorem interruptPop_ok (h : interruptPop k = .ok k') :
    Same k k' ∧ k'.locked = k.locked ∧ k'.hart.interruptLayer = k.hart.interruptLayer - 1 := by
  unfold interruptPop at h
  split at h
  · cases h
  · split at h
    · cases h
    · cases h
      exact ⟨⟨rfl, rfl, rfl⟩, rfl, rfl⟩

theorem acquireLock_ok (h : acquireLock lk k = .ok k') : Same k k' ∧ lk ∉ k.locked ∧ k'.locked = insert lk k.locked ∧
    k'.hart.interruptLayer = k.hart.interruptLayer + 1 := by
  obtain ⟨k₁, hpush, h⟩ := bind_ok h
  obtain ⟨hsame, hlocked, hlayer⟩ := interruptPush_ok hpush
  split at h
  · cases h
  · rename_i hfree
    cases h
    have hnot : lk ∉ k.locked := by
      rw [← hlocked]
      simpa [holding] using hfree
    refine ⟨⟨hsame.currentThread, hsame.interrupted, hsame.mode⟩, hnot, ?_, hlayer⟩
    rw [hlocked]

theorem releaseLock_ok (h : releaseLock lk k = .ok k') : Same k k' ∧ lk ∈ k.locked ∧ k'.locked = k.locked.erase lk ∧
    k'.hart.interruptLayer = k.hart.interruptLayer - 1 := by
  unfold releaseLock at h
  split at h
  · cases h
  · rename_i hheld
    obtain ⟨hsame, hlocked, hlayer⟩ := interruptPop_ok h
    refine ⟨⟨hsame.currentThread, hsame.interrupted, hsame.mode⟩, ?_, hlocked, hlayer⟩
    simpa [holding] using hheld

/-- `myThread` leaves the interrupts disabled once more where there is no thread. -/
theorem myThread_ok {t : Option Nat} (h : myThread k = .ok (t, k')) : t = k.currentThread ∧ Same k k' ∧ k'.locked = k.locked ∧
    k'.hart.interruptLayer = k.hart.interruptLayer + if k.currentThread = none then 1 else 0 := by
  obtain ⟨k₁, hpush, h⟩ := bind_ok h
  obtain ⟨hsame, hlocked, hlayer⟩ := interruptPush_ok hpush
  have hcurrent := hsame.currentThread
  split at h
  · rename_i hnone
    cases h
    rw [hcurrent] at hnone
    refine ⟨hnone.symm, hsame, hlocked, ?_⟩
    rw [hlayer, if_pos hnone]
  · rename_i t hsome
    obtain ⟨k₂, hpop, h⟩ := bind_ok h
    cases h
    obtain ⟨hsame', hlocked', hlayer'⟩ := interruptPop_ok hpop
    rw [hcurrent] at hsome
    have hne : ¬ k.currentThread = none := by
      rw [hsome]
      exact Option.some_ne_none t
    refine ⟨hsome.symm, hsame.trans hsame', hlocked'.trans hlocked, ?_⟩
    rw [if_neg hne]
    omega

theorem myThread_gap {r : Option Nat × Kernel} (h : myThread k = .ok r) :
    r.1 = k.currentThread ∧ Same k r.2 ∧ gap r.2 = gap k + if k.currentThread = none then 1 else 0 := by
  obtain ⟨t, k₁⟩ := r
  obtain ⟨ht, hsame, hlocked, hlayer⟩ := myThread_ok h
  refine ⟨ht, hsame, ?_⟩
  show k₁.hart.interruptLayer - k₁.locked.card = k.hart.interruptLayer - k.locked.card + _
  rw [hlocked, hlayer]
  exact Int.add_right_comm ..

theorem thisThread_gap {r : Nat × Kernel} (h : thisThread k = .ok r) :
    k.currentThread = some r.1 ∧ Same k r.2 ∧ gap r.2 = gap k := by
  obtain ⟨⟨t, k₁⟩, hmy, h⟩ := bind_ok h
  obtain ⟨ht, hsame, hgap⟩ := myThread_gap hmy
  cases t with
  | none => cases h
  | some t =>
    cases h
    have hne : ¬ k.currentThread = none := by
      rw [← ht]
      exact Option.some_ne_none t
    rw [if_neg hne, Int.add_zero] at hgap
    exact ⟨ht.symm, hsame, hgap⟩

theorem acquireLock_gap (h : acquireLock lk k = .ok k') : Same k k' ∧ gap k' = gap k := by
  obtain ⟨hsame, hnot, hlocked, hlayer⟩ := acquireLock_ok h
  refine ⟨hsame, ?_⟩
  have hcard : k'.locked.card = k.locked.card + 1 := by rw [hlocked, Finset.card_insert_of_notMem hnot]
  unfold gap
  omega

theorem releaseLock_gap (h : releaseLock lk k = .ok k') : Same k k' ∧ gap k' = gap k := by
  obtain ⟨hsame, hheld, hlocked, hlayer⟩ := releaseLock_ok h
  refine ⟨hsame, ?_⟩
  have hcard : k'.locked.card + 1 = k.locked.card := by rw [hlocked, Finset.card_erase_add_one hheld]
  unfold gap
  omega

theorem wakeup_gap {usedThreads : List Nat} (h : wakeup usedThreads k = .ok k') : Same k k' ∧ gap k' = gap k := by
  induction usedThreads generalizing k with
  | nil =>
    cases h
    exact ⟨Same.refl _, rfl⟩
  | cons th ths ih =>
    unfold wakeup at h
    rw [List.foldlM_cons] at h
    obtain ⟨k₂, hpair, hrest⟩ := bind_ok h
    obtain ⟨k₁, hacquire, hrelease⟩ := bind_ok hpair
    have hfirst := acquireLock_gap hacquire
    have hsecond := releaseLock_gap hrelease
    have hlast := ih hrest
    exact ⟨(hfirst.1.trans hsecond.1).trans hlast.1, by rw [hlast.2, hsecond.2, hfirst.2]⟩

theorem callYield_gap (h : callYield k = .ok k') : gap k' = gap k + if k.currentThread = none then 1 else 0 := by
  obtain ⟨r, hmy, h⟩ := bind_ok h
  cases h
  exact (myThread_gap hmy).2.2

theorem threadDestroy_gap (h : threadDestroy k = .ok k') : gap k' = gap k + 1 := callYield_gap h

theorem le_add_ite (n : Int) (p : Prop) [Decidable p] : n ≤ n + if p then 1 else 0 := by
  split <;> omega

theorem leave_gap (h : (if killed then threadDestroy k else callYield k) = .ok k') : gap k ≤ gap k' := by
  split at h
  · rw [threadDestroy_gap h]
    exact Int.le.intro 1 rfl
  · rw [callYield_gap h]
    exact le_add_ite ..

theorem sleep_gap (h : sleep lk killed k = .ok k') : k.currentThread ≠ none ∧ gap k ≤ gap k' := by
  obtain ⟨r, hthis, h⟩ := bind_ok h
  obtain ⟨k₁, hacquire, h⟩ := bind_ok h
  obtain ⟨k₂, hrelease, h⟩ := bind_ok h
  obtain ⟨k₃, hrelease', h⟩ := bind_ok h
  obtain ⟨hcurrent, -, hgap⟩ := thisThread_gap hthis
  refine ⟨by rw [hcurrent]; exact Option.some_ne_none _, ?_⟩
  calc gap k = gap r.2 := hgap.symm
    _ = gap k₁ := (acquireLock_gap hacquire).2.symm
    _ = gap k₂ := (releaseLock_gap hrelease).2.symm
    _ = gap k₃ := (releaseLock_gap hrelease').2.symm
    _ ≤ gap k' := leave_gap h

theorem sleepRec_gap {th : Nat} (h : sleepRec th lk killed k = .ok k') : gap k ≤ gap k' := by
  obtain ⟨k₁, hacquire, h⟩ := bind_ok h
  obtain ⟨k₂, hrelease, h⟩ := bind_ok h
  have hgap : gap k₂ = gap k := (releaseLock_gap hrelease).2.trans (acquireLock_gap hacquire).2
  rw [← hgap]
  split at h
  · rw [threadDestroy_gap h]
    exact Int.le.intro 1 rfl
  · exact (acquireLock_gap h).2.ge

theorem threadRun_gap {th : Nat} (h : threadRun th killed k = .ok k') : gap k ≤ gap k' := by
  simp only [threadRun] at h
  split at h
  · have hgrows := sleepRec_gap h
    exact hgrows
  · cases h
    exact le_rfl

theorem userTrapReturn_gap (h : userTrapReturn k = .ok k') : gap k' = gap k + if k.currentThread = none then 1 else 0 := by
  obtain ⟨r, hmy, h⟩ := bind_ok h
  obtain ⟨r₁, hthis, h⟩ := bind_ok h
  obtain ⟨r₂, hthis', h⟩ := bind_ok h
  cases h
  calc gap r₂.2 = gap r₁.2 := (thisThread_gap hthis').2.2
    _ = gap r.2 := (thisThread_gap hthis).2.2
    _ = _ := (myThread_gap hmy).2.2

/-- **One call**: the counter never comes closer to the locks. -/
theorem perform_gap {e : Event} (h : perform k e = .ok k') : gap k ≤ gap k' := by
  cases e with
  | acquireLock lk => exact (acquireLock_gap h).2.ge
  | releaseLock lk => exact (releaseLock_gap h).2.ge
  | myThread =>
    obtain ⟨r, hmy, h⟩ := bind_ok h
    cases h
    rw [(myThread_gap hmy).2.2]
    exact le_add_ite ..
  | wakeup usedThreads => exact (wakeup_gap h).2.ge
  | sleep lk killed => exact (sleep_gap h).2
  | callYield =>
    rw [callYield_gap h]
    exact le_add_ite ..
  | timeYield =>
    rw [callYield_gap (k := k) h]
    exact le_add_ite ..
  | threadDestroy =>
    rw [threadDestroy_gap h]
    exact Int.le.intro 1 rfl
  | threadRun th killed => exact threadRun_gap h
  | userTrapReturn =>
    rw [userTrapReturn_gap h]
    exact le_add_ite ..
  | userTrap => cases h; exact le_rfl
  | kernelTrap => cases h; exact le_rfl
  | kernelReturn m rest => cases h; exact le_rfl

end Calls

/-! ## Runs -/

/-- Before the first thread the counter may still agree with the locks. From then on it is ahead of them. -/
def Ahead (k : Kernel) : Prop :=
  (k.currentThread = none ∧ k.mode = .kernel ∧ (∀ m ∈ k.interrupted, m = .kernel) ∧ 0 ≤ gap k) ∨ 1 ≤ gap k

section Runs

variable {k k' : Kernel}

theorem Boot.ahead (h : Boot k) : Ahead k := by
  refine .inl ⟨h.currentThread, h.mode, ?_, ?_⟩
  · rw [h.interrupted]
    exact fun m hm => absurd hm List.not_mem_nil
  · unfold gap
    rw [h.layer, h.locked]
    exact le_rfl

/-- **Every step** keeps the counter ahead of the locks. -/
theorem Ahead.step (h : Ahead k) (hstep : Step k k') : Ahead k' := by
  obtain ⟨e, henabled, hok⟩ := hstep
  have hgrows := perform_gap hok
  rcases h with ⟨hnone, hmode, hall, hpos⟩ | hpos
  · have hsame (hkept : Same k k') : Ahead k' := by
      refine .inl ⟨hkept.currentThread.trans hnone, hkept.mode.trans hmode, ?_, hpos.trans hgrows⟩
      rw [hkept.interrupted]
      exact hall
    -- a call of `myThread` finds no thread
    have hraise (hgap : gap k' = gap k + if k.currentThread = none then 1 else 0) : Ahead k' := by
      rw [if_pos hnone] at hgap
      exact .inr (by omega)
    cases e with
    | acquireLock lk => exact hsame (acquireLock_gap hok).1
    | releaseLock lk => exact hsame (releaseLock_gap hok).1
    | wakeup usedThreads => exact hsame (wakeup_gap hok).1
    | myThread =>
      obtain ⟨r, hmy, hok⟩ := bind_ok hok
      cases hok
      exact hraise (myThread_gap hmy).2.2
    | sleep lk killed => exact absurd hnone (sleep_gap hok).1
    | callYield => exact hraise (callYield_gap hok)
    | timeYield => exact hraise (callYield_gap hok)
    | threadDestroy =>
      have hgap := threadDestroy_gap hok
      exact .inr (by omega)
    | userTrapReturn => exact hraise (userTrapReturn_gap hok)
    | threadRun th killed =>
      have hsched : k.mode = .scheduling := henabled
      rw [hmode] at hsched
      cases hsched
    | userTrap =>
      have huser : k.mode = .user := henabled
      rw [hmode] at huser
      cases huser
    | kernelTrap =>
      cases hok
      refine .inl ⟨hnone, rfl, ?_, hpos⟩
      show ∀ m ∈ k.mode :: k.interrupted, m = .kernel
      rw [hmode]
      exact fun m hm => (List.mem_cons.mp hm).elim id (hall m)
    | kernelReturn m rest =>
      cases hok
      have hlist : k.interrupted = m :: rest := henabled.2
      rw [hlist] at hall
      exact .inl ⟨hnone, hall m List.mem_cons_self, fun a ha => hall a (List.mem_cons_of_mem m ha), hpos⟩
  · exact .inr (hpos.trans hgrows)

theorem ahead_of_reach (h : Reach Boot Step k) : Ahead k := by
  have hinit : ∀ k, Boot k → Ahead k := fun _ hboot => hboot.ahead
  exact h.invariant hinit fun _ _ hahead hstep => hahead.step hstep

/-- **The nesting is not balanced**, in any run: while no thread is current every call of `myThread` leaves the
counter one higher, and once the scheduler or a thread has run, the counter exceeds the number of locks held, so
it is not 0 in user mode either. -/
theorem interruptLayer_ahead (h : Reach Boot Step k) :
    (k.currentThread = none → ∀ t k', myThread k = .ok (t, k') → k'.hart.interruptLayer = k.hart.interruptLayer + 1) ∧
    (k.currentThread ≠ none ∨ k.mode ≠ .kernel → (k.locked.card : Int) < k.hart.interruptLayer) ∧
    (k.mode = .user → 0 < k.hart.interruptLayer) := by
  have hlocks : k.currentThread ≠ none ∨ k.mode ≠ .kernel → (k.locked.card : Int) < k.hart.interruptLayer := fun hrun => by
    rcases ahead_of_reach h with ⟨hnone, hmode, -⟩ | hpos
    · exact absurd hrun (not_or.mpr ⟨not_not_intro hnone, not_not_intro hmode⟩)
    · unfold gap at hpos
      omega
  refine ⟨fun hnone t k' hmy => ?_, hlocks, fun huser => ?_⟩
  · rw [(myThread_ok hmy).2.2.2, if_pos hnone]
  · have hne : k.mode ≠ .kernel := by
      rw [huser]
      exact fun heq => by cases heq
    have hlt := hlocks (.inr hne)
    omega

/-- `main`, `callYield`, the first thread, its program. -/
def firstReturn : Kernel := { hart := ⟨1, false⟩, sie := true, currentThread := some 0, mode := .user }

theorem reach_firstReturn : Reach Boot Step firstReturn := by
  have hboot : Reach Boot Step {} := .init ⟨rfl, rfl, rfl, rfl, rfl⟩
  have hkernel : Enabled {} .callYield := fun hmode => by cases hmode
  have hyield := hboot.step ⟨.callYield, hkernel, rfl⟩
  have hrun := hyield.step ⟨.threadRun 0 false, rfl, rfl⟩
  exact hrun.step ⟨.userTrapReturn, rfl, rfl⟩

/-- The first thread, back from its first switch. -/
theorem interruptLayer_ahead_first : Reach Boot Step firstReturn ∧
    (firstReturn.locked.card : Int) < firstReturn.hart.interruptLayer ∧ 0 < firstReturn.hart.interruptLayer :=
  ⟨reach_firstReturn, (interruptLayer_ahead reach_firstReturn).2.1 (.inr fun hmode => by cases hmode),
    (interruptLayer_ahead reach_firstReturn).2.2 rfl⟩

/-- The first thread is in user mode, no lock is held, and the counter is 1. -/
theorem interruptLayer_user : ¬ ∀ k, Reach Boot Step k → k.mode = .user → k.hart.interruptLayer = 0 ∧
    k.hart.interruptLayer = k.locked.card := fun hall =>
  absurd (hall firstReturn reach_firstReturn rfl).1 one_ne_zero

end Runs

end Exaros.Trap
