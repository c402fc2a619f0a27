import Exaros.Memory.Accounting
import Exaros.Process.Params

/-!
# Making a process

`mainThreadAlloc` with the memory its blocks are given: the lists of `Machine` beside the pages of `Mem`. The
thread leaves `freeThreads` and gets the pages of its kernel stack before a process is looked for, and the
process leaves `freeProcesses` and gets its page directory before `setupProcess` asks for the page of the signal
handlers. No path back undoes any of it, so a failure leaves everything as it was only where nothing had been
taken yet.
-/

namespace Exaros.Creation

open Loop Run
open Sched (Machine ESRCH NO_FREE_PROCESS)

structure Kernel where
  machine : Machine
  mem : Mem
  /-- `pgdir` of each process -/
  pgdir : Nat → Ppn

inductive Stop
  | sched (h : Sched.Halt)
  | memory (p : Panic)

/-- `processAlloc` -/
def processAlloc (img : Image) (parentId : Nat) (k : Kernel) : Except Stop ((Int ⊕ Nat) × Kernel) :=
  match k.machine.freeProcesses with
  | [] => .ok (.inl (-NO_FREE_PROCESS), k)
  | p :: _ => do
    let (r, pgdir, mem) ← (setupProcess img p k.mem).mapError .memory
    let (new, machine) ← (Sched.processAlloc ⟨true, true, decide (0 ≤ r)⟩ parentId k.machine).mapError .sched
    return (new, { machine, mem, pgdir := Function.update k.pgdir p pgdir })

/-- `mainThreadAlloc` -/
def mainThreadAlloc (img : Image) (parentId : Nat) (k : Kernel) : Except Stop ((Int ⊕ Nat) × Kernel) :=
  match k.machine.freeThreads with
  | [] => .ok (.inl (-ESRCH), k)
  | t :: _ => do
    let mem ← (threadSetup img t k.mem).mapError .memory
    let (_, machine) ← (Sched.takeThread ⟨true, true, true⟩ (USER_STACK_TOP - 24) k.machine).mapError .sched
    let (r, k) ← processAlloc img parentId { k with machine, mem }
    match r with
    | .inl e => return (.inl e, k)
    | .inr p => return (.inr t, { k with machine := Sched.attach t p k.machine })

/-- A thread that has no process, or one that has been given back or never was set up. -/
def Orphan (m : Machine) (t : Nat) : Prop :=
  ∀ p, (m.threads t).process = some p → p ∉ m.usedProcesses ∨ (m.procs p).state = .unused

/-- Nothing is left of a call: neither in the lists nor of its pages. -/
structure Undone (k k' : Kernel) : Prop where
  freeThreads : k'.machine.freeThreads = k.machine.freeThreads
  usedThreads : k'.machine.usedThreads = k.machine.usedThreads
  freeProcesses : k'.machine.freeProcesses = k.machine.freeProcesses
  usedProcesses : k'.machine.usedProcesses = k.machine.usedProcesses
  orphans : ∀ t ∈ k'.machine.usedThreads, Orphan k'.machine t → t ∈ k.machine.usedThreads ∧ Orphan k.machine t
  pages : k'.mem.freePageList.Perm k.mem.freePageList

theorem Undone.refl (k : Kernel) : Undone k k := ⟨rfl, rfl, rfl, rfl, fun _ ht ho => ⟨ht, ho⟩, .refl _⟩

/-! ## The calls taken apart -/

section Calls

variable {img : Image} {parentId : Nat} {k k' : Kernel} {r : Int ⊕ Nat}

/-- **`processAlloc`** finds no free process, or takes the first one. -/
theorem processAlloc_ok (h : processAlloc img parentId k = .ok (r, k')) :
    (k.machine.freeProcesses = [] ∧ r = .inl (-NO_FREE_PROCESS) ∧ k' = k) ∨
    ∃ p rest e pgdir mem, k.machine.freeProcesses = p :: rest ∧ setupProcess img p k.mem = .ok (e, pgdir, mem) ∧
      Sched.processAlloc ⟨true, true, decide (0 ≤ e)⟩ parentId k.machine = .ok (r, k'.machine) ∧ k'.mem = mem := by
  unfold processAlloc at h
  split at h
  · rename_i hfree
    cases h
    exact .inl ⟨hfree, rfl, rfl⟩
  · rename_i p rest hfree
    obtain ⟨⟨e, pgdir, mem⟩, hsetup, h⟩ := bind_ok h
    obtain ⟨⟨new, machine⟩, halloc, h⟩ := bind_ok h
    cases h
    exact .inr ⟨p, rest, e, pgdir, mem, hfree, mapError_ok hsetup, mapError_ok halloc, rfl⟩

/-- **`mainThreadAlloc`** finds no free thread, or takes the first one. -/
theorem mainThreadAlloc_ok (h : mainThreadAlloc img parentId k = .ok (r, k')) :
    (k.machine.freeThreads = [] ∧ r = .inl (-ESRCH) ∧ k' = k) ∨
    ∃ t rest mem machine res k₁, k.machine.freeThreads = t :: rest ∧ threadSetup img t k.mem = .ok mem ∧
      Sched.takeThread ⟨true, true, true⟩ (USER_STACK_TOP - 24) k.machine = .ok (some t, machine) ∧
      processAlloc img parentId { k with machine := machine, mem := mem } = .ok (res, k₁) ∧
      ((∃ e, res = .inl e ∧ r = .inl e ∧ k' = k₁) ∨
        ∃ p, res = .inr p ∧ r = .inr t ∧ k' = { k₁ with machine := Sched.attach t p k₁.machine }) := by
  unfold mainThreadAlloc at h
  split at h
  · rename_i hfree
    cases h
    exact .inl ⟨hfree, rfl, rfl⟩
  · rename_i t rest hfree
    obtain ⟨mem, hsetup, h⟩ := bind_ok h
    obtain ⟨⟨new, machine⟩, htake, h⟩ := bind_ok h
    obtain ⟨⟨res, k₁⟩, halloc, h⟩ := bind_ok h
    have htake := mapError_ok htake
    have hnew : new = some t := by
      unfold Sched.takeThread at htake
      rw [hfree] at htake
      obtain ⟨m₁, -, htake⟩ := bind_ok htake
      cases htake
      rfl
    rw [hnew] at htake
    refine .inr ⟨t, rest, mem, machine, res, k₁, hfree, mapError_ok hsetup, htake, halloc, ?_⟩
    cases res with
    | inl e =>
      cases h
      exact .inl ⟨e, rfl, rfl, rfl⟩
    | inr p =>
      cases h
      exact .inr ⟨p, rfl, rfl, rfl⟩

/-- `processAlloc` leaves the list of threads alone. -/
theorem usedThreads_processAlloc (h : processAlloc img parentId k = .ok (r, k')) :
    k'.machine.usedThreads = k.machine.usedThreads := by
  rcases processAlloc_ok h with ⟨-, -, rfl⟩ | ⟨p, rest, e, pgdir, mem, hfree, -, halloc, -⟩
  · rfl
  · generalize k'.machine = machine at halloc ⊢
    unfold Sched.processAlloc at halloc
    rw [hfree] at halloc
    dsimp only at halloc
    split at halloc
    · cases halloc
    · split at halloc
      · cases halloc
        rfl
      · cases halloc
        rfl

/-- **What a failure leaves behind** once a free thread has been found: the thread is in use. -/
theorem failure_keeps_thread {e : Int} {t : Nat} {rest : List Nat} (hfree : k.machine.freeThreads = t :: rest)
    (h : mainThreadAlloc img parentId k = .ok (.inl e, k')) : k'.machine.usedThreads = t :: k.machine.usedThreads := by
  rcases mainThreadAlloc_ok h with ⟨hnone, -⟩ | ⟨u, rest', mem, machine, res, k₁, hfree', -, htake, halloc, hend⟩
  · rw [hfree] at hnone
    cases hnone
  · rw [hfree] at hfree'
    cases hfree'
    have hused : machine.usedThreads = t :: k.machine.usedThreads := by
      unfold Sched.takeThread at htake
      rw [hfree] at htake
      cases htake
      rfl
    rcases hend with ⟨e', -, -, rfl⟩ | ⟨p, -, hr, -⟩
    · exact (usedThreads_processAlloc halloc).trans hused
    · cases hr

/-- **A failed creation is undone** exactly when there was no free thread to begin with. -/
theorem undone_iff {e : Int} (h : mainThreadAlloc img parentId k = .ok (.inl e, k')) :
    Undone k k' ↔ k.machine.freeThreads = [] := by
  constructor
  · intro hundone
    cases hfree : k.machine.freeThreads with
    | nil => rfl
    | cons t rest =>
      have hused := hundone.usedThreads
      rw [failure_keeps_thread hfree h] at hused
      exact absurd hused (List.cons_ne_self t _)
  · intro hnone
    rcases mainThreadAlloc_ok h with ⟨-, -, rfl⟩ | ⟨t, rest, mem, machine, res, k₁, hfree, -⟩
    · exact .refl k'
    · rw [hnone] at hfree
      cases hfree

end Calls

/-- Without a free thread nothing is created. -/
theorem undone_no_thread : ∃ k k' : Kernel, k.machine.freeThreads = [] ∧
    mainThreadAlloc Image.sample 2048 k = .ok (.inl (-ESRCH), k') ∧ Undone k k' := by
  let k : Kernel := ⟨{ Sched.boot with freeThreads := [] }, bootMem, fun _ => 0⟩
  have h : mainThreadAlloc Image.sample 2048 k = .ok (.inl (-ESRCH), k) := rfl
  exact ⟨k, k, rfl, h, (undone_iff h).mpr rfl⟩

/-! ## Out of pages -/

/-- A page goes to somebody else, or a process is asked for. -/
inductive Step (img : Image) : Kernel → Kernel → Prop
  | page {k : Kernel} {p : Ppn} {mem : Mem} : pageAlloc k.mem = some (p, mem) → Step img k { k with mem := mem }
  | create {k k' : Kernel} {parentId : Nat} {r : Int ⊕ Nat} : mainThreadAlloc img parentId k = .ok (r, k') → Step img k k'

/-- The kernel just booted. -/
def boot : Kernel := ⟨Sched.boot, bootMem, fun _ => 0⟩

def Reached (k : Kernel) : Prop := Reach (· = boot) (Step Image.sample) k

/-- The kernel just booted, with these pages left. -/
def left (pages : List Ppn) : Kernel := { boot with mem := { bootMem with freePageList := pages } }

/-- Pages are taken from the front. -/
theorem reached_left (taken pages : List Ppn) (h : Reached (left (taken ++ pages))) : Reached (left pages) := by
  induction taken with
  | nil => exact h
  | cons p taken ih =>
    refine ih (h.step (.page (p := p) ?_))
    show some (p, ({ bootMem with freePageList := taken ++ pages } : Mem).setPage p fun _ => 0) = _
    congr 2
    unfold Mem.setPage
    congr 1
    funext q
    by_cases hq : q = p
    · rw [if_pos hq]
      rfl
    · rw [if_neg hq]

theorem pagesDown_split (k n d : Nat) (hk : k ≤ n) : ∃ taken, pagesDown k (n + d) = taken ++ pagesDown k n := by
  induction d with
  | zero => exact ⟨[], rfl⟩
  | succ d ih =>
    obtain ⟨taken, htaken⟩ := ih
    refine ⟨(n + d) :: taken, ?_⟩
    rw [← Nat.add_assoc, pagesDown_succ (Nat.le_add_right_of_le hk), htaken]
    rfl

/-- With fifteen pages left: a process is made, and its fork finds a page directory but no page more. -/
def shortRun : Except Stop (Kernel × (Int ⊕ Nat) × Kernel) := do
  let (_, k) ← mainThreadAlloc Image.sample 0 (left (pagesDown 0x80008 0x80017))
  let (r, k') ← mainThreadAlloc Image.sample 2048 k
  return (k, r, k')

/-- The fork fails; its thread is in use and `RUNNABLE` with no process, its process in use as well, and the four
pages that were left are gone. -/
def shortRunLeaks : Bool :=
  (shortRun.toOption.map fun r => decide (r.2.1 = .inl (-1) ∧ r.1.machine.usedThreads = [0] ∧ r.1.machine.usedProcesses = [0] ∧
    r.2.2.machine.usedThreads = [1, 0] ∧ r.2.2.machine.usedProcesses = [1, 0] ∧ (r.2.2.machine.threads 1).state = .runnable ∧
    (r.2.2.machine.threads 1).process = none ∧ r.1.mem.freePageList.length = 4 ∧ r.2.2.mem.freePageList = [])).getD false

theorem shortRun_leaks : shortRunLeaks = true := by decide +kernel

/-- A failed fork is not undone. -/
theorem failed_fork_not_undone : ∃ k, Reached k ∧ ∃ e k', mainThreadAlloc Image.sample 2048 k = .ok (.inl e, k') ∧
    k.machine.usedThreads = [0] ∧ k'.machine.usedThreads = [1, 0] ∧ Orphan k'.machine 1 ∧
    k.mem.freePageList.length = 4 ∧ k'.mem.freePageList = [] ∧ ¬ Undone k k' := by
  obtain ⟨taken, htaken⟩ := pagesDown_split 0x80008 0x80017 (END_PPN - 0x80017) (by decide)
  have hboot : Reached (left (taken ++ pagesDown 0x80008 0x80017)) := by
    rw [← htaken]
    exact .init rfl
  have hleft := reached_left taken _ hboot
  have hleaks := shortRun_leaks
  unfold shortRunLeaks at hleaks
  cases hrun : shortRun with
  | error e =>
    rw [hrun] at hleaks
    cases hleaks
  | ok r =>
    rw [hrun] at hleaks
    obtain ⟨hr, hused, -, hused', -, -, hprocess, hpages, hpages'⟩ := of_decide_eq_true hleaks
    obtain ⟨⟨r₁, k⟩, hfirst, hrun⟩ := bind_ok hrun
    obtain ⟨⟨r₂, k'⟩, hsecond, hrun⟩ := bind_ok hrun
    cases hrun
    refine ⟨k, hleft.step (.create hfirst), -1, k', ?_, hused, hused', fun p hp => ?_, hpages, hpages', fun hundone => ?_⟩
    · rw [hsecond, show r₂ = .inl (-1) from hr]
    · rw [show (k'.machine.threads 1).process = none from hprocess] at hp
      cases hp
    · have hlists := hundone.usedThreads
      rw [show k'.machine.usedThreads = [1, 0] from hused', show k.machine.usedThreads = [0] from hused] at hlists
      cases hlists

end Exaros.Creation
