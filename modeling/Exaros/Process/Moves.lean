import Exaros.Process.Futex

/-!
# Calls as runs of moves

Closing a file, giving up or copying a descriptor, and waking sleepers come down to three moves. The end of a thread
is a run of them around what happens to its process. What a move keeps, and what composes, each of these calls
keeps. The laws are about calls that return; where a call stops, they say nothing.
-/

namespace Exaros.Sched

open Loop Relation
open Function (update update_self update_idem)

/-- A file, the descriptors of a process, or a sleeper that is made ready. -/
inductive Move (m : Machine) : Machine → Prop
  | file (f : Nat) (file : Files.File) : Move m (m.setFile f file)
  | slots (p : Nat) (ofile : Nat → Option Nat) : Move m (m.setProc p { m.procs p with ofile := ofile })
  | ready {t : Nat} {m' : Machine} (hsleep : (m.threads t).state = .sleeping) (hok : enqueue t m = .ok m') : Move m m'

abbrev Moves := ReflTransGen Move

section Moves

variable {m m₁ m' : Machine} {t p : Nat}

theorem moves_wakeup {channel : Chan} (hok : wakeup channel m = .ok m') : Moves m m' := by
  refine foldlM_inv (Q := Moves m) hok .refl fun m₁ u m₂ h₁ hturn => ?_
  unfold wakeOne at hturn
  split at hturn
  · rename_i hsleep
    exact h₁.tail (.ready hsleep.1 hturn)
  · cases hturn
    exact h₁

theorem moves_fileclose {f : Nat} (hok : fileclose f m = .ok m') : Moves m m' := by
  unfold fileclose at hok
  dsimp only at hok
  split at hok
  · cases hok
  · split at hok
    · cases hok
      exact .single (.file f _)
    · split at hok
      · exact .head (.file f _) (moves_wakeup hok)
      · cases hok
        exact .single (.file f _)

theorem moves_freeSlot {fd : Nat} (hok : freeSlot p m fd = .ok m') : Moves m m' := by
  unfold freeSlot at hok
  split at hok
  · cases hok
    exact .refl
  · obtain ⟨m₁, h₁, rfl⟩ := map_ok hok
    exact (moves_fileclose h₁).tail (.slots p _)

theorem moves_wakeParent (hok : wakeParent p m = .ok m') : Moves m m' := by
  unfold wakeParent at hok
  split at hok
  · split at hok
    · exact moves_wakeup hok
    · cases hok
      exact .refl
  · cases hok
    exact .refl

/-- A process that ends becomes a zombie first. -/
theorem moves_processFree (hok : processFree p m = .ok m') : Moves (m.setProc p { m.procs p with state := .zombie }) m' := by
  generalize List.range Files.NOFILE = slots at hok
  obtain ⟨m₁, h₁, hok⟩ := bind_ok hok
  have hslots := foldlM_inv (Q := Moves (m.setProc p { m.procs p with state := .zombie })) h₁ .refl
    fun m₂ fd m₃ h₂ hs => h₂.trans (moves_freeSlot hs)
  exact hslots.trans (moves_wakeParent hok)

theorem setProc_setProc (m : Machine) (p : Nat) (a b : Proc) : (m.setProc p a).setProc p b = m.setProc p b := by
  unfold Machine.setProc
  rw [update_idem]

/-- What is left of a process when the thread `t` has gone. -/
def Machine.dropped (m : Machine) (p t : Nat) : Proc :=
  let proc := { m.procs p with threadCount := (m.procs p).threadCount - 1 }
  if proc.threadCount = 0 then { proc with retValue := (m.threads t).retValue, state := .zombie } else proc

theorem moves_dropThread (hok : dropThread p t m = .ok m') : Moves (m.setProc p (m.dropped p t)) m' := by
  unfold dropThread at hok
  dsimp only at hok
  have hself : ∀ proc, (m.setProc p proc).procs p = proc := fun proc => update_self ..
  unfold Machine.dropped
  split at hok
  · rename_i hzero
    rw [hself] at hzero
    have hdone := moves_processFree hok
    simp only [setProc_setProc, hself] at hdone
    rw [if_pos hzero]
    exact hdone
  · rename_i hzero
    rw [hself] at hzero
    cases hok
    rw [if_neg hzero]

theorem remove_ok (hok : remove t m = .ok m') : m' = m.unlink t := by
  unfold remove at hok
  split at hok
  · cases hok
    rfl
  · cases hok

/-- **The end of a thread**: the wake of its futex, what happens to its process, and the moves in between. -/
theorem threadFree_ok (hok : threadFree t m = .ok m') : ∃ p m₀ m₁, (m.threads t).process = some p ∧
    (if (m.threads t).clearChildTid ≠ 0 then futexWake (m.threads t).clearChildTid 1 m else .ok m) = .ok m₀ ∧
    Moves (m₀.setProc p (m₀.dropped p t)) m₁ ∧
    m' = retire t (if (m₁.threads t).state = .runnable then m₁.unlink t else m₁) := by
  unfold threadFree at hok
  cases hp : (m.threads t).process with
  | none =>
    rw [hp] at hok
    cases hok
  | some p =>
    rw [hp] at hok
    obtain ⟨m₀, h₀, hok⟩ := bind_ok hok
    obtain ⟨m₁, h₁, hok⟩ := bind_ok hok
    obtain ⟨m₂, h₂, hok⟩ := bind_ok hok
    cases hok
    refine ⟨p, m₀, m₁, rfl, h₀, moves_dropThread h₁, ?_⟩
    split at h₂
    · rename_i hready
      rw [if_pos hready, remove_ok h₂]
    · rename_i hready
      cases h₂
      rw [if_neg hready]

/-- Nobody waits on a futex. -/
theorem futexWake_idle (hfutex : ∀ i, (m.futexQueue i).valid = false) (addr : Nat) (n : Int) (hok : futexWake addr n m = .ok m') :
    m' = m := by
  obtain ⟨s, hs, rfl⟩ := map_ok hok
  refine foldlM_inv (Q := fun s : Int × Machine => s.2 = m) hs rfl fun s₁ i s₂ heq hturn => ?_
  obtain ⟨n₁, m₁⟩ := s₁
  cases (show m₁ = m from heq)
  rcases futexWakeOne_ok hturn with ⟨-, hw, -, -⟩ | ⟨-, -, hsame⟩
  · rw [waitsAt_iff, hfutex] at hw
    cases hw.1
  · exact hsame

/-- Nor is anybody woken by the end of a thread then. -/
theorem threadFree_idle (hfutex : ∀ i, (m.futexQueue i).valid = false) (hok : threadFree t m = .ok m') :
    ∃ p m₁, (m.threads t).process = some p ∧ Moves (m.setProc p (m.dropped p t)) m₁ ∧
      m' = retire t (if (m₁.threads t).state = .runnable then m₁.unlink t else m₁) := by
  obtain ⟨p, m₀, m₁, hp, h₀, hmoves, rfl⟩ := threadFree_ok hok
  have hm₀ : m₀ = m := by
    split at h₀
    · exact futexWake_idle hfutex _ _ h₀
    · cases h₀
      rfl
  rw [hm₀] at hmoves
  exact ⟨p, m₁, hp, hmoves, rfl⟩

theorem moves_forkSlot {c i : Nat} (hok : forkSlot p c m i = .ok m') : Moves m m' := by
  unfold forkSlot at hok
  split at hok
  · cases hok
    exact .refl
  · obtain ⟨m₁, h₁, rfl⟩ := map_ok hok
    unfold filedup at h₁
    split at h₁
    · cases h₁
    · cases h₁
      exact .head (.file _ _) (.single (.slots c _))

/-- A new process takes the first free slot, also where no page is left for its actions. -/
theorem processAlloc_taken {pages : Pages} {parentId : Nat} {r : Int ⊕ Nat} (hok : processAlloc pages parentId m = .ok (r, m')) :
    ((∃ e, r = .inl e) ∧ m' = m) ∨ ∃ p rest, m.freeProcesses = p :: rest ∧ (∀ c, r = .inr c → c = p) ∧
      m' = { m with procs := m'.procs, freeProcesses := rest, usedProcesses := p :: m.usedProcesses,
                    nextProcessId := m'.nextProcessId } := by
  unfold processAlloc at hok
  split at hok
  · cases hok
    exact .inl ⟨⟨_, rfl⟩, rfl⟩
  · rename_i p rest hfree
    split at hok
    · cases hok
    · split at hok
      · cases hok
        exact .inr ⟨p, rest, hfree, fun c hc => (by cases hc), rfl⟩
      · cases hok
        exact .inr ⟨p, rest, hfree, fun c hc => (by cases hc; rfl), rfl⟩

end Moves

end Exaros.Sched
