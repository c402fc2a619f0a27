import Exaros.Process.Ids
import Exaros.Signal.Pool

/-!
# The slots of threads

What the calls of the signal machine do to the table of threads: the first free slot is taken and gets an id, a
slot is given back, or the slots and the ids in them stay. Whatever a wrapped count makes of the rest of an id,
its last bits are the slot.
-/

namespace Exaros.Sched

open Loop
open Files (PROCESS_TOTAL_NUMBER)

/-- The same slots are taken, by the same ids. -/
structure Steady (m m' : Machine) : Prop where
  used : m'.usedThreads = m.usedThreads
  free : m'.freeThreads = m.freeThreads
  id : ∀ t, (m'.threads t).threadId = (m.threads t).threadId

section Steady

variable {m m₁ m' : Machine} {t p : Nat} {th : Thread}

theorem Steady.refl (m : Machine) : Steady m m := ⟨rfl, rfl, fun _ => rfl⟩

theorem Steady.trans (h : Steady m m₁) (h' : Steady m₁ m') : Steady m m' where
  used := h'.used.trans h.used
  free := h'.free.trans h.free
  id := fun t => (h'.id t).trans (h.id t)

theorem steady_setThread (hid : th.threadId = (m.threads t).threadId) : Steady m (m.setThread t th) := by
  refine ⟨rfl, rfl, fun u => ?_⟩
  by_cases hu : u = t
  · rw [hu, setThread_self, hid]
  · rw [setThread_of_ne m th hu]

/-- A change of processes, files, run queues and futexes. -/
theorem steady_of_threads (hthreads : m'.threads = m.threads) (hused : m'.usedThreads = m.usedThreads)
    (hfree : m'.freeThreads = m.freeThreads) : Steady m m' :=
  ⟨hused, hfree, fun t => by rw [hthreads]⟩

theorem steady_setProc (proc : Proc) : Steady m (m.setProc p proc) := steady_of_threads rfl rfl rfl

theorem steady_insertWith {f : List Nat → List Nat} (hok : insertWith f t m = .ok m') : Steady m m' := by
  obtain ⟨pri, -, -, -, rfl⟩ := insertWith_ok hok
  exact steady_of_threads rfl rfl rfl

theorem steady_enqueue (hok : enqueue t m = .ok m') : Steady m m' := by
  unfold enqueue insertTail at hok
  have hset : Steady m (m.setState t .runnable) := steady_setThread rfl
  exact hset.trans (steady_insertWith hok)

theorem Moves.steady (hmoves : Moves m m') : Steady m m' := by
  induction hmoves with
  | refl => exact Steady.refl m
  | tail _ hmove ih =>
    refine ih.trans ?_
    cases hmove with
    | file => exact steady_of_threads rfl rfl rfl
    | slots => exact steady_setProc _
    | ready _ hok => exact steady_enqueue hok

theorem steady_futexWake {addr : Nat} {n : Int} (hok : futexWake addr n m = .ok m') : Steady m m' := by
  have htook := took_futexWake hok
  refine ⟨?_, ?_, fun t => ?_⟩
  · rw [htook.rest]
  · rw [htook.rest]
  · rw [htook.thread]
    split
    · rfl
    · rfl

/-- The end of a thread: whatever comes before it, its slot is given back. -/
theorem threadFree_steady (hok : threadFree t m = .ok m') : ∃ m₁, Steady m m₁ ∧ m' = retire t m₁ := by
  obtain ⟨p, m₀, m₁, -, h₀, hmoves, rfl⟩ := threadFree_ok hok
  have hwake : Steady m m₀ := by
    split at h₀
    · exact steady_futexWake h₀
    · cases h₀
      exact Steady.refl m
  refine ⟨_, ((hwake.trans (steady_setProc _)).trans hmoves.steady).trans ?_, rfl⟩
  split
  · exact steady_of_threads rfl rfl rfl
  · exact Steady.refl m₁

theorem steady_sigkill (hok : sigkill t m = .ok m') : Steady m m' := by
  obtain ⟨m₁, h₁, hok⟩ := bind_ok hok
  cases hok
  have hqueue : Steady m m₁ := by
    split at h₁
    · exact steady_enqueue h₁
    · cases h₁
      exact Steady.refl m
  exact hqueue.trans (steady_setThread rfl)

theorem steady_start {policy priority : Int} (hok : start t policy priority m = .ok m') : Steady m m' := by
  unfold start insertTail at hok
  apply Steady.trans (steady_setThread _) (steady_insertWith hok)
  rfl

theorem steady_attach (t p : Nat) (m : Machine) : Steady m (attach t p m) := by
  have hset : Steady m (m.setThread t { m.threads t with process := some p }) := steady_setThread rfl
  exact hset.trans (steady_setProc _)

theorem steady_processAlloc {pages : Pages} {parentId : Nat} {r : Int ⊕ Nat} (hok : processAlloc pages parentId m = .ok (r, m')) :
    Steady m m' := by
  rcases processAlloc_taken hok with ⟨-, rfl⟩ | ⟨p, rest, -, -, hm'⟩
  · exact Steady.refl m'
  · exact steady_of_threads (by rw [hm']) (by rw [hm']) (by rw [hm'])

theorem steady_threadRun (t : Nat) (m : Machine) : Steady m (threadRun t m) := by
  obtain ⟨m₁, hsave, hrun⟩ : ∃ m₁, Steady m m₁ ∧ threadRun t m = { m₁.setThread t
      { m₁.threads t with state := .running, reason := false } with
      currentThread := some t, hart := ((m₁.setThread t
        { m₁.threads t with state := .running, reason := false }).threads t).trapframe } := by
    unfold threadRun
    cases m.currentThread with
    | none => exact ⟨m, Steady.refl m, rfl⟩
    | some c => exact ⟨m.setThread c { m.threads c with trapframe := m.hart }, steady_setThread rfl, rfl⟩
  rw [hrun]
  have hset : Steady m₁ (m₁.setThread t { m₁.threads t with state := .running, reason := false }) := steady_setThread rfl
  exact hsave.trans ⟨hset.used, hset.free, hset.id⟩

end Steady

/-- The last bits of an id are its slot, however far the count has gone. -/
theorem processOffset_makeId (next : Nat) {slot : Nat} (hslot : slot < PROCESS_TOTAL_NUMBER) :
    processOffset (makeId next slot) = slot := by
  unfold processOffset makeId LOG_PROCESS_NUM
  have hcut : next <<< (1 + 10) % 2 ^ 32 = 2 ^ 11 * (next % 2 ^ 21) := by
    rw [Nat.shiftLeft_eq]
    omega
  have hlt : slot < 2 ^ 11 := Nat.lt_trans hslot (by decide)
  rw [hcut, ← Nat.two_pow_add_eq_or_of_lt hlt]
  have htotal : PROCESS_TOTAL_NUMBER = 1024 := rfl
  rw [htotal] at hslot ⊢
  omega

theorem makeId_lt (next : Nat) {slot : Nat} (hslot : slot < PROCESS_TOTAL_NUMBER) : makeId next slot < 2 ^ 32 := by
  apply Nat.or_lt_two_pow
  · exact Nat.mod_lt _ (by decide)
  · exact Nat.lt_trans hslot (by decide)

end Exaros.Sched

namespace Exaros.Signal

open Loop Run Lists
open Sched (Pages Steady makeId)

/-- The calls that make a thread. -/
def Op.makes : Op → Bool
  | .create _ _ => true
  | .fork _ => true
  | .threadFork _ _ _ _ => true
  | _ => false

/-- What a call does to the slots. -/
inductive Moves (op : Op) (s s' : Sched.Machine) : Prop
  | steady (h : Steady s s')
  | taken {t : Nat} {rest : List Nat} (hop : op.makes = true) (hfree : s.freeThreads = t :: rest)
      (hused : s'.usedThreads = t :: s.usedThreads) (hrest : s'.freeThreads = rest)
      (hid : (s'.threads t).threadId = makeId ((s.nextThreadId + 1) % 2 ^ 32) t)
      (hother : ∀ u, u ≠ t → (s'.threads u).threadId = (s.threads u).threadId)
  | freed {t : Nat} (hop : op = .destroy t) (hused : s'.usedThreads = s.usedThreads.erase t)
      (hfree : s'.freeThreads = t :: s.freeThreads.erase t) (hid : ∀ u, (s'.threads u).threadId = (s.threads u).threadId)

section Moves

variable {m m₁ m' : Machine} {s s₁ s' : Sched.Machine} {op : Op} {t p : Nat} {sig ret : Int} {pages : Pages}

theorem Moves.andThen (h : Moves op s s₁) (h' : Steady s₁ s') : Moves op s s' := by
  cases h with
  | steady h => exact .steady (h.trans h')
  | taken hop hfree hused hrest hid hother =>
    exact .taken hop hfree (h'.used.trans hused) (h'.free.trans hrest) ((h'.id _).trans hid)
      fun u hu => (h'.id u).trans (hother u hu)
  | freed hop hused hfree hid =>
    exact .freed hop (h'.used.trans hused) (h'.free.trans hfree) fun u => (h'.id u).trans (hid u)

theorem moves_takeThread (hop : op.makes = true) {sp : Nat} {new : Option Nat}
    (hok : takeThread pages sp m = .ok (new, m')) : Moves op m.sched m'.sched := by
  obtain ⟨s, hs, rfl⟩ := takeThread_ok hok
  rcases Sched.takeThread_cases hs with ⟨rfl, rfl⟩ | ⟨t, rest, th, hfree, rfl, hid, -, -, hthreads, hrest⟩
  · exact .steady (Steady.refl _)
  · show Moves op m.sched s
    refine .taken hop hfree ?_ ?_ ?_ fun u hu => ?_
    · rw [hrest]
    · rw [hrest]
    · rw [hthreads, Function.update_self]
      exact hid
    · rw [hthreads, Function.update_of_ne hu]

theorem moves_mainThreadAlloc (hop : op.makes = true) {parentId : Nat} {r : Int ⊕ (Nat × Nat)}
    (hok : mainThreadAlloc pages parentId m = .ok (r, m')) : Moves op m.sched m'.sched := by
  obtain ⟨⟨new, m₁⟩, h₁, hok⟩ := bind_ok hok
  have htake := moves_takeThread hop h₁
  cases new with
  | none =>
    cases hok
    exact htake
  | some t =>
    obtain ⟨⟨r', m₂⟩, h₂, hok⟩ := bind_ok hok
    obtain ⟨s, hs, rfl⟩ := processAlloc_ok h₂
    have halloc := htake.andThen (Sched.steady_processAlloc hs)
    cases r' with
    | inl e =>
      cases hok
      exact halloc
    | inr p =>
      cases hok
      exact halloc.andThen (Sched.steady_attach t p s)

theorem moves_processCreatePriority (hop : op.makes = true) {frame : Sched.Trapframe} {new : Option Nat}
    (hok : processCreatePriority pages frame m = .ok (new, m')) : Moves op m.sched m'.sched := by
  obtain ⟨⟨r, m₁⟩, h₁, hok⟩ := bind_ok hok
  have hmain := moves_mainThreadAlloc hop h₁
  cases r with
  | inl e =>
    cases hok
    exact hmain
  | inr tp =>
    obtain ⟨t, c⟩ := tp
    obtain ⟨s, hs, hok⟩ := bind_ok hok
    cases hok
    have hset : Steady m₁.sched (m₁.sched.setThread t { m₁.sched.threads t with trapframe := frame }) := Sched.steady_setThread rfl
    exact hmain.andThen (hset.trans (Sched.steady_start (onSched_ok hs)))

/-- A fork makes one thread more. -/
theorem moves_processFork (hop : op.makes = true) {r : Int × Option Nat}
    (hok : processFork pages m = .ok (r, m')) : Moves op m.sched m'.sched := by
  obtain ⟨⟨mth, myprocess⟩, -, hok⟩ := bind_ok hok
  obtain ⟨⟨r', m₁⟩, h₁, hok⟩ := bind_ok hok
  have hmain := moves_mainThreadAlloc hop h₁
  cases r' with
  | inl e =>
    cases hok
    exact hmain
  | inr tp =>
    obtain ⟨t, c⟩ := tp
    obtain ⟨s, hslots, hok⟩ := bind_ok hok
    obtain ⟨m₂, h₂, hok⟩ := bind_ok hok
    obtain ⟨-, rfl⟩ := copyActions_ok h₂
    obtain ⟨s', hstart, hok⟩ := bind_ok hok
    cases hok
    have hfork : Steady m₁.sched s :=
      foldlM_inv (onSched_ok hslots) (Steady.refl _) fun s₁ i s₂ h₁ h₂ => h₁.trans (Sched.moves_forkSlot h₂).steady
    have hqueued := Sched.steady_start (onSched_ok hstart)
    refine hmain.andThen (hfork.trans (Steady.trans ?_ hqueued))
    exact Sched.steady_setThread rfl

theorem moves_threadFork (hop : op.makes = true) {stackVa tls ctid : Nat}
    (hok : threadFork pages stackVa tls ctid m = .ok (ret, m')) : Moves op m.sched m'.sched := by
  obtain ⟨⟨mth, current⟩, -, hok⟩ := bind_ok hok
  obtain ⟨⟨new, m₁⟩, h₁, hok⟩ := bind_ok hok
  have htake := moves_takeThread hop h₁
  cases new with
  | none =>
    cases hok
    exact htake
  | some t =>
    obtain ⟨s, hs, hok⟩ := bind_ok hok
    cases hok
    have hqueued := Sched.steady_start (onSched_ok hs)
    refine htake.andThen ((Sched.steady_attach t current m₁.sched).trans (Steady.trans ?_ hqueued))
    exact Sched.steady_setThread rfl

theorem moves_threadDestroy (hl : Apart m.list) (hok : threadDestroy t m = .ok m') : Moves (.destroy t) m.sched m'.sched := by
  obtain ⟨l, s, -, -, -, hfree, -, -, hsched⟩ := threadDestroy_ok hl hok
  obtain ⟨s₁, hsteady, rfl⟩ := Sched.threadFree_steady hfree
  have hid : ∀ u, ((Sched.retire t s₁).threads u).threadId = (m.sched.threads u).threadId := fun u => by
    have hset : Steady s₁ (s₁.setState t .unused) := Sched.steady_setThread rfl
    exact (hset.id u).trans (hsteady.id u)
  have hused : (Sched.retire t s₁).usedThreads = m.sched.usedThreads.erase t := by
    rw [← hsteady.used]
    rfl
  have hfree' : (Sched.retire t s₁).freeThreads = t :: m.sched.freeThreads.erase t := by
    rw [← hsteady.free]
    rfl
  rw [hsched]
  split
  · exact .freed rfl hused hfree' hid
  · exact .freed rfl hused hfree' hid

theorem steady_threadSignalSend (hok : threadSignalSend t sig m = .ok (ret, m')) : Steady m.sched m'.sched := by
  obtain ⟨-, sc, rest, s, -, rfl, hs⟩ := threadSignalSend_ok hok
  split at hs
  · exact Sched.steady_sigkill hs
  · rw [hs]
    exact Steady.refl _

theorem steady_tkill {tid : Int} (hok : tkill tid sig m = .ok (ret, m')) : Steady m.sched m'.sched := by
  rcases tkill_ok hok with ⟨rfl, -⟩ | ⟨t, -, hsend⟩
  · exact Steady.refl _
  · exact steady_threadSignalSend hsend

/-- **What every call does to the slots.** -/
theorem moves_perform (hl : Apart m.list) (hok : perform op m = .ok m') : Moves op m.sched m'.sched := by
  cases op with
  | create pages frame =>
    obtain ⟨r, hr, rfl⟩ := map_ok hok
    exact moves_processCreatePriority rfl hr
  | fork pages =>
    obtain ⟨r, hr, rfl⟩ := map_ok hok
    exact moves_processFork rfl hr
  | threadFork pages stackVa tls ctid =>
    obtain ⟨r, hr, rfl⟩ := map_ok hok
    exact moves_threadFork rfl hr
  | exec frame =>
    obtain ⟨r, hr, rfl⟩ := map_ok hok
    obtain ⟨⟨t, p⟩, -, hr⟩ := bind_ok hr
    cases frame with
    | none =>
      cases hr
      exact .steady (Steady.refl _)
    | some tf =>
      cases hr
      have hset : Steady m.sched (m.sched.setThread t { m.sched.threads t with clearChildTid := 0 }) := Sched.steady_setThread rfl
      exact .steady ⟨hset.used, hset.free, hset.id⟩
  | destroy t => exact moves_threadDestroy hl hok
  | turn =>
    obtain ⟨⟨t, p⟩, -, hok⟩ := bind_ok hok
    obtain ⟨⟨r, m₁⟩, hr, rfl⟩ := map_ok hok
    cases handleTurn_ok hr with
    | idle => exact .steady (Steady.refl _)
    | destroyed => exact .steady (Steady.refl _)
    | consumed => exact .steady (Steady.refl _)
    | entered => exact .steady (Sched.steady_of_threads rfl rfl rfl)
  | sigreturn =>
    obtain ⟨t, sc, rest, -, -, rfl⟩ := rt_sigreturn_ok hok
    exact .steady (Sched.steady_of_threads rfl rfl rfl)
  | sigaction sig act oldAction =>
    obtain ⟨r, hr, rfl⟩ := map_ok hok
    rw [(rt_sigaction_ok hr).2]
    exact .steady (Steady.refl _)
  | sigprocmask how set =>
    obtain ⟨r, hr, rfl⟩ := map_ok hok
    rcases rt_sigprocmask_ok hr with heq | ⟨t, mask, -, heq⟩
    · rw [heq]
      exact .steady (Steady.refl _)
    · rw [heq]
      exact .steady (Steady.refl _)
  | kill pid sig =>
    obtain ⟨r, hr, rfl⟩ := map_ok hok
    rcases kill_ok hr with ⟨heq, -⟩ | ⟨t, -, hsend⟩
    · rw [heq]
      exact .steady (Steady.refl _)
    · exact .steady (steady_threadSignalSend hsend)
  | tgkill tgid tid sig =>
    obtain ⟨r, hr, rfl⟩ := map_ok hok
    rcases tgkill_ok hr with ⟨heq, -⟩ | ⟨t, -, hsend⟩
    · rw [heq]
      exact .steady (Steady.refl _)
    · exact .steady (steady_threadSignalSend hsend)
  | tkill tid sig =>
    obtain ⟨r, hr, rfl⟩ := map_ok hok
    exact .steady (steady_tkill hr)

end Moves

end Exaros.Signal
