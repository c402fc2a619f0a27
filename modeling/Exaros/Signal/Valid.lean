import Exaros.Signal.Pool

/-!
# Signal numbers

`signalSetAdd` and `rt_sigaction` look whether a signal is one; `threadSignalSend` does not, nor do the calls
that lead to it. A number that is none is turned away when there is no thread to send it to, and `kill` returns 0
even then. As long as no call sends one, the signal of every pending context is an entry of the table.
-/

namespace Exaros.Signal

open Loop Run Lists

def ValidSignal (s : Int) : Prop := 1 ≤ s ∧ s ≤ SIGNAL_COUNT

instance (s : Int) : Decidable (ValidSignal s) := inferInstanceAs (Decidable (_ ∧ _))

/-- Every pending context carries a signal. -/
def ValidPending (m : Machine) : Prop := ∀ t, ∀ sc ∈ m.list (.pending t), ValidSignal (m.context sc).signal

/-- The calls that send a signal. -/
inductive Call
  | kill (pid sig : Int)
  | tgkill (tgid tid sig : Int)
  | tkill (tid sig : Int)

namespace Call

def sig : Call → Int
  | kill _ sig => sig
  | tgkill _ _ sig => sig
  | tkill _ sig => sig

def op : Call → Op
  | kill pid sig => .kill pid sig
  | tgkill tgid tid sig => .tgkill tgid tid sig
  | tkill tid sig => .tkill tid sig

def run : Call → Machine → Except Stop (Int × Machine)
  | kill pid sig => Signal.kill pid sig
  | tgkill tgid tid sig => Signal.tgkill tgid tid sig
  | tkill tid sig => Signal.tkill tid sig

/-- There is no thread to send to. -/
def NoThread (m : Machine) : Call → Prop
  | kill pid _ => findThread (fun _ p => pid % 2 ^ 32 = (m.sched.procs p).processId) m.sched m.sched.usedThreads = .ok none
  | tgkill tgid tid _ => findThread
      (fun t p => tgid % 2 ^ 32 = (m.sched.procs p).processId ∧ tid % 2 ^ 32 = (m.sched.threads t).threadId)
      m.sched m.sched.usedThreads = .ok none
  | tkill tid _ => onSched (Sched.tid2Thread (tid % 2 ^ 32).toNat m.sched) = .ok none

/-- Whether the call tells that there is no thread. -/
def Tells : Call → Prop
  | kill _ _ => False
  | _ => True

/-- The call sends a signal, or finds no thread and says so, or would send 0. -/
def Fits (m : Machine) (c : Call) : Prop := ValidSignal c.sig ∨ (c.NoThread m ∧ (c.Tells ∨ c.sig = 0))

/-- What a call should do: only signals are pending, and any other number is turned away with an error, but for 0,
which sends nothing. -/
structure Answered (c : Call) (m : Machine) (ret : Int) (m' : Machine) : Prop where
  pending : ValidPending m'
  nothing : ¬ ValidSignal c.sig → m' = m
  error : ¬ ValidSignal c.sig → c.sig ≠ 0 → ret < 0

end Call

/-- A call that does not send, or that fits. -/
def Sends (op : Op) (m : Machine) : Prop := ∀ c : Call, op = c.op → c.Fits m

section Valid

variable {m m' : Machine} {t : Nat} {c : Call} {op : Op} {sig ret : Int}

theorem ValidPending.subset (h : ValidPending m) (hsub : ∀ t, ∀ sc ∈ m'.list (.pending t), sc ∈ m.list (.pending t))
    (hsignal : ∀ sc, (m'.context sc).signal = (m.context sc).signal) : ValidPending m' := fun t sc hsc => by
  rw [hsignal]
  exact h t sc (hsub t sc hsc)

/-- Moving a context elsewhere adds nothing to the pending ones. -/
theorem ValidPending.toFront (h : ValidPending m) {home : Home} {a : Nat} (hne : ∀ t, Home.pending t ≠ home)
    (hlist : m'.list = toFront m.list a home) (hsignal : ∀ sc, (m'.context sc).signal = (m.context sc).signal) :
    ValidPending m' := by
  refine h.subset (fun t sc hsc => ?_) hsignal
  rw [hlist, (moved_toFront ..).other _ (hne t)] at hsc
  exact List.mem_of_mem_erase hsc

/-- What does not send leaves only signals pending. -/
theorem Acts.validPending (hacts : Acts op m m') (hop : op.signal = none) (h : ValidPending m) : ValidPending m' := by
  cases hacts with
  | born hborn =>
    rcases hborn with hb | ⟨u, hb⟩
    · refine h.subset (fun t sc hsc => ?_) fun sc => by rw [hb.context]
      rw [hb.list] at hsc
      exact hsc
    · refine h.subset (fun t sc hsc => ?_) fun sc => by rw [hb.context]; rfl
      rw [hb.list, threadSetup_list] at hsc
      split at hsc
      · cases hsc
      · exact hsc
  | masked => exact h
  | consumed => exact h.toFront (fun t heq => by cases heq) rfl fun _ => rfl
  | @entered u p a _ _ =>
    refine h.toFront (fun t heq => by cases heq) rfl fun sc => ?_
    show (Function.update m.context a _ sc).signal = _
    by_cases hsc : sc = a
    · rw [hsc, Function.update_self]
    · rw [Function.update_of_ne hsc]
  | returned => exact h.toFront (fun t heq => by cases heq) rfl fun _ => rfl
  | sent hsent =>
    rw [hop] at hsent
    cases hsent
  | @freed m' u l hp hh _ hcontext _ =>
    refine h.subset (fun t sc hsc => ?_) fun sc => by rw [hcontext]
    rw [hh.other _ (fun heq => by cases heq) (fun heq => by cases heq)] at hsc
    by_cases htu : t = u
    · rw [htu, hp.empty] at hsc
      cases hsc
    · rw [hp.other _ (fun heq => htu (by cases heq; rfl)) (fun heq => by cases heq)] at hsc
      exact hsc

/-- A signal sent: one more is pending. -/
theorem ValidPending.send (h : ValidPending m) (hl : Apart m.list) (hsig : ValidSignal sig)
    (hok : threadSignalSend t sig m = .ok (ret, m')) : ValidPending m' := by
  obtain ⟨-, sc, rest, s, hfree, rfl, -⟩ := threadSignalSend_ok hok
  have hmem : sc ∈ m.list .free := by
    rw [hfree]
    exact List.mem_cons_self ..
  intro u a ha
  show ValidSignal (Function.update m.context sc _ a).signal
  rcases ((moved_toBack m.list sc (.pending t)).mem hl).mp ha with ⟨rfl, -⟩ | ⟨hne, ha⟩
  · rw [Function.update_self]
    obtain ⟨hlo, hhi⟩ := hsig
    have hbound : (SIGNAL_COUNT : Int) < 256 := by decide
    have hcast : (((sig % 256).toNat : Nat) : Int) = sig := by omega
    rw [hcast]
    exact ⟨hlo, hhi⟩
  · rw [Function.update_of_ne hne]
    exact h u a ha

/-- What a call does: nothing, when there is no thread, or it sends its signal to one. -/
theorem Call.run_ok (hok : c.run m = .ok (ret, m')) :
    (c.NoThread m ∧ m' = m ∧ (c.Tells → ret < 0) ∧ (¬ c.Tells → ret = 0)) ∨
      (¬ c.NoThread m ∧ ∃ t, threadSignalSend t c.sig m = .ok (ret, m')) := by
  cases c with
  | kill pid sig =>
    have hok : Signal.kill pid sig m = .ok (ret, m') := hok
    obtain ⟨found, h₁, hok⟩ := bind_ok hok
    cases found with
    | none =>
      cases hok
      exact .inl ⟨h₁, rfl, fun h => h.elim, fun _ => rfl⟩
    | some t =>
      obtain ⟨⟨ret', m₁⟩, h₂, hok⟩ := bind_ok hok
      obtain ⟨rfl, -⟩ := threadSignalSend_ok h₂
      cases hok
      exact .inr ⟨(fun hnone => by cases h₁.symm.trans hnone), t, h₂⟩
  | tgkill tgid tid sig =>
    have hok : Signal.tgkill tgid tid sig m = .ok (ret, m') := hok
    obtain ⟨found, h₁, hok⟩ := bind_ok hok
    cases found with
    | none =>
      cases hok
      exact .inl ⟨h₁, rfl, fun _ => by decide, fun h => absurd trivial h⟩
    | some t => exact .inr ⟨(fun hnone => by cases h₁.symm.trans hnone), t, hok⟩
  | tkill tid sig =>
    have hok : Signal.tkill tid sig m = .ok (ret, m') := hok
    obtain ⟨found, h₁, hok⟩ := bind_ok hok
    cases found with
    | none =>
      cases hok
      exact .inl ⟨h₁, rfl, fun _ => by decide, fun h => absurd trivial h⟩
    | some t => exact .inr ⟨(fun hnone => by cases h₁.symm.trans hnone), t, hok⟩

/-- A context taken from the free list shows. -/
theorem threadSignalSend_ne (hok : threadSignalSend t sig m = .ok (ret, m')) : m' ≠ m := fun heq => by
  obtain ⟨-, sc, rest, s, hfree, rfl, -⟩ := threadSignalSend_ok hok
  have hlist := congrArg (fun x : Machine => (x.list .free).length) heq
  have hother : (sent t sc sig s m).list .free = (m.list .free).erase sc :=
    (moved_toBack m.list sc (.pending t)).other .free (fun h => by cases h)
  simp only [hother, hfree, List.erase_cons_head, List.length_cons] at hlist
  omega

/-- **A call does what it should exactly if it fits.** -/
theorem Call.answered_iff (h : ValidPending m) (hl : Apart m.list) (hok : c.run m = .ok (ret, m')) :
    c.Answered m ret m' ↔ c.Fits m := by
  rcases Call.run_ok hok with ⟨hnone, rfl, htold, huntold⟩ | ⟨hsome, t, hsend⟩
  · constructor
    · intro ha
      by_cases hv : ValidSignal c.sig
      · exact .inl hv
      · refine .inr ⟨hnone, ?_⟩
        by_contra hor
        obtain ⟨hsilent, hzero⟩ := not_or.mp hor
        have hneg := ha.error hv hzero
        rw [huntold hsilent] at hneg
        exact absurd hneg (Int.lt_irrefl 0)
    · rintro (hv | ⟨-, hor⟩)
      · exact ⟨h, fun _ => rfl, fun hn => absurd hv hn⟩
      · exact ⟨h, fun _ => rfl, fun _ hne => hor.elim htold fun hz => absurd hz hne⟩
  · constructor
    · intro ha
      by_contra hfits
      obtain ⟨hinvalid, -⟩ := not_or.mp hfits
      exact threadSignalSend_ne hsend (ha.nothing hinvalid)
    · rintro (hv | ⟨hnone, -⟩)
      · exact ⟨h.send hl hv hsend, fun hn => absurd hv hn, fun hn => absurd hv hn⟩
      · exact absurd hnone hsome

theorem perform_call (c : Call) (m : Machine) : perform c.op m = (c.run m).map (·.2) := by
  cases c with
  | kill => rfl
  | tgkill => rfl
  | tkill => rfl

/-- **One call**: what fits leaves only signals pending. -/
theorem ValidPending.perform (h : ValidPending m) (hl : Apart m.list) (hop : Sends op m) (hok : perform op m = .ok m') :
    ValidPending m' := by
  by_cases hc : ∃ c : Call, op = c.op
  · obtain ⟨c, rfl⟩ := hc
    rw [perform_call] at hok
    obtain ⟨⟨ret, m₁⟩, hrun, rfl⟩ := map_ok hok
    exact ((Call.answered_iff h hl hrun).mpr (hop c rfl)).pending
  · refine (acts_perform hl hok).validPending ?_ h
    cases op with
    | kill pid sig => exact absurd ⟨.kill pid sig, rfl⟩ hc
    | tgkill tgid tid sig => exact absurd ⟨.tgkill tgid tid sig, rfl⟩ hc
    | tkill tid sig => exact absurd ⟨.tkill tid sig, rfl⟩ hc
    | _ => rfl

theorem validPending_of_reach {env : Sched.Machine → Sched.Machine → Prop} (h : Reach (· = boot) (Step Sends env) m) :
    Apart m.list ∧ ValidPending m := by
  have hinit : ∀ m₀ : Machine, m₀ = boot → Apart m₀.list ∧ ValidPending m₀ := fun m₀ h₀ => by
    rw [h₀]
    refine ⟨apart_boot, fun t sc hsc => ?_⟩
    cases (mem_boot.mp hsc).1
  refine h.invariant hinit fun m₁ m₂ h₁ hstep => ?_
  cases hstep with
  | call hop hok => exact ⟨(acts_perform h₁.1 hok).apart h₁.1, h₁.2.perform h₁.1 hop hok⟩
  | other => exact h₁

/-- **Only signals are pending** in a run whose calls fit, so that `handleSignal` looks up one of the entries of a
table; and there a call does what it should exactly if it fits. -/
theorem signals_valid_iff {env : Sched.Machine → Sched.Machine → Prop} (h : Reach (· = boot) (Step Sends env) m) :
    (ValidPending m ∧ ∀ t p, ∀ sc ∈ m.list (.pending t), getSignalHandler p ≤ action p (m.context sc).signal ∧
      action p (m.context sc).signal + 3 ≤ getSignalHandler p + 3 * SIGNAL_COUNT) ∧
    ∀ (c : Call) ret m', c.run m = .ok (ret, m') → (c.Answered m ret m' ↔ c.Fits m) := by
  obtain ⟨hl, hvalid⟩ := validPending_of_reach h
  refine ⟨⟨hvalid, fun t p sc hsc => ?_⟩, fun c ret m' hok => Call.answered_iff hvalid hl hok⟩
  obtain ⟨hlo, hhi⟩ := hvalid t sc hsc
  unfold action
  constructor
  · omega
  · omega

end Valid

/-- After signal 10 has been sent. -/
theorem signals_valid_iff_sent : ∃ m : Machine, m.list (.pending 0) = [4095] ∧ ValidPending m ∧
    ∀ (c : Call) ret m', c.run m = .ok (ret, m') → (c.Answered m ret m' ↔ c.Fits m) := by
  have hrun : ((started >>= performAll [.kill 2048 10]).toOption.map fun m => decide (m.list (.pending 0) = [4095])) = some true := by
    decide +kernel
  obtain ⟨m, hm, hlist⟩ := exists_of_toOption hrun
  obtain ⟨m₀, h₀, hm⟩ := bind_ok hm
  have hcreate : ∀ m, Sends (.create ⟨true, true, true⟩ fun _ => 0) m := fun _ c heq => by cases c <;> cases heq
  have hkill : ∀ op ∈ [Op.kill 2048 10], ∀ m, Sends op m := fun op hop m c heq => by
    rw [List.mem_singleton.mp hop] at heq
    cases c with
    | kill pid sig =>
      cases heq
      exact .inl (by decide)
    | tgkill => cases heq
    | tkill => cases heq
  have hreach : Reach (· = boot) (Step Sends fun _ _ => True) m :=
    reach_performAll (reach_started hcreate (fun _ _ => trivial) h₀) hkill hm
  obtain ⟨hvalid, hcalls⟩ := signals_valid_iff hreach
  exact ⟨m, of_decide_eq_true hlist, hvalid.1, hcalls⟩

/-- `kill(pid, 0)` leaves a context pending that carries no signal. -/
theorem kill_zero_queues : ∃ m m' : Machine, Reach (· = boot) (Step (fun _ _ => True) fun _ _ => True) m ∧
    kill 2048 0 m = .ok (0, m') ∧ ¬ ValidPending m' := by
  have hrun : ((started >>= fun m => (kill 2048 0 m).map fun r => (m, r)).toOption.map fun r =>
      decide (r.2.1 = 0 ∧ r.2.2.list (.pending 0) = [4095] ∧ (r.2.2.context 4095).signal = 0)) = some true := by decide +kernel
  obtain ⟨⟨m, ret, m'⟩, hm, hfacts⟩ := exists_of_toOption hrun
  obtain ⟨m₀, h₀, hm⟩ := bind_ok hm
  obtain ⟨r, hkill, heq⟩ := map_ok hm
  cases heq
  obtain ⟨hret, hlist, hsignal⟩ := of_decide_eq_true hfacts
  dsimp only at hret hlist hsignal
  rw [hret] at hkill
  refine ⟨m, m', reach_started (fun _ => trivial) (fun _ _ => trivial) h₀, hkill, fun hvalid => ?_⟩
  have hmem := hvalid 0 4095 (by rw [hlist]; exact List.mem_cons_self ..)
  rw [hsignal] at hmem
  exact absurd hmem.1 (by decide)

end Exaros.Signal
