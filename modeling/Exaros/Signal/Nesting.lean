import Exaros.Signal.Pool

/-!
# Signal frames

Entering a handler pushes the frame and the mask of the thread on its stack of contexts, and `rt_sigreturn`
pops them. One kernel exit may push several, so a frame may be the entry of another handler; other threads
send, are created and end meanwhile. While the stack stays above where it was when a handler was entered, the
context of that handler is untouched, and what it blocks stays blocked, for every context above it saved a mask
that contains it.
-/

namespace Exaros.Signal

open Loop Run Lists
open Function (update update_self update_of_ne)

/-- A call that is not `rt_sigprocmask` by the thread. -/
def Unmasked (t : Nat) (op : Op) (m : Machine) : Prop :=
  m.sched.currentThread = some t → ∀ how set, op ≠ .sigprocmask how set

/-- A run from `m₁` that keeps more than `d` contexts on the stack of the thread, whose handlers do not call
`rt_sigprocmask`. -/
def Nested (t d : Nat) (m₁ : Machine) : Machine → Prop :=
  Reach (fun m => m = m₁ ∧ d < (m.list (.handling t)).length)
    fun m m' => Step (Unmasked t) (fun _ _ => True) m m' ∧ d < (m'.list (.handling t)).length

/-- Frame, mask and stack of the thread that runs are back to what they were. -/
structure Restored (t : Nat) (m m' : Machine) : Prop where
  hart : m'.sched.hart = m.sched.hart
  blocked : m'.blocked t = m.blocked t
  stack : m'.list (.handling t) = m.list (.handling t)

/-- The handler of `sc` has been entered with the frame, the mask and the stack of `m₀`, and what `own` holds is
blocked by it. -/
structure Running (t sc : Nat) (own : SignalSet) (m₀ m : Machine) : Prop where
  apart : Apart m.list
  frame : (m.context sc).contextRecover = m₀.sched.hart
  mask : (m.context sc).blockedRecover = m₀.blocked t
  blocked : Within own (m.blocked t)
  stack : ∃ above, m.list (.handling t) = above ++ sc :: m₀.list (.handling t) ∧
    ∀ c ∈ above, Within own (m.context c).blockedRecover

section Running

variable {m₀ m₁ m₂ m m' : Machine} {t p sc : Nat} {own : SignalSet} {op : Op}

/-- The stack and its contexts as they are. -/
theorem Running.keep (h : Running t sc own m₀ m) (hapart : Apart m'.list) (hblocked : m'.blocked t = m.blocked t)
    (hstack : m'.list (.handling t) = m.list (.handling t))
    (hcontext : ∀ c ∈ m.list (.handling t), (m'.context c).contextRecover = (m.context c).contextRecover ∧
      (m'.context c).blockedRecover = (m.context c).blockedRecover) : Running t sc own m₀ m' := by
  obtain ⟨above, hlist, habove⟩ := h.stack
  have hsc : sc ∈ m.list (.handling t) := by
    rw [hlist]
    exact List.mem_append_right _ (List.mem_cons_self ..)
  refine ⟨hapart, ?_, ?_, ?_, above, ?_, fun c hc => ?_⟩
  · rw [(hcontext sc hsc).1]
    exact h.frame
  · rw [(hcontext sc hsc).2]
    exact h.mask
  · rw [hblocked]
    exact h.blocked
  · rw [hstack]
    exact hlist
  · have hmem : c ∈ m.list (.handling t) := by
      rw [hlist]
      exact List.mem_append_left _ hc
    rw [(hcontext c hmem).2]
    exact habove c hc

theorem context_of_ne {f : Nat → SignalContext} {a c : Nat} {x : SignalContext} (h : c ≠ a) :
    (update f a x c).contextRecover = (f c).contextRecover ∧ (update f a x c).blockedRecover = (f c).blockedRecover := by
  rw [update_of_ne h]
  exact ⟨rfl, rfl⟩

/-- A context of one list is not in another. -/
theorem ne_of_home {l : Home → List Nat} {home home' : Home} {a c : Nat} (hl : Apart l) (hc : c ∈ l home) (ha : a ∈ l home')
    (hne : home ≠ home') : c ≠ a := fun hca => by
  rw [hca] at hc
  exact hne (hl.home home home' a hc ha)

/-- Another handler is entered above. -/
theorem Running.entered (h : Running t sc own m₀ m) {a : Nat} (ha : a ∈ m.list (.pending t)) :
    Running t sc own m₀ (delivered t p a m) := by
  obtain ⟨above, hlist, habove⟩ := h.stack
  have hne : ∀ c ∈ m.list (.handling t), c ≠ a := fun c hc => ne_of_home h.apart hc ha (fun heq => by cases heq)
  have hcontext : ∀ c ∈ m.list (.handling t), ((delivered t p a m).context c).contextRecover = (m.context c).contextRecover ∧
      ((delivered t p a m).context c).blockedRecover = (m.context c).blockedRecover := fun c hc => context_of_ne (hne c hc)
  have hsc : sc ∈ m.list (.handling t) := by
    rw [hlist]
    exact List.mem_append_right _ (List.mem_cons_self ..)
  refine ⟨(moved_toFront ..).apart h.apart, ?_, ?_, ?_, a :: above, ?_, fun c hc => ?_⟩
  · rw [(hcontext sc hsc).1]
    exact h.frame
  · rw [(hcontext sc hsc).2]
    exact h.mask
  · show Within own (update m.blocked t _ t)
    rw [update_self]
    exact (h.blocked.signalSetAdd _).or_left
  · show toFront m.list a (.handling t) (.handling t) = _
    rw [toFront_self h.apart ha (fun heq => by cases heq), hlist]
    rfl
  · rcases List.mem_cons.mp hc with rfl | hc
    · show Within own (update m.context c _ c).blockedRecover
      rw [update_self]
      exact h.blocked
    · have hmem : c ∈ m.list (.handling t) := by
        rw [hlist]
        exact List.mem_append_left _ hc
      rw [(hcontext c hmem).2]
      exact habove c hc

/-- The handler at the top of the stack returns: another one above, or the handler itself. -/
theorem Running.returned (h : Running t sc own m₀ m) {a : Nat} {rest : List Nat} (ha : m.list (.handling t) = a :: rest) :
    Running t sc own m₀ (returned t a m) ∨ Restored t m₀ (returned t a m) := by
  obtain ⟨above, hlist, habove⟩ := h.stack
  have hrest : (Signal.returned t a m).list (.handling t) = rest := by
    show toFront m.list a .free (.handling t) = rest
    rw [(moved_toFront m.list a .free).other (.handling t) (fun heq => by cases heq), ha, List.erase_cons_head]
  have hblocked : (Signal.returned t a m).blocked t = (m.context a).blockedRecover := update_self ..
  rw [ha] at hlist
  cases above with
  | nil =>
    cases hlist
    refine .inr ⟨h.frame, ?_, hrest⟩
    rw [hblocked]
    exact h.mask
  | cons b above =>
    cases hlist
    refine .inl ⟨(moved_toFront ..).apart h.apart, h.frame, h.mask, ?_, above, hrest, fun c hc => ?_⟩
    · rw [hblocked]
      exact habove a (List.mem_cons_self ..)
    · exact habove c (List.mem_cons_of_mem _ hc)

/-- **One step**: as long as the stack stays above where it was, the handler's context and its mask stay. -/
theorem Running.step (h : Running t sc own m₀ m) (hstep : Step (Unmasked t) (fun _ _ => True) m m')
    (hdeep : (m₀.list (.handling t)).length < (m'.list (.handling t)).length) : Running t sc own m₀ m' := by
  have hgone : m'.list (.handling t) ≠ [] := fun hnil => by
    rw [hnil] at hdeep
    exact absurd hdeep (Nat.not_lt_zero _)
  cases hstep with
  | other => exact h.keep h.apart rfl rfl fun c _ => ⟨rfl, rfl⟩
  | @call op m' hop hok =>
    have hacts := acts_perform h.apart hok
    have hapart := hacts.apart h.apart
    cases hacts with
    | born hborn =>
      rcases hborn with hb | ⟨u, hb⟩
      · exact h.keep hapart (congrFun hb.blocked t) (congrFun hb.list _) fun c _ => by rw [hb.context]; exact ⟨rfl, rfl⟩
      · have hut : u ≠ t := fun hut => hgone (by rw [hb.list, threadSetup_list, if_pos (.inr (congrArg Home.handling hut.symm))])
        refine h.keep hapart ?_ ?_ fun c _ => by rw [hb.context]; exact ⟨rfl, rfl⟩
        · rw [hb.blocked]
          exact update_of_ne (Ne.symm hut) ..
        · rw [hb.list, threadSetup_list, if_neg]
          rintro (heq | heq)
          · cases heq
          · cases heq
            exact hut rfl
    | @masked u how set mask hopeq hcur =>
      have hut : u ≠ t := fun hut => hop (hut ▸ hcur) how set hopeq
      exact h.keep hapart (update_of_ne (Ne.symm hut) ..) rfl fun c _ => ⟨rfl, rfl⟩
    | @consumed u a hcur hmem =>
      refine h.keep hapart rfl ?_ fun c _ => ⟨rfl, rfl⟩
      show toFront m.list a .free (.handling t) = m.list (.handling t)
      exact (moved_toFront ..).same h.apart hmem (fun heq => by cases heq) (fun heq => by cases heq)
    | @entered u q a hcur hmem =>
      by_cases hut : u = t
      · subst hut
        exact h.entered hmem
      · refine h.keep hapart (update_of_ne (Ne.symm hut) ..) ?_ fun c hc => ?_
        · refine (moved_toFront m.list a (.handling u)).same h.apart hmem (fun heq => by cases heq) fun heq => ?_
          cases heq
          exact hut rfl
        · exact context_of_ne (ne_of_home h.apart hc hmem fun heq => by cases heq)
    | @returned u a rest hcur hlist =>
      by_cases hut : u = t
      · subst hut
        rcases h.returned hlist with hrun | hback
        · exact hrun
        · rw [hback.stack] at hdeep
          exact absurd hdeep (Nat.lt_irrefl _)
      · have hmem : a ∈ m.list (.handling u) := by
          rw [hlist]
          exact List.mem_cons_self ..
        have hne : Home.handling t ≠ .handling u := fun heq => by
          cases heq
          exact hut rfl
        refine h.keep hapart (update_of_ne (Ne.symm hut) ..) ?_ fun c _ => ⟨rfl, rfl⟩
        exact (moved_toFront m.list a .free).same h.apart hmem hne (fun heq => by cases heq)
    | @sent u a rest sig s hop hfree =>
      have hmem : a ∈ m.list .free := by
        rw [hfree]
        exact List.mem_cons_self ..
      refine h.keep hapart rfl ?_ fun c hc => ?_
      · show toBack m.list a (.pending u) (.handling t) = m.list (.handling t)
        exact (moved_toBack ..).same h.apart hmem (fun heq => by cases heq) (fun heq => by cases heq)
      · exact context_of_ne (ne_of_home h.apart hc hmem fun heq => by cases heq)
    | @freed m' u l hp hh hapart hcontext hblocked =>
      have hut : u ≠ t := fun hut => hgone (by rw [← hut, hh.empty])
      refine h.keep hapart (congrFun hblocked t) ?_ fun c _ => by rw [hcontext]; exact ⟨rfl, rfl⟩
      rw [hh.other _ (fun heq => by cases heq; exact hut rfl) (fun heq => by cases heq),
        hp.other _ (fun heq => by cases heq) (fun heq => by cases heq)]

/-- **A run above the handler.** -/
theorem Running.nested (h : Running t sc own m₀ m₁) (hrun : Nested t (m₀.list (.handling t)).length m₁ m₂) :
    Running t sc own m₀ m₂ := by
  refine hrun.invariant (fun m hm => ?_) fun m m' hm hstep => hm.step hstep.1 hstep.2
  rw [hm.1]
  exact h

/-- The handler has just been entered. -/
theorem running_entered (hl : Apart m₀.list) (hfirst : getFirstPendingSignal t m₀ = some sc) :
    Running t sc ((delivered t p sc m₀).blocked t) m₀ (delivered t p sc m₀) := by
  have hmem := getFirstPendingSignal_mem hfirst
  refine ⟨(moved_toFront ..).apart hl, ?_, ?_, Within.refl _, [], ?_, fun c hc => by cases hc⟩
  · show (update m₀.context sc _ sc).contextRecover = _
    rw [update_self]
  · show (update m₀.context sc _ sc).blockedRecover = _
    rw [update_self]
  · exact toFront_self hl hmem (fun heq => by cases heq)

/-- What a handler blocks when it is entered. -/
theorem delivered_blocked (hsig : 1 ≤ (m₀.context sc).signal ∧ (m₀.context sc).signal ≤ SIGNAL_COUNT) :
    Within (signalBit (m₀.context sc).signal) ((delivered t p sc m₀).blocked t) ∧
      Within (m₀.disposition p (m₀.context sc).signal).sa_mask ((delivered t p sc m₀).blocked t) := by
  have hblocked : (delivered t p sc m₀).blocked t =
      m₀.blocked t ||| signalBit (m₀.context sc).signal ||| (m₀.disposition p (m₀.context sc).signal).sa_mask := by
    show update m₀.blocked t _ t = _
    rw [update_self]
    unfold signalSetOr signalSetAdd
    rw [if_neg (by omega)]
  rw [hblocked]
  exact ⟨(within_or_right _ _).or_left, within_or_right _ _⟩

end Running

section Nested

variable {m₀ m₁ m₂ m₃ m m' : Machine} {t p sc d n : Nat}

theorem unmasked_turn (t : Nat) (m : Machine) : Unmasked t .turn m := fun _ how set heq => by cases heq

/-- A turn makes the stack of the thread no smaller. -/
theorem Turned.length_le {r : Turn} (h : Turned t p m r m') (hl : Apart m.list) :
    (m.list (.handling t)).length ≤ (m'.list (.handling t)).length := by
  cases h with
  | idle => exact Nat.le_refl _
  | destroyed => exact Nat.le_refl _
  | consumed hfirst =>
    have hmem := getFirstPendingSignal_mem hfirst
    show _ ≤ (toFront m.list _ .free (.handling t)).length
    rw [(moved_toFront ..).same hl hmem (fun heq => by cases heq) (fun heq => by cases heq)]
  | entered hfirst =>
    have hmem := getFirstPendingSignal_mem hfirst
    show _ ≤ (toFront m.list _ (.handling t) (.handling t)).length
    rw [toFront_self hl hmem (fun heq => by cases heq), List.length_cons]
    exact Nat.le_succ _

/-- The turns of `handleSignal` belong to the run above a handler. -/
theorem handleLoop_nested (hl : Apart m.list) (hmy : Sched.myThread m.sched = .ok (t, p))
    (hok : handleLoop t p n m = .ok (.user, m')) (hm : Nested t d m₁ m) (hdeep : d < (m.list (.handling t)).length) :
    Nested t d m₁ m' := by
  induction n generalizing m with
  | zero => cases hok
  | succ n ih =>
    obtain ⟨⟨r, m₂⟩, h₂, hok⟩ := bind_ok hok
    have hturned := handleTurn_ok h₂
    have hdeep₂ := Nat.lt_of_lt_of_le hdeep (hturned.length_le hl)
    have hperform := perform_turn hmy h₂
    have hm₂ : Nested t d m₁ m₂ := hm.step ⟨.call (unmasked_turn t m) hperform, hdeep₂⟩
    have hl₂ := (acts_perform hl hperform).apart hl
    have hmy₂ := hturned.myThread.trans hmy
    cases r with
    | idle =>
      cases hok
      exact hm₂
    | destroyed sc => cases hok
    | consumed sc => exact ih hl₂ hmy₂ hok hm₂ hdeep₂
    | entered sc => exact ih hl₂ hmy₂ hok hm₂ hdeep₂

/-- A run above a handler that a run above the handler reaches. -/
theorem Nested.trans (h : Nested t d m₁ m) (h' : Nested t d m m₂) : Nested t d m₁ m₂ := by
  refine h'.invariant (fun m' hm' => ?_) fun m' m'' hm' hstep => hm'.step hstep
  rw [hm'.1]
  exact h

theorem nested_start (h : Nested t d m₁ m) : d < (m₁.list (.handling t)).length := by
  induction h with
  | init h =>
    rw [← h.1]
    exact h.2
  | step _ _ ih => exact ih

/-- A handler that returns gives back what it was entered with. -/
theorem restored_of_running {own : SignalSet} (h : Running t sc own m₀ m₂) (hcur : m₂.sched.currentThread = some t)
    (hret : rt_sigreturn m₂ = .ok m₃) (hdepth : (m₃.list (.handling t)).length = (m₀.list (.handling t)).length) :
    Restored t m₀ m₃ := by
  obtain ⟨u, a, rest, hcur', hlist, rfl⟩ := rt_sigreturn_ok hret
  rw [hcur] at hcur'
  cases hcur'
  rcases h.returned hlist with hrun | hback
  · -- the handler would still be on the stack
    obtain ⟨above, hstack, -⟩ := hrun.stack
    rw [hstack, List.length_append, List.length_cons] at hdepth
    omega
  · exact hback

/-- What `handleSignal` does up to the first handler it enters does not show. -/
theorem handleLoop_first (hl : Apart m.list) (hmy : Sched.myThread m.sched = .ok (t, p))
    (hok : handleLoop t p n m = .ok (.user, m')) (hdeep : (m.list (.handling t)).length < (m'.list (.handling t)).length) :
    ∃ m₀ sc, Restored t m m₀ ∧ Apart m₀.list ∧ getFirstPendingSignal t m₀ = some sc ∧
      Nested t (m₀.list (.handling t)).length (delivered t p sc m₀) m' := by
  induction n generalizing m with
  | zero => cases hok
  | succ n ih =>
    obtain ⟨⟨r, m₂⟩, h₂, hok⟩ := bind_ok hok
    have hturned := handleTurn_ok h₂
    have hl₂ := (acts_perform hl (perform_turn hmy h₂)).apart hl
    have hmy₂ := hturned.myThread.trans hmy
    cases hturned with
    | idle =>
      cases hok
      exact absurd hdeep (Nat.lt_irrefl _)
    | destroyed => cases hok
    | @consumed a hfirst =>
      have hmem := getFirstPendingSignal_mem hfirst
      have hsame : toFront m.list a .free (.handling t) = m.list (.handling t) :=
        (moved_toFront ..).same hl hmem (fun heq => by cases heq) (fun heq => by cases heq)
      have hdeep₂ : (toFront m.list a .free (.handling t)).length < (m'.list (.handling t)).length := by
        rw [hsame]
        exact hdeep
      obtain ⟨m₀, sc, hback, hrest⟩ := ih hl₂ hmy₂ hok hdeep₂
      exact ⟨m₀, sc, ⟨hback.hart, hback.blocked, hback.stack.trans hsame⟩, hrest⟩
    | @entered sc hfirst =>
      have hmem := getFirstPendingSignal_mem hfirst
      have hself : (delivered t p sc m).list (.handling t) = sc :: m.list (.handling t) :=
        toFront_self hl hmem (fun heq => by cases heq)
      have habove : (m.list (.handling t)).length < ((delivered t p sc m).list (.handling t)).length := by
        rw [hself, List.length_cons]
        exact Nat.lt_succ_self _
      exact ⟨m, sc, ⟨rfl, rfl, rfl⟩, hl, hfirst, handleLoop_nested hl₂ hmy₂ hok (.init ⟨rfl, habove⟩) habove⟩

/-- **Signal frames nest and unwind exactly.** Of each handler that is entered: while it is on the stack its
signal and its mask are blocked, and the `rt_sigreturn` that takes it off restores the frame and the mask in
force when it was entered. Of a kernel exit that delivers: when the stack is as deep as before again, frame and
mask are those before the first delivery. -/
theorem signal_frames_nest {ok : Op → Machine → Prop} {env : Sched.Machine → Sched.Machine → Prop}
    (h₀ : Reach (· = boot) (Step ok env) m₀) (hmy : Sched.myThread m₀.sched = .ok (t, p)) :
    (∀ sc m₁ m₂, handleTurn t p m₀ = .ok (.entered sc, m₁) →
      1 ≤ (m₀.context sc).signal ∧ (m₀.context sc).signal ≤ SIGNAL_COUNT →
      Nested t (m₀.list (.handling t)).length m₁ m₂ →
      signalSetIsMember (m₂.blocked t) (m₀.context sc).signal = true ∧
      Within (m₀.disposition p (m₀.context sc).signal).sa_mask (m₂.blocked t) ∧
      ∀ m₃, m₂.sched.currentThread = some t → rt_sigreturn m₂ = .ok m₃ →
        (m₃.list (.handling t)).length = (m₀.list (.handling t)).length → Restored t m₀ m₃) ∧
    ∀ m₁ m₂ m₃, handleSignal m₀ = .ok (.user, m₁) → Nested t (m₀.list (.handling t)).length m₁ m₂ →
      m₂.sched.currentThread = some t → rt_sigreturn m₂ = .ok m₃ →
      (m₃.list (.handling t)).length = (m₀.list (.handling t)).length → Restored t m₀ m₃ := by
  have hl := apart_of_reach h₀
  refine ⟨fun sc m₁ m₂ hturn hsig hrun => ?_, fun m₁ m₂ m₃ hexit hrun hcur hret hdepth => ?_⟩
  · cases handleTurn_ok hturn with
    | entered hfirst =>
      have hrunning := (running_entered (p := p) hl hfirst).nested hrun
      obtain ⟨hown, hmask⟩ := delivered_blocked (t := t) (p := p) hsig
      refine ⟨signalSetIsMember_of_within (hown.trans hrunning.blocked), hmask.trans hrunning.blocked, ?_⟩
      exact fun m₃ hcur hret hdepth => restored_of_running hrunning hcur hret hdepth
  · unfold handleSignal at hexit
    rw [hmy] at hexit
    obtain ⟨⟨t', p'⟩, heq, hexit⟩ := bind_ok hexit
    cases heq
    dsimp only at hexit
    split at hexit
    · cases hexit
    · have hdeep : (m₀.list (.handling t)).length < (m₁.list (.handling t)).length := nested_start hrun
      obtain ⟨m, sc, hback, hlm, hfirst, hnested⟩ := handleLoop_first hl hmy hexit hdeep
      rw [← hback.stack] at hrun hdepth
      have hrunning := (running_entered (p := p) hlm hfirst).nested (hnested.trans hrun)
      have hend := restored_of_running hrunning hcur hret hdepth
      exact ⟨hend.hart.trans hback.hart, hend.blocked.trans hback.blocked, hend.stack.trans hback.stack⟩

end Nested

/-- Two signals, delivered in one kernel exit, and the handlers' returns. -/
def nestedRun : Except Stop (Exit × Machine × Machine × Machine × Machine) := do
  let m₀ ← started >>= performAll [.sigaction 10 (some ⟨0x10000, 0, 0⟩) false, .sigaction 12 (some ⟨0x20000, 0, 0⟩) false,
    .kill 2048 10, .kill 2048 12]
  let (e, m₁) ← handleSignal m₀
  let m₂ ← rt_sigreturn m₁
  let m₃ ← rt_sigreturn m₂
  return (e, m₀, m₁, m₂, m₃)

/-- Two handlers are entered at once, and both return. -/
theorem signal_frames_nest_two : ∃ m₀ m₁ m₂ m₃ : Machine, handleSignal m₀ = .ok (.user, m₁) ∧
    (m₁.list (.handling 0)).length = (m₀.list (.handling 0)).length + 2 ∧ rt_sigreturn m₁ = .ok m₂ ∧
    rt_sigreturn m₂ = .ok m₃ ∧ Restored 0 m₀ m₃ := by
  have hrun : (nestedRun.toOption.map fun r => decide (r.1 = .user ∧ r.2.1.sched.currentThread = some 0 ∧
      (r.2.1.sched.threads 0).process = some 0 ∧ r.2.2.2.1.sched.currentThread = some 0 ∧
      (r.2.1.list (.handling 0)).length = 0 ∧ (r.2.2.1.list (.handling 0)).length = 2 ∧
      (r.2.2.2.1.list (.handling 0)).length = 1 ∧ (r.2.2.2.2.list (.handling 0)).length = 0)) = some true := by decide +kernel
  obtain ⟨⟨e, m₀, m₁, m₂, m₃⟩, hm, hfacts⟩ := exists_of_toOption hrun
  obtain ⟨he, hcur₀, hproc, hcur₂, hlen₀, hlen₁, hlen₂, hlen₃⟩ := of_decide_eq_true hfacts
  dsimp only at he hcur₀ hproc hcur₂ hlen₀ hlen₁ hlen₂ hlen₃
  subst he
  obtain ⟨m, h₀, hm⟩ := bind_ok hm
  obtain ⟨⟨e, handling⟩, h₁, hm⟩ := bind_ok hm
  obtain ⟨back, h₂, hm⟩ := bind_ok hm
  obtain ⟨ended, h₃, hm⟩ := bind_ok hm
  cases hm
  obtain ⟨ms, hs, h₀⟩ := bind_ok h₀
  have hreach : Reach (· = boot) (Step (fun _ _ => True) (fun _ _ => True)) m₀ :=
    reach_performAll (reach_started (fun _ => trivial) (fun _ _ => trivial) hs) (fun _ _ _ => trivial) h₀
  have hmy : Sched.myThread m₀.sched = .ok (0, 0) := by
    unfold Sched.myThread
    rw [hcur₀]
    dsimp only
    rw [hproc]
  have hreturn : Unmasked 0 .sigreturn m₁ := fun _ how set heq => by cases heq
  have hnested : Nested 0 (m₀.list (.handling 0)).length m₁ m₂ := by
    refine .step (.init ⟨rfl, ?_⟩) ⟨.call hreturn h₂, ?_⟩
    · omega
    · omega
  refine ⟨m₀, m₁, m₂, m₃, h₁, by omega, h₂, h₃, ?_⟩
  exact (signal_frames_nest hreach hmy).2 m₁ m₂ m₃ h₁ hnested hcur₂ h₃ (by omega)

end Exaros.Signal
