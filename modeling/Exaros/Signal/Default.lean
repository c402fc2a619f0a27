import Exaros.Signal.Pool

/-!
# Default actions

The loop of `handleSignal` takes the pending signals in order, skipping those that are blocked; each handler it
enters blocks more. A signal is due when its turn comes and it has no handler. `SignalActionDefault` looks up
`signal + 1` among its labels, so what a due signal does is what its successor is listed for.
-/

namespace Exaros.Signal

open Loop Run Lists
open Files (PROCESS_TOTAL_NUMBER)

/-- The contexts among pending ones whose signals are due, with the mask and the tables as the handlers entered
before leave them. -/
def due (signal : Nat → Nat) (p : Nat) : List Nat → SignalSet → (Int → BitVec 64) → List Nat
  | [], _, _ => []
  | sc :: l, set, words =>
    let sa := action p (signal sc)
    if signalSetIsMember set (signal sc) then due signal p l set words
    else if words sa = 0 then sc :: due signal p l set words
    else due signal p l (signalSetOr (signalSetAdd set (signal sc)) (words (sa + 2)))
      (if words (sa + 1) &&& 4 ≠ 0 then Function.update (Function.update words sa 0) (sa + 2) 0 else words)

namespace Machine

/-- The signal of a context. -/
def signalOf (m : Machine) (sc : Nat) : Nat := (m.context sc).signal

/-- The contexts of a thread that are due. -/
def due (m : Machine) (t p : Nat) : List Nat := Signal.due m.signalOf p (m.list (.pending t)) (m.blocked t) m.words

/-- The entry of the context's signal is mapped. -/
def Readable (m : Machine) (p sc : Nat) : Prop := ∀ i ∈ [0, 1, 2], m.mapped ((action p (m.signalOf sc) + i) / 512) = true

end Machine

/-- Whether the default action of the context's signal calls `threadDestroy`. -/
def Machine.fatal (m : Machine) (sc : Nat) : Bool := (SignalActionDefault (m.signalOf sc)).fatal

section Turns

variable {m m' : Machine} {t p sc n : Nat}

theorem load_of_mapped {w : Int} (h : m.mapped (w / 512) = true) : m.load w = .ok (m.words w) := by
  unfold Machine.load
  rw [if_pos h]

theorem unlink_of_mem (ht : t < PROCESS_TOTAL_NUMBER) (hmem : sc ∈ m.list (.pending t)) :
    unlink sc m = .ok { m with list := fun h => (m.list h).erase sc } := by
  unfold unlink
  rw [if_pos]
  unfold Machine.linked
  rw [Bool.or_eq_true]
  right
  exact List.any_eq_true.mpr ⟨t, List.mem_range.mpr ht, decide_eq_true (.inl hmem)⟩

theorem handleTurn_idle (h : getFirstPendingSignal t m = none) : handleTurn t p m = .ok (.idle, m) := by
  unfold handleTurn
  rw [h]

theorem enterHandler_delivered (ht : t < PROCESS_TOTAL_NUMBER) (hmem : sc ∈ m.list (.pending t)) (hread : m.Readable p sc) :
    enterHandler t sc (action p (m.signalOf sc)) m = .ok (delivered t p sc m) := by
  have hload : ∀ i ∈ [0, 1, 2], m.load (action p (m.signalOf sc) + i) = .ok (m.words (action p (m.signalOf sc) + i)) :=
    fun i hi => load_of_mapped (hread i hi)
  have h₀ : m.load (action p (m.signalOf sc)) = .ok (m.words (action p (m.signalOf sc))) := by
    have := hload 0 (by decide)
    rwa [Int.add_zero] at this
  obtain ⟨m', hok⟩ : ∃ m', enterHandler t sc (action p (m.signalOf sc)) m = .ok m' := by
    unfold enterHandler
    rw [h₀, hload 1 (by decide), hload 2 (by decide)]
    simp only [ok_bind]
    split
    · rw [unlink_of_mem ht]
      · exact ⟨_, rfl⟩
      · exact hmem
    · rw [unlink_of_mem ht]
      · exact ⟨_, rfl⟩
      · exact hmem
  rw [hok, enterHandler_ok hok]

/-- The turn of the first pending signal that is not blocked. -/
theorem handleTurn_first (ht : t < PROCESS_TOTAL_NUMBER) (hfirst : getFirstPendingSignal t m = some sc)
    (hread : m.Readable p sc) :
    handleTurn t p m = .ok (if m.words (action p (m.signalOf sc)) = 0 then
        if m.fatal sc then (.destroyed sc, m) else (.consumed sc, { m with list := toFront m.list sc .free })
      else (.entered sc, delivered t p sc m)) := by
  have hmem := getFirstPendingSignal_mem hfirst
  have h₀ : m.load (action p (m.context sc).signal) = .ok (m.words (action p (m.signalOf sc))) := by
    have := load_of_mapped (hread 0 (by decide))
    rwa [Int.add_zero] at this
  unfold handleTurn
  rw [hfirst]
  dsimp only
  rw [h₀, ok_bind]
  split
  · split
    · rename_i hfatal
      rw [if_pos (show m.fatal sc = true from hfatal)]
      rfl
    · rename_i hfatal
      rw [if_neg (show ¬ m.fatal sc = true from hfatal)]
      unfold signalContextFree
      rw [unlink_of_mem ht hmem]
      rfl
  · rw [show (m.context sc).signal = m.signalOf sc from rfl, enterHandler_delivered ht hmem hread]
    rfl

theorem delivered_signalOf (t p sc : Nat) (m : Machine) : (delivered t p sc m).signalOf = m.signalOf := by
  funext c
  show (Function.update m.context sc _ c).signal = _
  by_cases hc : c = sc
  · rw [hc, Function.update_self]
    rfl
  · rw [Function.update_of_ne hc]
    rfl

end Turns

section Loop

variable {m m' : Machine} {t p : Nat}

theorem due_subset (signal : Nat → Nat) (p : Nat) (l : List Nat) (set : SignalSet) (words : Int → BitVec 64) :
    ∀ sc ∈ due signal p l set words, sc ∈ l := by
  induction l generalizing set words with
  | nil => exact fun sc hsc => hsc
  | cons a l ih =>
    intro sc hsc
    unfold due at hsc
    dsimp only at hsc
    split at hsc
    · exact List.mem_cons_of_mem _ (ih _ _ sc hsc)
    · split at hsc
      · rcases List.mem_cons.mp hsc with rfl | hsc
        · exact List.mem_cons_self ..
        · exact List.mem_cons_of_mem _ (ih _ _ sc hsc)
      · exact List.mem_cons_of_mem _ (ih _ _ sc hsc)

/-- Where the contexts of signals that were due are when the loop ends: `d` is the one it stopped at. -/
def Consumed (t : Nat) (l : List Nat) (d : Option Nat) (m : Machine) : Prop :=
  ∀ sc ∈ l, sc ∈ m.list .free ∨ d ≠ none ∧ sc ∈ m.list (.pending t)

/-- **The loop of `handleSignal`**, at a machine whose blocked pending signals come first. -/
theorem handleLoop_due (ht : t < PROCESS_TOTAL_NUMBER) {rest skipped : List Nat} {n : Nat} (hl : Apart m.list)
    (hlist : m.list (.pending t) = skipped ++ rest) (hskip : ∀ sc ∈ skipped, signalSetIsMember (m.blocked t) (m.signalOf sc) = true)
    (hread : ∀ sc ∈ rest, m.Readable p sc) (hn : rest.length < n) :
    ∃ m', handleLoop t p n m =
        .ok (((due m.signalOf p rest (m.blocked t) m.words).find? m.fatal).elim .user .destroyed, m') ∧
      Apart m'.list ∧ (∀ sc ∈ m.list .free, sc ∈ m'.list .free) ∧
      Consumed t (due m.signalOf p rest (m.blocked t) m.words)
        ((due m.signalOf p rest (m.blocked t) m.words).find? m.fatal) m' := by
  induction rest generalizing m skipped n with
  | nil =>
    cases n with
    | zero => cases hn
    | succ n =>
      have hfirst : getFirstPendingSignal t m = none := by
        unfold getFirstPendingSignal
        rw [hlist, List.append_nil]
        refine List.find?_eq_none.mpr fun sc hsc => ?_
        rw [show signalSetIsMember (m.blocked t) (m.context sc).signal = true from hskip sc hsc]
        decide
      refine ⟨m, ?_, hl, fun sc hsc => hsc, fun sc hsc => by cases hsc⟩
      unfold handleLoop
      rw [handleTurn_idle hfirst]
      rfl
  | cons sc l ih =>
    by_cases hblocked : signalSetIsMember (m.blocked t) (m.signalOf sc) = true
    · -- skipped, and never looked at again
      have hdue : due m.signalOf p (sc :: l) (m.blocked t) m.words = due m.signalOf p l (m.blocked t) m.words := by
        rw [due]
        exact if_pos hblocked
      have hlist' : m.list (.pending t) = (skipped ++ [sc]) ++ l := by
        rw [hlist, List.append_assoc]
        rfl
      rw [hdue]
      refine ih hl hlist' (fun a ha => ?_) (fun a ha => hread a (List.mem_cons_of_mem _ ha)) (Nat.lt_of_succ_lt hn)
      rcases List.mem_append.mp ha with ha | ha
      · exact hskip a ha
      · rw [List.mem_singleton.mp ha]
        exact hblocked
    · cases n with
      | zero => cases hn
      | succ n =>
        have hfirst : getFirstPendingSignal t m = some sc := by
          unfold getFirstPendingSignal
          rw [hlist, List.find?_append, List.find?_eq_none.mpr]
          · rw [Option.none_or, List.find?_cons_of_pos]
            have hnot : signalSetIsMember (m.blocked t) (m.context sc).signal = false := Bool.eq_false_iff.mpr hblocked
            rw [hnot]
            rfl
          · intro a ha
            rw [show signalSetIsMember (m.blocked t) (m.context a).signal = true from hskip a ha]
            decide
        have hmem := getFirstPendingSignal_mem hfirst
        have hscread := hread sc (List.mem_cons_self ..)
        have herase : (m.list (.pending t)).erase sc = skipped ++ l := by
          have hnodup := hl.nodup (.pending t)
          rw [hlist] at hnodup ⊢
          have hnot : sc ∉ skipped := fun hsc =>
            (List.nodup_append.mp hnodup).2.2 sc hsc sc (List.mem_cons_self ..) rfl
          rw [List.erase_append_right _ hnot, List.erase_cons_head]
        have hlen : l.length < n := Nat.lt_of_succ_lt_succ hn
        unfold handleLoop
        rw [handleTurn_first ht hfirst hscread, ok_bind]
        by_cases hnull : m.words (action p (m.signalOf sc)) = 0
        · rw [if_pos hnull]
          have hdue : due m.signalOf p (sc :: l) (m.blocked t) m.words = sc :: due m.signalOf p l (m.blocked t) m.words := by
            rw [due]
            exact (if_neg hblocked).trans (if_pos hnull)
          rw [hdue]
          by_cases hfatal : m.fatal sc = true
          · rw [if_pos hfatal, List.find?_cons_of_pos hfatal]
            refine ⟨m, rfl, hl, fun a ha => ha, fun a ha => .inr ⟨(fun heq => by cases heq), ?_⟩⟩
            rw [hlist]
            rcases List.mem_cons.mp ha with rfl | ha
            · exact List.mem_append_right _ (List.mem_cons_self ..)
            · exact List.mem_append_right _ (List.mem_cons_of_mem _ (due_subset _ _ _ _ _ a ha))
          · rw [if_neg hfatal, List.find?_cons_of_neg hfatal]
            have hm := moved_toFront m.list sc Home.free
            have hpending : toFront m.list sc .free (.pending t) = skipped ++ l := by
              rw [hm.other _ (fun heq => by cases heq), herase]
            have hfree : toFront m.list sc .free .free = sc :: m.list .free :=
              toFront_self hl hmem (fun heq => by cases heq)
            obtain ⟨m', hloop, hl', hkeep, hconsumed⟩ := ih (m := { m with list := toFront m.list sc .free }) (hm.apart hl)
              hpending hskip (fun a ha => hread a (List.mem_cons_of_mem _ ha)) hlen
            refine ⟨m', hloop, hl', fun a ha => hkeep a ?_, fun a ha => ?_⟩
            · show a ∈ toFront m.list sc .free .free
              rw [hfree]
              exact List.mem_cons_of_mem _ ha
            · rcases List.mem_cons.mp ha with rfl | ha
              · refine .inl (hkeep a ?_)
                show a ∈ toFront m.list a .free .free
                rw [hfree]
                exact List.mem_cons_self ..
              · exact hconsumed a ha
        · rw [if_neg hnull]
          have hm := moved_toFront m.list sc (Home.handling t)
          have hsignal := delivered_signalOf t p sc m
          have hmask : (delivered t p sc m).blocked t =
              signalSetOr (signalSetAdd (m.blocked t) (m.signalOf sc)) (m.words (action p (m.signalOf sc) + 2)) :=
            Function.update_self ..
          have hdue : due m.signalOf p (sc :: l) (m.blocked t) m.words =
              due (delivered t p sc m).signalOf p l ((delivered t p sc m).blocked t) (delivered t p sc m).words := by
            rw [due, hsignal, hmask]
            exact (if_neg hblocked).trans (if_neg hnull)
          have hfatal : (delivered t p sc m).fatal = m.fatal := by
            funext a
            unfold Machine.fatal
            rw [hsignal]
          rw [hdue, ← hfatal]
          have hpending : toFront m.list sc (.handling t) (.pending t) = skipped ++ l := by
            rw [hm.other _ (fun heq => by cases heq), herase]
          have hfree : toFront m.list sc (.handling t) .free = m.list .free :=
            hm.same hl hmem (fun heq => by cases heq) (fun heq => by cases heq)
          have hskip' : ∀ a ∈ skipped,
              signalSetIsMember ((delivered t p sc m).blocked t) ((delivered t p sc m).signalOf a) = true := fun a ha => by
            rw [hsignal, hmask]
            exact Within.isMember ((Within.refl _).signalSetAdd _).or_left (hskip a ha)
          have hread' : ∀ a ∈ l, (delivered t p sc m).Readable p a := fun a ha i hi => by
            rw [hsignal]
            exact hread a (List.mem_cons_of_mem _ ha) i hi
          obtain ⟨m', hloop, hl', hkeep, hconsumed⟩ := ih (hm.apart hl) hpending hskip' hread' hlen
          refine ⟨m', hloop, hl', fun a ha => hkeep a ?_, hconsumed⟩
          show a ∈ toFront m.list sc (.handling t) .free
          rw [hfree]
          exact ha

end Loop

/-! ## Labels -/

section Labels

variable {s : Nat}

theorem actionCase_large (h : 32 ≤ s) : actionCase s = .none := by
  have hne : ∀ n, n < 32 → s ≠ n := fun n hn heq => by omega
  unfold actionCase
  rw [if_neg, if_neg, if_neg, if_neg, if_neg]
  · exact hne _ (by decide)
  · simp only [List.mem_cons, List.not_mem_nil, or_false, not_or]
    exact ⟨hne _ (by decide), hne _ (by decide), hne _ (by decide), hne _ (by decide)⟩
  · simp only [List.mem_cons, List.not_mem_nil, or_false, not_or]
    exact ⟨hne _ (by decide), hne _ (by decide), hne _ (by decide)⟩
  · intro hmem
    have hlt : ∀ n ∈ [SIGALRM, SIGHUP, SIGINT, SIGIO, SIGKILL, SIGPIPE, SIGPROF, SIGPWR, SIGSTKFLT, SIGTERM, SIGUSR1,
      SIGUSR2, SIGVTALRM], n < 32 := by decide
    exact absurd (hlt s hmem) (Nat.not_lt.mpr h)
  · intro hmem
    have hlt : ∀ n ∈ [SIGABRT, SIGBUS, SIGFPE, SIGILL, SIGQUIT, SIGSEGV, SIGSYS, SIGTRAP, SIGXCPU, SIGXFSZ], n < 32 := by decide
    exact absurd (hlt s hmem) (Nat.not_lt.mpr h)

/-- The signals that end a thread although they are listed to be ignored. -/
theorem spared_iff (h : (SignalActionDefault s).fatal = true) :
    actionCase s ∈ [.ign, .stop, .cont] ↔ s = SIGURG ∨ s = SIGWINCH := by
  have hsmall : ∀ s < 32, (SignalActionDefault s).fatal = true →
      (actionCase s ∈ [.ign, .stop, .cont] ↔ s = SIGURG ∨ s = SIGWINCH) := by decide
  by_cases hs : s < 32
  · exact hsmall s hs h
  · unfold SignalActionDefault at h
    rw [actionCase_large (by omega)] at h
    cases h

/-- But for these, and for 0, what ends a thread is listed to. -/
theorem fatal_of_succ (h : (SignalActionDefault s).fatal = true) (h₀ : s ≠ 0) (hs : ¬ (s = SIGURG ∨ s = SIGWINCH)) :
    (actionCase s).fatal = true := by
  have hsmall : ∀ s < 32, (SignalActionDefault s).fatal = true → s ≠ 0 → ¬ (s = SIGURG ∨ s = SIGWINCH) →
      (actionCase s).fatal = true := by decide
  by_cases hlt : s < 32
  · exact hsmall s hlt h h₀ hs
  · unfold SignalActionDefault at h
    rw [actionCase_large (by omega)] at h
    cases h

/-- The signals that do not end a thread although they are listed to. -/
theorem missed_iff (h : (SignalActionDefault s).fatal = false) :
    (actionCase s).fatal = true ↔ s ∈ [SIGSTKFLT, SIGPROF, SIGSYS] := by
  have hsmall : ∀ s < 32, (SignalActionDefault s).fatal = false →
      ((actionCase s).fatal = true ↔ s ∈ [SIGSTKFLT, SIGPROF, SIGSYS]) := by decide
  by_cases hlt : s < 32
  · exact hsmall s hlt h
  · rw [actionCase_large (by omega)]
    refine ⟨(fun hfalse => by cases hfalse), fun hmem => ?_⟩
    have hbound : ∀ n ∈ [SIGSTKFLT, SIGPROF, SIGSYS], n < 32 := by decide
    exact absurd (hbound s hmem) hlt

end Labels

/-! ## Dispositions -/

/-- `m''` is what `handleSignal` leaves when it ends with `e` at `m'`: `threadDestroy` follows unless it returns. -/
def Leaves (t : Nat) (e : Exit) (m' m'' : Machine) : Prop :=
  (e = .user ∧ m'' = m') ∨ (e ≠ .user ∧ threadDestroy t m' = .ok m'')

/-- **The default dispositions**: the thread is destroyed exactly if it is killed or a signal that is due is listed
to end it, and not at one listed to be ignored, to stop or to continue; and the context of every signal that is
due is freed once. -/
def Disposes (t p : Nat) (m : Machine) : Prop :=
  ∃ e m', handleSignal m = .ok (e, m') ∧
    (e ≠ .user ↔ (m.sched.threads t).killed = true ∨ ∃ sc ∈ m.due t p, (actionCase (m.signalOf sc)).fatal = true) ∧
    (∀ sc, e = .destroyed sc → actionCase (m.signalOf sc) ∉ [.ign, .stop, .cont]) ∧
    ∀ m'', Leaves t e m' m'' → ∀ sc ∈ m.due t p, sc ∉ m''.list (.pending t) ∧ (m''.list .free).count sc = 1

/-- The thread is killed; or the first due signal `s` with `s + 1` listed to end a thread is neither `SIGURG` nor
`SIGWINCH`, and if it is 0 another is listed itself; or there is none, and none of `SIGSTKFLT`, `SIGPROF` and
`SIGSYS` is due. -/
def Listed (t p : Nat) (m : Machine) : Prop :=
  (m.sched.threads t).killed = true ∨
  (∃ first, (m.due t p).find? m.fatal = some first ∧ m.signalOf first ≠ SIGURG ∧ m.signalOf first ≠ SIGWINCH ∧
    (m.signalOf first = 0 → ∃ sc ∈ m.due t p, (actionCase (m.signalOf sc)).fatal = true)) ∨
  ((m.due t p).find? m.fatal = none ∧ ∀ sc ∈ m.due t p, m.signalOf sc ∉ [SIGSTKFLT, SIGPROF, SIGSYS])

section Dispositions

variable {m m' m'' : Machine} {t p sc : Nat} {e : Exit}

/-- A context that is pending or free is free once the thread is destroyed. -/
theorem threadDestroy_freed (hl : Apart m.list) (hok : threadDestroy t m = .ok m')
    (hmem : sc ∈ m.list .free ∨ sc ∈ m.list (.pending t)) : sc ∈ m'.list .free ∧ Apart m'.list := by
  obtain ⟨l, s, hp, hh, hapart, -⟩ := threadDestroy_ok hl hok
  exact ⟨(hh.mem sc).mpr (.inl ((hp.mem sc).mpr hmem)), hapart⟩

theorem freed_once (hl : Apart m.list) (hfree : sc ∈ m.list .free) : sc ∉ m.list (.pending t) ∧ (m.list .free).count sc = 1 :=
  ⟨(fun hp => by cases hl.home _ _ sc hfree hp), List.count_eq_one_of_mem (hl.nodup .free) hfree⟩

/-- What is due is freed, whichever way `handleSignal` ends. -/
theorem due_freed {l : List Nat} {d : Option Nat} (hl : Apart m'.list) (hconsumed : Consumed t l d m')
    (he : e = .user → d = none) (hleaves : Leaves t e m' m'') (hsc : sc ∈ l) :
    sc ∉ m''.list (.pending t) ∧ (m''.list .free).count sc = 1 := by
  rcases hleaves with ⟨hu, rfl⟩ | ⟨-, hdestroy⟩
  · rcases hconsumed sc hsc with hfree | ⟨hd, -⟩
    · exact freed_once hl hfree
    · exact absurd (he hu) hd
  · have hmem : sc ∈ m'.list .free ∨ sc ∈ m'.list (.pending t) := by
      rcases hconsumed sc hsc with hfree | ⟨-, hp⟩
      · exact .inl hfree
      · exact .inr hp
    obtain ⟨hfree, hl''⟩ := threadDestroy_freed hl hdestroy hmem
    exact freed_once hl'' hfree

theorem signalOf_due (h : sc ∈ m.due t p) : sc ∈ m.list (.pending t) := due_subset _ _ _ _ _ sc h

/-- **`handleSignal` and its default actions.** Where the entries of the pending signals can be read, the default
dispositions hold exactly under this condition. -/
theorem disposes_iff (hmy : Sched.myThread m.sched = .ok (t, p)) (ht : t < PROCESS_TOTAL_NUMBER) (hl : Apart m.list)
    (hread : ∀ sc ∈ m.list (.pending t), m.Readable p sc) : Disposes t p m ↔ Listed t p m := by
  have hstart : handleSignal m = if (m.sched.threads t).killed then .ok (.killed, m)
      else handleLoop t p ((m.list (.pending t)).length + 1) m := by
    unfold handleSignal
    rw [hmy]
    rfl
  by_cases hkilled : (m.sched.threads t).killed = true
  · refine iff_of_true ⟨.killed, m, ?_, ?_, ?_, fun m'' hm'' sc hsc => ?_⟩ (.inl hkilled)
    · rw [hstart, if_pos hkilled]
    · exact iff_of_true (fun heq => by cases heq) (.inl hkilled)
    · exact fun sc heq => by cases heq
    · refine due_freed (d := some 0) hl (fun a ha => .inr ⟨(fun heq => by cases heq), ?_⟩) (fun heq => by cases heq) hm'' hsc
      exact signalOf_due ha
  · obtain ⟨m', hloop, hl', -, hconsumed⟩ := handleLoop_due (p := p) ht hl (List.nil_append _).symm
      (fun sc hsc => by cases hsc) hread (Nat.lt_succ_self _)
    rw [← hstart.trans (if_neg hkilled)] at hloop
    change handleSignal m = .ok (((m.due t p).find? m.fatal).elim .user .destroyed, m') at hloop
    change Consumed t (m.due t p) ((m.due t p).find? m.fatal) m' at hconsumed
    cases hfind : (m.due t p).find? m.fatal with
    | none =>
      have hnone : ∀ sc ∈ m.due t p, m.fatal sc = false := fun sc hsc =>
        Bool.eq_false_iff.mpr (List.find?_eq_none.mp hfind sc hsc)
      rw [hfind] at hloop hconsumed
      constructor
      · rintro ⟨e, m₁, heq, hiff, -⟩
        rw [hloop] at heq
        cases heq
        refine .inr (.inr ⟨hfind, fun sc hsc hmissed => hiff.mpr (.inr ⟨sc, hsc, ?_⟩) rfl⟩)
        exact (missed_iff (hnone sc hsc)).mpr hmissed
      · rintro (hk | ⟨first, heq, -⟩ | ⟨-, hmissed⟩)
        · exact absurd hk hkilled
        · rw [hfind] at heq
          cases heq
        · refine ⟨.user, m', hloop, iff_of_false (fun hne => hne rfl) ?_, ?_, fun m'' hm'' sc hsc => ?_⟩
          · rintro (hk | ⟨sc, hsc, hfatal⟩)
            · exact hkilled hk
            · exact hmissed sc hsc ((missed_iff (hnone sc hsc)).mp hfatal)
          · exact fun sc heq => by cases heq
          · exact due_freed hl' hconsumed (fun _ => rfl) hm'' hsc
    | some first =>
      have hfirst : m.fatal first = true := List.find?_some hfind
      rw [hfind] at hloop hconsumed
      constructor
      · rintro ⟨e, m₁, heq, hiff, hspared, -⟩
        rw [hloop] at heq
        cases heq
        have hnot := mt (spared_iff hfirst).mpr (hspared first rfl)
        refine .inr (.inl ⟨first, hfind, fun hs => hnot (.inl hs), fun hs => hnot (.inr hs), fun _ => ?_⟩)
        rcases hiff.mp (fun heq => by cases heq) with hk | hdue
        · exact absurd hk hkilled
        · exact hdue
      · rintro (hk | ⟨first', heq, hurg, hwinch, hzero⟩ | ⟨heq, -⟩)
        · exact absurd hk hkilled
        · rw [hfind] at heq
          cases heq
          have hnot : ¬ (m.signalOf first = SIGURG ∨ m.signalOf first = SIGWINCH) := fun hor => hor.elim hurg hwinch
          refine ⟨.destroyed first, m', hloop, iff_of_true (fun heq => by cases heq) (.inr ?_), fun sc heq => ?_,
            fun m'' hm'' sc hsc => due_freed hl' hconsumed (fun heq => by cases heq) hm'' hsc⟩
          · by_cases h₀ : m.signalOf first = 0
            · exact hzero h₀
            · exact ⟨first, List.mem_of_find?_eq_some hfind, fatal_of_succ hfirst h₀ hnot⟩
          · cases heq
            exact mt (spared_iff hfirst).mp hnot
        · rw [hfind] at heq
          cases heq

end Dispositions

/-- The first process sends itself a signal it has no handler for, and `handleSignal` takes it. -/
def defaultRun (sig : Int) : Except Stop (Machine × Exit) := do
  let m ← started >>= performAll [.kill 2048 sig]
  let (e, _) ← handleSignal m
  return (m, e)

theorem defaultRun_ok {sig : Int} {m : Machine} {e : Exit} (h : defaultRun sig = .ok (m, e)) :
    Reach (· = boot) (Step (fun _ _ => True) fun _ _ => True) m ∧ ∃ m', handleSignal m = .ok (e, m') := by
  obtain ⟨m₁, h₁, h⟩ := bind_ok h
  obtain ⟨⟨e', m'⟩, h₂, h⟩ := bind_ok h
  cases h
  obtain ⟨m₀, h₀, h₁⟩ := bind_ok h₁
  exact ⟨reach_performAll (reach_started (fun _ => trivial) (fun _ _ => trivial) h₀) (fun _ _ _ => trivial) h₁, m', h₂⟩

/-- `SIGTERM` has the default disposition and ends the process. -/
theorem disposes_iff_sigterm : ∃ m : Machine, (m.due 0 0).map m.signalOf = [SIGTERM] ∧ Disposes 0 0 m := by
  have hrun : ((defaultRun SIGTERM).toOption.map fun r => decide (r.1.sched.currentThread = some 0 ∧
      (r.1.sched.threads 0).process = some 0 ∧ (r.1.due 0 0).map r.1.signalOf = [SIGTERM] ∧
      (r.1.due 0 0).find? r.1.fatal = some 4095 ∧ r.1.signalOf 4095 = SIGTERM ∧
      ∀ sc ∈ r.1.list (.pending 0), ∀ i ∈ [0, 1, 2], r.1.mapped ((action 0 (r.1.signalOf sc) + i) / 512) = true)) = some true := by
    decide +kernel
  obtain ⟨⟨m, e⟩, hm, hfacts⟩ := exists_of_toOption hrun
  obtain ⟨hcur, hproc, hdue, hfirst, hsignal, hread⟩ := of_decide_eq_true hfacts
  obtain ⟨hreach, -⟩ := defaultRun_ok hm
  have hmy : Sched.myThread m.sched = .ok (0, 0) := by
    unfold Sched.myThread
    rw [hcur]
    dsimp only
    rw [hproc]
  refine ⟨m, hdue, (disposes_iff hmy (by decide) (apart_of_reach hreach) hread).mpr (.inr (.inl ⟨4095, hfirst, ?_⟩))⟩
  rw [hsignal]
  exact ⟨by decide, by decide, fun hzero => by cases hzero⟩

/-- `SIGURG`, which is to be ignored, destroys the thread. -/
theorem sigurg_destroys : ∃ m : Machine, (m.sched.threads 0).killed = false ∧ (m.due 0 0).map m.signalOf = [SIGURG] ∧
    Reach (· = boot) (Step (fun _ _ => True) fun _ _ => True) m ∧ ¬ Disposes 0 0 m := by
  have hrun : ((defaultRun SIGURG).toOption.map fun r => decide (r.2 = .destroyed 4095 ∧ (r.1.sched.threads 0).killed = false ∧
      (r.1.due 0 0).map r.1.signalOf = [SIGURG] ∧ r.1.signalOf 4095 = SIGURG)) = some true := by decide +kernel
  obtain ⟨⟨m, e⟩, hm, hfacts⟩ := exists_of_toOption hrun
  obtain ⟨he, hkilled, hdue, hsignal⟩ := of_decide_eq_true hfacts
  dsimp only at he hkilled hdue hsignal
  obtain ⟨hreach, m', hhandle⟩ := defaultRun_ok hm
  refine ⟨m, hkilled, hdue, hreach, ?_⟩
  rintro ⟨e', m'', heq, -, hspared, -⟩
  rw [hhandle, he] at heq
  cases heq
  refine hspared 4095 rfl ?_
  rw [hsignal]
  decide

end Exaros.Signal
