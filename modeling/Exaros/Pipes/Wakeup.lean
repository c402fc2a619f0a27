import Exaros.Pipes.Pipe

/-!
# No lost wakeup

A thread asleep in a pipe is waiting for something that has not happened. While a writer is inside the
pipe its readers may sleep beside new bytes, and while a reader is inside its writers may sleep beside new
room; each wakes the other side before it leaves. `Awake` is the invariant with that exception, and
`sleepers_wait` is what is left of it when no thread is inside a pipe.

**What it does not establish.** When a thread that has been woken runs.
-/

namespace Exaros.Pipes

def Sleeps (s : World) (t : Nat) (c : Chan) : Prop := (s.threads t).state = .sleeping ∧ (s.threads t).channel = some c

/-- The thread on the hart is in a loop of pipe `p` that meets `loop`. -/
def Inside (s : World) (p : Nat) (loop : Phase → Prop) : Prop :=
  ∃ t f, s.cur = some t ∧ (s.threads t).frame = some f ∧ f.pi = p ∧ loop f.phase

def Phase.Writes (ph : Phase) : Prop := ph = .write

def Phase.Copies (ph : Phase) : Prop := ∃ stopped, ph = .copy stopped

structure Awake (s : World) : Prop where
  reader : ∀ t p, Sleeps s t (.nread p) →
    (s.pipes p).empty = true ∧ (s.pipes p).writeopen = true ∨ Inside s p Phase.Writes
  writer : ∀ t p, Sleeps s t (.nwrite p) →
    (s.pipes p).full = true ∧ (s.pipes p).readopen = true ∨ Inside s p Phase.Copies
  free : ∀ p, Bitmap.get s.pipeBitMap p = false → (s.pipes p).readopen = false ∧ (s.pipes p).writeopen = false

/-! ## Sleepers under the updates -/

section Sleepers

variable {s : World} {t u : Nat} {c d : Chan} {f : Frame} {p : Nat} {pi : Pipe}

theorem sleeps_goOn : Sleeps (s.goOn t f) u c ↔ u ≠ t ∧ Sleeps s u c := by
  by_cases h : u = t
  · subst h
    simp [Sleeps, World.goOn, World.setThread]
  · simp [Sleeps, World.goOn, World.setThread, h]

theorem sleeps_resume : Sleeps (s.resume t) u c ↔ u ≠ t ∧ Sleeps s u c := by
  by_cases h : u = t
  · subst h
    simp [Sleeps, World.resume, World.setThread]
  · simp [Sleeps, World.resume, World.setThread, h]

theorem sleeps_ret {r : Done} : Sleeps (s.ret t r) u c ↔ u ≠ t ∧ Sleeps s u c := by
  by_cases h : u = t
  · subst h
    simp [Sleeps, World.ret, World.setThread]
  · simp [Sleeps, World.ret, World.setThread, h]

theorem sleeps_sleep : Sleeps (s.sleep t d) u c ↔ u = t ∧ d = c ∨ u ≠ t ∧ Sleeps s u c := by
  by_cases h : u = t
  · subst h
    simp [Sleeps, World.sleep, World.setThread]
  · simp [Sleeps, World.sleep, World.setThread, h]

theorem sleeps_wakeup : Sleeps (s.wakeup d) u c ↔ c ≠ d ∧ Sleeps s u c := by
  by_cases h : (s.threads u).state = .sleeping ∧ (s.threads u).channel = some d
  · simp only [Sleeps, World.wakeup, h, and_self, if_true, reduceCtorEq, false_and, Option.some.injEq,
      true_and, false_iff, not_and]
    exact fun hne e => hne e.symm
  · simp only [Sleeps, World.wakeup, h, if_false]
    constructor
    · exact fun hs => ⟨fun e => h ⟨hs.1, by rw [hs.2, e]⟩, hs⟩
    · exact fun hs => hs.2

end Sleepers

/-! ## The steps -/

section Steps

variable {s : World} {t p : Nat} {f : Frame} {loop : Phase → Prop}

theorem Inside.eq (h : Inside s p loop) (hc : s.cur = some t) (hf : (s.threads t).frame = some f) :
    f.pi = p ∧ loop f.phase := by
  obtain ⟨t', f', hc', hf', hpi, hloop⟩ := h
  rw [hc, Option.some.injEq] at hc'
  rw [← hc', hf, Option.some.injEq] at hf'
  exact ⟨hf' ▸ hpi, hf' ▸ hloop⟩

theorem not_inside (h : s.cur = none) : ¬ Inside s p loop := by
  rintro ⟨t, f, hc, -⟩
  rw [h] at hc
  cases hc

/-- With no thread inside a pipe, sleeping readers wait for bytes and sleeping writers for room. -/
theorem Awake.quiet (h : Awake s) (hc : s.cur = none) :
    (∀ t p, Sleeps s t (.nread p) → (s.pipes p).empty = true ∧ (s.pipes p).writeopen = true) ∧
      ∀ t p, Sleeps s t (.nwrite p) → (s.pipes p).full = true ∧ (s.pipes p).readopen = true :=
  ⟨fun t p hs => (h.reader t p hs).resolve_right (not_inside hc),
    fun t p hs => (h.writer t p hs).resolve_right (not_inside hc)⟩

/-- The thread inside is in `pipeWrite`: sleeping writers wait for room, and readers for bytes except
in this pipe. -/
theorem Awake.writing (h : Awake s) (hc : s.cur = some t) (hf : (s.threads t).frame = some f) (hph : f.phase = .write) :
    (∀ u p, Sleeps s u (.nread p) → p ≠ f.pi → (s.pipes p).empty = true ∧ (s.pipes p).writeopen = true) ∧
      ∀ u p, Sleeps s u (.nwrite p) → (s.pipes p).full = true ∧ (s.pipes p).readopen = true := by
  refine ⟨fun u p hs hp => (h.reader u p hs).resolve_right fun hin => hp (hin.eq hc hf).1.symm,
    fun u p hs => (h.writer u p hs).resolve_right fun hin => ?_⟩
  obtain ⟨stopped, hcopy⟩ := (hin.eq hc hf).2
  rw [hph] at hcopy
  cases hcopy

/-- The thread inside waits for bytes: every sleeper has its reason. -/
theorem Awake.waiting (h : Awake s) (hc : s.cur = some t) (hf : (s.threads t).frame = some f) (hph : f.phase = .wait) :
    (∀ u p, Sleeps s u (.nread p) → (s.pipes p).empty = true ∧ (s.pipes p).writeopen = true) ∧
      ∀ u p, Sleeps s u (.nwrite p) → (s.pipes p).full = true ∧ (s.pipes p).readopen = true := by
  refine ⟨fun u p hs => (h.reader u p hs).resolve_right fun hin => ?_,
    fun u p hs => (h.writer u p hs).resolve_right fun hin => ?_⟩
  · have hw : f.phase = .write := (hin.eq hc hf).2
    rw [hph] at hw
    cases hw
  · obtain ⟨stopped, hcopy⟩ := (hin.eq hc hf).2
    rw [hph] at hcopy
    cases hcopy

/-- The thread inside copies bytes out: sleeping readers wait for bytes, and writers for room except in
this pipe. -/
theorem Awake.copying {stopped : Pipe} (h : Awake s) (hc : s.cur = some t) (hf : (s.threads t).frame = some f)
    (hph : f.phase = .copy stopped) :
    (∀ u p, Sleeps s u (.nread p) → (s.pipes p).empty = true ∧ (s.pipes p).writeopen = true) ∧
      ∀ u p, Sleeps s u (.nwrite p) → p ≠ f.pi → (s.pipes p).full = true ∧ (s.pipes p).readopen = true := by
  refine ⟨fun u p hs => (h.reader u p hs).resolve_right fun hin => ?_,
    fun u p hs hp => (h.writer u p hs).resolve_right fun hin => hp (hin.eq hc hf).1.symm⟩
  have hw : f.phase = .write := (hin.eq hc hf).2
  rw [hph] at hw
  cases hw

/-- Closing an end wakes who waits at the other. -/
theorem Awake.close (h : Awake s) (hc : s.cur = none) (p : Nat) (writable : Bool) : Awake (pipeClose p writable s) := by
  obtain ⟨hr, hw⟩ := h.quiet hc
  obtain ⟨hpipes, hthreads, -, -, -, -, hfree⟩ := pipeClose_cases p writable s
  have hsleeps : ∀ u c, Sleeps (pipeClose p writable s) u c ↔ c ≠ (if writable then Chan.nread p else .nwrite p) ∧ Sleeps s u c := by
    intro u c
    rw [Sleeps, hthreads]
    cases writable with
    | true => exact sleeps_wakeup
    | false => exact sleeps_wakeup
  cases writable with
  | true =>
    have hq : ∀ q, q ≠ p → (pipeClose p true s).pipes q = s.pipes q := fun q hq => by
      rw [hpipes]
      exact Function.update_of_ne hq ..
    have hp : (pipeClose p true s).pipes p = { s.pipes p with writeopen := false } := by
      rw [hpipes]
      exact Function.update_self ..
    refine ⟨fun u q hs => ?_, fun u q hs => ?_, fun q hbit => ?_⟩
    · obtain ⟨hne, hs⟩ := (hsleeps u _).mp hs
      rw [hq q fun e => hne (by rw [e]; rfl)]
      exact .inl (hr u q hs)
    · have hfw := hw u q ((hsleeps u _).mp hs).2
      by_cases hqp : q = p
      · subst hqp
        rw [hp]
        exact .inl hfw
      · rw [hq q hqp]
        exact .inl hfw
    · rcases hfree q hbit with hold | ⟨rfl, hboth⟩
      · have := h.free q hold
        by_cases hqp : q = p
        · subst hqp
          rw [hp]
          exact ⟨this.1, rfl⟩
        · rw [hq q hqp]
          exact this
      · rw [hpipes]
        exact hboth
  | false =>
    have hq : ∀ q, q ≠ p → (pipeClose p false s).pipes q = s.pipes q := fun q hq => by
      rw [hpipes]
      exact Function.update_of_ne hq ..
    have hp : (pipeClose p false s).pipes p = { s.pipes p with readopen := false } := by
      rw [hpipes]
      exact Function.update_self ..
    refine ⟨fun u q hs => ?_, fun u q hs => ?_, fun q hbit => ?_⟩
    · have hfr := hr u q ((hsleeps u _).mp hs).2
      by_cases hqp : q = p
      · subst hqp
        rw [hp]
        exact .inl hfr
      · rw [hq q hqp]
        exact .inl hfr
    · obtain ⟨hne, hs⟩ := (hsleeps u _).mp hs
      rw [hq q fun e => hne (by rw [e]; rfl)]
      exact .inl (hw u q hs)
    · rcases hfree q hbit with hold | ⟨rfl, hboth⟩
      · have := h.free q hold
        by_cases hqp : q = p
        · subst hqp
          rw [hp]
          exact ⟨rfl, this.2⟩
        · rw [hq q hqp]
          exact this
      · rw [hpipes]
        exact hboth

/-- **Every move**: nobody sleeps on, by cases. -/
theorem Awake.move {s' : World} (h : Awake s) (hm : Move s s') : Awake s' := by
  cases hm with
  | enter t f m hc _ _ _ =>
    obtain ⟨hr, hw⟩ := h.quiet hc
    exact ⟨fun u p hs => .inl (hr u p (sleeps_goOn.mp hs).2), fun u p hs => .inl (hw u p (sleeps_goOn.mp hs).2), h.free⟩
  | block t f hc hf hph hi hro hfull =>
    obtain ⟨hr, hw⟩ := h.writing hc hf hph
    refine ⟨fun u p hs => ?_, fun u p hs => ?_, h.free⟩
    · rcases sleeps_sleep.mp hs with ⟨-, e⟩ | ⟨-, hs⟩
      · cases e
      · obtain ⟨hne, hs⟩ := sleeps_wakeup.mp hs
        exact .inl (hr u p hs fun e => hne (by rw [e]))
    · rcases sleeps_sleep.mp hs with ⟨-, e⟩ | ⟨-, hs⟩
      · cases e
        exact .inl ⟨hfull, hro⟩
      · exact .inl (hw u p (sleeps_wakeup.mp hs).2)
  | written t f pa m hc hf hph hi hro hfull =>
    obtain ⟨hr, hw⟩ := h.writing hc hf hph
    have hother : ∀ p, p ≠ f.pi → (s.written t f (loadByte s.mem f.pa) pa m).pipes p = s.pipes p := fun p hp =>
      Function.update_of_ne hp ..
    refine ⟨fun u p hs => ?_, fun u p hs => ?_, fun p hp => ?_⟩
    · by_cases hpf : p = f.pi
      · exact .inr ⟨t, { f with i := f.i + 1, pa := pa }, rfl, by simp [World.written, World.goOn, World.setThread],
          hpf.symm, hph⟩
      · rw [hother p hpf]
        exact .inl (hr u p (sleeps_goOn.mp hs).2 hpf)
    · have hfw := hw u p (sleeps_goOn.mp hs).2
      have hpf : p ≠ f.pi := fun e => by
        rw [e, hfull] at hfw
        cases hfw.1
      rw [hother p hpf]
      exact .inl hfw
    · by_cases hpf : p = f.pi
      · subst hpf
        simpa [World.written, World.goOn, World.setPipe, World.setThread, Pipe.push] using h.free f.pi hp
      · rw [hother p hpf]
        exact h.free p hp
  | wrote t f hc hf hph hi h0 =>
    obtain ⟨hr, hw⟩ := h.writing hc hf hph
    refine ⟨fun u p hs => ?_, fun u p hs => ?_, h.free⟩
    · obtain ⟨hne, hs⟩ := sleeps_wakeup.mp (sleeps_ret.mp hs).2
      exact .inl (hr u p hs fun e => hne (by rw [e]))
    · exact .inl (hw u p (sleeps_wakeup.mp (sleeps_ret.mp hs).2).2)
  | wait t f hc hf hph he hwo =>
    obtain ⟨hr, hw⟩ := h.waiting hc hf hph
    refine ⟨fun u p hs => ?_, fun u p hs => ?_, h.free⟩
    · rcases sleeps_sleep.mp hs with ⟨-, e⟩ | ⟨-, hs⟩
      · cases e
        exact .inl ⟨he, hwo⟩
      · exact .inl (hr u p hs)
    · rcases sleeps_sleep.mp hs with ⟨-, e⟩ | ⟨-, hs⟩
      · cases e
      · exact .inl (hw u p hs)
  | stop t f hc hf hph _ =>
    obtain ⟨hr, hw⟩ := h.waiting hc hf hph
    exact ⟨fun u p hs => .inl (hr u p (sleeps_goOn.mp hs).2), fun u p hs => .inl (hw u p (sleeps_goOn.mp hs).2), h.free⟩
  | taken t f stopped pa m hc hf hph hi he =>
    obtain ⟨hr, hw⟩ := h.copying hc hf hph
    have hother : ∀ p, p ≠ f.pi → (s.taken t f pa m).pipes p = s.pipes p := fun p hp => Function.update_of_ne hp ..
    refine ⟨fun u p hs => ?_, fun u p hs => ?_, fun p hp => ?_⟩
    · have hfr := hr u p (sleeps_goOn.mp hs).2
      have hpf : p ≠ f.pi := fun e => by
        rw [e, he] at hfr
        cases hfr.1
      rw [hother p hpf]
      exact .inl hfr
    · by_cases hpf : p = f.pi
      · exact .inr ⟨t, { f with i := f.i + 1, pa := pa }, rfl, by simp [World.taken, World.goOn, World.setThread],
          hpf.symm, stopped, hph⟩
      · rw [hother p hpf]
        exact .inl (hw u p (sleeps_goOn.mp hs).2 hpf)
    · by_cases hpf : p = f.pi
      · subst hpf
        simpa [World.taken, World.goOn, World.setPipe, World.setThread, Pipe.pop] using h.free f.pi hp
      · rw [hother p hpf]
        exact h.free p hp
  | took t f stopped hc hf hph _ =>
    obtain ⟨hr, hw⟩ := h.copying hc hf hph
    refine ⟨fun u p hs => ?_, fun u p hs => ?_, h.free⟩
    · exact .inl (hr u p (sleeps_wakeup.mp (sleeps_ret.mp hs).2).2)
    · obtain ⟨hne, hs⟩ := sleeps_wakeup.mp (sleeps_ret.mp hs).2
      exact .inl (hw u p hs fun e => hne (by rw [e]))
  | resume t hc _ _ =>
    obtain ⟨hr, hw⟩ := h.quiet hc
    exact ⟨fun u p hs => .inl (hr u p (sleeps_resume.mp hs).2), fun u p hs => .inl (hw u p (sleeps_resume.mp hs).2),
      h.free⟩
  | made p hc hfree =>
    obtain ⟨hr, hw⟩ := h.quiet hc
    have hother : ∀ q, q ≠ p → (s.made p).pipes q = s.pipes q := fun q hq => Function.update_of_ne hq ..
    -- a free pipe has both ends closed, so nobody sleeps in it
    refine ⟨fun u q hs => ?_, fun u q hs => ?_, fun q hq => ?_⟩
    · have hfr := hr u q hs
      have hqp : q ≠ p := fun e => by
        rw [e, (h.free p hfree).2] at hfr
        cases hfr.2
      rw [hother q hqp]
      exact .inl hfr
    · have hfw := hw u q hs
      have hqp : q ≠ p := fun e => by
        rw [e, (h.free p hfree).1] at hfw
        cases hfw.2
      rw [hother q hqp]
      exact .inl hfw
    · simp only [World.made, Bitmap.get_set, Bool.or_eq_false_iff, decide_eq_false_iff_not] at hq
      rw [hother q hq.1]
      exact h.free q hq.2
  | pipeClose p w hc => exact h.close hc p w
  | memory m hc => exact ⟨h.reader, h.writer, h.free⟩

end Steps

theorem Awake.init {s : World} (h : s.Init) : Awake s := by
  obtain ⟨hpipes, hbm, hth, -, -, -⟩ := h
  refine ⟨fun t p hs => ((hth t).1 hs.1).elim, fun t p hs => ((hth t).1 hs.1).elim, fun p _ => ?_⟩
  rw [hpipes]
  exact ⟨rfl, rfl⟩

theorem Reached.awake {s : World} (h : Reached s) : Awake s :=
  h.invariant (fun _ => Awake.init) fun _ _ ha hs => ha.move hs.move

/-- **No lost wakeup.** Whenever no thread is inside a pipe, a thread asleep on `&pi->nread` finds the pipe
empty and its write end open, and one asleep on `&pi->nwrite` finds it full and its read end open. -/
theorem sleepers_wait (s : World) (h : Reached s) (hc : s.cur = none) (t p : Nat) :
    ((s.threads t).state = .sleeping → (s.threads t).channel = some (.nread p) →
      (s.pipes p).nread = (s.pipes p).nwrite ∧ (s.pipes p).writeopen = true) ∧
    ((s.threads t).state = .sleeping → (s.threads t).channel = some (.nwrite p) →
      (s.pipes p).nwrite = (s.pipes p).nread + UInt64.ofNat PIPESIZE ∧ (s.pipes p).readopen = true) := by
  obtain ⟨hr, hw⟩ := h.awake.quiet hc
  constructor
  · intro hst hch
    obtain ⟨he, hwo⟩ := hr t p ⟨hst, hch⟩
    exact ⟨of_decide_eq_true he, hwo⟩
  · intro hst hch
    obtain ⟨hf, hro⟩ := hw t p ⟨hst, hch⟩
    exact ⟨of_decide_eq_true hf, hro⟩

/-! ## A reader that waits -/

/-- Thread 0 reads one byte from the new pipe into a kernel buffer. -/
def readFrame : Frame :=
  { pi := 0, isUser := false, pgdir := 0, addr := 0x80400000, n := 1, i := 0, pa := 0x80400000, phase := .wait }

/-- A reader of an empty pipe has gone to sleep. -/
theorem sleepers_wait_reader : ∃ s, Reached s ∧ s.cur = none ∧ (s.threads 0).state = .sleeping ∧
    (s.threads 0).channel = some (.nread 0) ∧ (s.pipes 0).nread = (s.pipes 0).nwrite ∧ (s.pipes 0).writeopen = true := by
  let s₁ := (boot noMem).made 0
  let s₂ := s₁.goOn 0 readFrame
  let s₃ := s₂.sleep 0 (.nread 0)
  have h₁ : Reached s₁ := .step (.init (boot_init noMem)) (.pipeNew 0 rfl (pipeNew_boot noMem))
  have h₂ : Reached s₂ := .step h₁ (.read noLoader 0 0 false 0 0x80400000 1 rfl (by simp [s₁, boot, World.made, World.setPipe]) rfl rfl)
  have h₃ : Reached s₃ := by
    refine .step h₂ (.turn noLoader 0 readFrame rfl rfl ?_)
    rfl
  exact ⟨s₃, h₃, rfl, rfl, rfl, (sleepers_wait s₃ h₃ rfl 0 0).1 rfl rfl⟩

end Exaros.Pipes
