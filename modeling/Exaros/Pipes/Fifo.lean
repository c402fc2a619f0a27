import Exaros.Pipes.Pipe

/-!
# Pipes are bounded queues

What has been written into a pipe is what has been read from it followed by what the ring buffer holds
(`Carrying.queue`), whatever threads write and read in whatever order and wherever a long write is cut by
its sleeps. From that: reads return a prefix of the writes, the counters stay within `PIPESIZE` of each
other also after they wrap, and every call returns the count it should (`Done.Right`).

**What it does not establish.** That a call ever comes to its end.
-/

namespace Exaros.Pipes

open Function (update update_self update_of_ne)

/-- The bytes in the pipe. -/
def Pipe.avail (pi : Pipe) : Nat := Fifo.count pi.nread pi.nwrite

def Pipe.contents (pi : Pipe) : List UInt8 := Fifo.contents PIPESIZE pi.data pi.nread pi.nwrite

/-- `pipeWrite(n)` returns `n`; `pipeRead(n)` the bytes there were when it stopped waiting, at most `n` of
them, and 0 only for `n = 0` or at the end of the pipe. -/
def Done.Right : Done → Prop
  | .write n result => (result : Int) = n
  | .read n result stopped => 0 ≤ n → (result : Int) = min n stopped.avail ∧
      (result = 0 → n = 0 ∨ stopped.empty = true ∧ stopped.writeopen = false)

structure Carrying (s : World) : Prop where
  queue : ∀ p, s.sent p = s.rcvd p ++ (s.pipes p).contents
  bound : ∀ p, (s.pipes p).avail ≤ PIPESIZE
  small : ∀ t f, (s.threads t).frame = some f → (f.i : Int) ≤ max f.n 0
  waiting : ∀ t f, (s.threads t).frame = some f → f.phase = .wait → f.i = 0
  copying : ∀ t f stopped, (s.threads t).frame = some f → f.phase = .copy stopped → s.cur = some t ∧
    stopped.avail = f.i + (s.pipes f.pi).avail ∧ (stopped.empty = true → stopped.writeopen = false)
  inside : ∀ t, s.cur = some t → (s.threads t).frame.isSome
  right : ∀ d ∈ s.done, d.Right

/-! ## The ring buffer -/

section Ring

variable {pi : Pipe}

theorem dvd_size : PIPESIZE ∣ 2 ^ 64 := ⟨2 ^ 48, by decide⟩

theorem size_lt : PIPESIZE < 2 ^ 64 := by decide

theorem cell_eq (x : UInt64) : cell x = x.toNat % PIPESIZE := by
  rw [cell, UInt64.toNat_and]
  exact Nat.and_two_pow_sub_one_eq_mod _ 16

theorem full_iff : pi.full = true ↔ pi.avail = PIPESIZE := by
  rw [Pipe.full, decide_eq_true_iff, Pipe.avail, Fifo.count_eq_size size_lt]

theorem empty_iff : pi.empty = true ↔ pi.avail = 0 := by
  rw [Pipe.empty, decide_eq_true_iff, Pipe.avail, Fifo.count_eq_zero]

/-- A pipe that is not full has room. -/
theorem avail_lt (h : pi.avail ≤ PIPESIZE) (hf : pi.full = false) : pi.avail < PIPESIZE := by
  have : pi.avail ≠ PIPESIZE := fun e => by
    rw [full_iff.mpr e] at hf
    cases hf
  omega

theorem avail_ne (he : pi.empty = false) : pi.avail ≠ 0 := fun e => by
  rw [empty_iff.mpr e] at he
  cases he

theorem avail_push (h : pi.avail < PIPESIZE) (ch : UInt8) : (pi.push ch).avail = pi.avail + 1 :=
  Fifo.count_push h size_lt

theorem contents_push (h : pi.avail < PIPESIZE) (ch : UInt8) : (pi.push ch).contents = pi.contents ++ [ch] := by
  show Fifo.contents PIPESIZE (update pi.data (cell pi.nwrite) ch) pi.nread (pi.nwrite + 1) = _
  rw [cell_eq]
  exact Fifo.contents_push dvd_size size_lt h ch

theorem avail_pop (h : pi.avail ≠ 0) : pi.avail = pi.pop.2.avail + 1 :=
  Fifo.count_pop h

theorem contents_pop (h : pi.avail ≠ 0) : pi.contents = pi.pop.1 :: pi.pop.2.contents := by
  show Fifo.contents _ _ _ _ = pi.data (cell pi.nread) :: _
  rw [cell_eq]
  exact Fifo.contents_pop dvd_size h

end Ring

/-! ## The steps -/

section Steps

variable {s : World} {t p : Nat} {f : Frame} {s' : World}

/-- The invariant but for the pipes, for a state in which only thread `t` has a new frame. -/
theorem Carrying.goOn (h : Carrying s) (hcur : ∀ u, s.cur = some u → u = t)
    (hth : ∀ u, u ≠ t → s'.threads u = s.threads u) (hdone : s'.done = s.done)
    (hframe : (s'.threads t).frame = some f) (hc : s'.cur = some t) (hi : (f.i : Int) ≤ max f.n 0)
    (hwait : f.phase = .wait → f.i = 0)
    (hcopy : ∀ stopped, f.phase = .copy stopped → stopped.avail = f.i + (s'.pipes f.pi).avail ∧
      (stopped.empty = true → stopped.writeopen = false))
    (hqueue : ∀ p, s'.sent p = s'.rcvd p ++ (s'.pipes p).contents) (hbound : ∀ p, (s'.pipes p).avail ≤ PIPESIZE) :
    Carrying s' := by
  refine ⟨hqueue, hbound, fun u g hg => ?_, fun u g hg hph => ?_, fun u g stopped hg hph => ?_, fun u hu => ?_,
    by rw [hdone]; exact h.right⟩
  · by_cases hu : u = t
    · rw [hu, hframe, Option.some.injEq] at hg
      exact hg ▸ hi
    · rw [hth u hu] at hg
      exact h.small u g hg
  · by_cases hu : u = t
    · rw [hu, hframe, Option.some.injEq] at hg
      exact hg ▸ hwait (hg ▸ hph)
    · rw [hth u hu] at hg
      exact h.waiting u g hg hph
  · by_cases hu : u = t
    · rw [hu, hframe, Option.some.injEq] at hg
      subst hg
      exact ⟨by rw [hu]; exact hc, hcopy stopped hph⟩
    · rw [hth u hu] at hg
      exact (hu (hcur u (h.copying u g stopped hg hph).1)).elim
  · rw [hc, Option.some.injEq] at hu
    rw [← hu, hframe]
    rfl

/-- The invariant in a state in which the thread inside has left. -/
theorem Carrying.leave (h : Carrying s) (hcur : ∀ u, s.cur = some u → u = t)
    (hth : ∀ u g, (s'.threads u).frame = some g → (s.threads u).frame = some g)
    (hleft : ∀ g stopped, (s'.threads t).frame = some g → g.phase ≠ .copy stopped) (hc : s'.cur = none)
    (hpipes : s'.pipes = s.pipes) (hsent : s'.sent = s.sent) (hrcvd : s'.rcvd = s.rcvd) (hdone : ∀ d ∈ s'.done, d.Right) :
    Carrying s' := by
  refine ⟨fun p => by rw [hsent, hrcvd, hpipes]; exact h.queue p, fun p => by rw [hpipes]; exact h.bound p,
    fun u g hg => h.small u g (hth u g hg), fun u g hg hph => h.waiting u g (hth u g hg) hph,
    fun u g stopped hg hph => ?_, fun u hu => (Option.some_ne_none u (hu.symm.trans hc)).elim, hdone⟩
  have hut := hcur u (h.copying u g stopped (hth u g hg) hph).1
  subst hut
  exact (hleft g stopped hg hph).elim

/-- The invariant across a step outside the pipes. -/
theorem Carrying.outside (h : Carrying s) (hc : s.cur = none) (hc' : s'.cur = none)
    (hth : ∀ u, (s'.threads u).frame = (s.threads u).frame) (hdone : s'.done = s.done)
    (hqueue : ∀ p, s'.sent p = s'.rcvd p ++ (s'.pipes p).contents) (hbound : ∀ p, (s'.pipes p).avail ≤ PIPESIZE) :
    Carrying s' := by
  refine ⟨hqueue, hbound, fun u g hg => h.small u g (hth u ▸ hg), fun u g hg hph => h.waiting u g (hth u ▸ hg) hph,
    fun u g stopped hg hph => ?_, fun u hu => (Option.some_ne_none u (hu.symm.trans hc')).elim, by rw [hdone]; exact h.right⟩
  have := (h.copying u g stopped (hth u ▸ hg) hph).1
  exact (Option.some_ne_none u (this.symm.trans hc)).elim

theorem frame_wakeup (s : World) (c : Chan) (u : Nat) : ((s.wakeup c).threads u).frame = (s.threads u).frame := by
  simp only [World.wakeup]
  split
  · rfl
  · rfl

theorem frame_sleep (s : World) (c : Chan) (t u : Nat) : ((s.sleep t c).threads u).frame = (s.threads u).frame := by
  by_cases h : u = t
  · subst h
    simp [World.sleep, World.setThread]
  · simp [World.sleep, World.setThread, h]

theorem frame_ret {d : Done} {g : Frame} {u : Nat} (h : ((s.ret t d).threads u).frame = some g) :
    u ≠ t ∧ (s.threads u).frame = some g := by
  by_cases hu : u = t
  · subst hu
    simp [World.ret, World.setThread] at h
  · simpa [World.ret, World.setThread, hu] using h

/-- A byte that is written goes behind those in the pipe. -/
theorem Carrying.written {pa : Nat} {m : Mem} {ch : UInt8} (h : Carrying s) (hc : s.cur = some t) (hph : f.phase = .write) (hi : f.i < f.n) (hfull : (s.pipes f.pi).full = false) :
    Carrying (s.written t f ch pa m) := by
  have hroom := avail_lt (h.bound f.pi) hfull
  have hpipe : (s.written t f ch pa m).pipes f.pi = (s.pipes f.pi).push ch := update_self ..
  have hother : ∀ p, p ≠ f.pi → (s.written t f ch pa m).pipes p = s.pipes p := fun p hp => update_of_ne hp ..
  have hsent : ∀ p, (s.written t f ch pa m).sent p = update s.sent f.pi (s.sent f.pi ++ [ch]) p := fun _ => rfl
  refine h.goOn (t := t) (f := { f with i := f.i + 1, pa := pa }) (fun u hu => ?_) (fun u hu => ?_) rfl ?_ rfl ?_ ?_ ?_
    (fun p => ?_) fun p => ?_
  · exact Option.some.inj (hu.symm.trans hc)
  · simp [World.written, World.goOn, World.setThread, World.setPipe, hu]
  · simp [World.written, World.goOn, World.setThread]
  · show ((f.i + 1 : Nat) : Int) ≤ max f.n 0
    omega
  · intro hw
    rw [hph] at hw
    cases hw
  · intro stopped hcp
    rw [hph] at hcp
    cases hcp
  · by_cases hp : p = f.pi
    · subst hp
      rw [hpipe, contents_push hroom, hsent, update_self, h.queue, List.append_assoc]
      rfl
    · rw [hother p hp, hsent, update_of_ne hp]
      exact h.queue p
  · by_cases hp : p = f.pi
    · subst hp
      rw [hpipe, avail_push hroom]
      omega
    · rw [hother p hp]
      exact h.bound p

/-- The byte that is read is the first one in the pipe. -/
theorem Carrying.taken {pa : Nat} {m : Mem} {stopped : Pipe} (h : Carrying s) (hc : s.cur = some t)
    (hf : (s.threads t).frame = some f) (hph : f.phase = .copy stopped) (hi : f.i < f.n)
    (he : (s.pipes f.pi).empty = false) : Carrying (s.taken t f pa m) := by
  have hsome := avail_ne he
  have hpipe : (s.taken t f pa m).pipes f.pi = (s.pipes f.pi).pop.2 := update_self ..
  have hother : ∀ p, p ≠ f.pi → (s.taken t f pa m).pipes p = s.pipes p := fun p hp => update_of_ne hp ..
  have hrcvd : ∀ p, (s.taken t f pa m).rcvd p =
    update s.rcvd f.pi (s.rcvd f.pi ++ [(s.pipes f.pi).pop.1]) p := fun _ => rfl
  have havail := avail_pop hsome
  have hcopy := (h.copying t f stopped hf hph).2
  refine h.goOn (t := t) (f := { f with i := f.i + 1, pa := pa }) (fun u hu => ?_) (fun u hu => ?_) rfl ?_ rfl ?_ ?_ ?_
    (fun p => ?_) fun p => ?_
  · exact Option.some.inj (hu.symm.trans hc)
  · simp [World.taken, World.goOn, World.setThread, World.setPipe, hu]
  · simp [World.taken, World.goOn, World.setThread]
  · show ((f.i + 1 : Nat) : Int) ≤ max f.n 0
    omega
  · intro hw
    rw [hph] at hw
    cases hw
  · intro st hst
    have hst : f.phase = .copy st := hst
    rw [hph, Phase.copy.injEq] at hst
    rw [← hst]
    refine ⟨?_, hcopy.2⟩
    show stopped.avail = f.i + 1 + ((s.taken t f pa m).pipes f.pi).avail
    rw [hpipe, hcopy.1, havail]
    omega
  · show s.sent p = _
    by_cases hp : p = f.pi
    · subst hp
      rw [hpipe, hrcvd, update_self, h.queue, contents_pop hsome, List.append_assoc]
      rfl
    · rw [hother p hp, hrcvd, update_of_ne hp]
      exact h.queue p
  · by_cases hp : p = f.pi
    · subst hp
      rw [hpipe]
      have := h.bound f.pi
      omega
    · rw [hother p hp]
      exact h.bound p

/-- A reader that is done returns what there was, at most `n`. -/
theorem Carrying.took_right {stopped : Pipe} (h : Carrying s) (hf : (s.threads t).frame = some f)
    (hph : f.phase = .copy stopped) (hend : f.n ≤ f.i ∨ (s.pipes f.pi).empty = true) :
    (Done.read f.n f.i stopped).Right := by
  obtain ⟨-, havail, hclosed⟩ := h.copying t f stopped hf hph
  have hsmall := h.small t f hf
  intro hn
  have hempty : (s.pipes f.pi).empty = true → (s.pipes f.pi).avail = 0 := empty_iff.mp
  refine ⟨?_, fun h0 => ?_⟩
  · rcases hend with hend | hend
    · omega
    · have := hempty hend
      omega
  · by_cases hn0 : f.n = 0
    · exact .inl hn0
    · have hend : (s.pipes f.pi).empty = true := hend.resolve_left (by omega)
      have hst : stopped.empty = true := empty_iff.mpr (by have := hempty hend; omega)
      exact .inr ⟨hst, hclosed hst⟩

/-- **Every move** keeps the order, by cases. -/
theorem Carrying.move (h : Carrying s) (hm : Move s s') : Carrying s' := by
  cases hm with
  | enter t f m hc _ hi hph =>
    refine h.goOn (t := t) (f := f) (fun u hu => (Option.some_ne_none u (hu.symm.trans hc)).elim) (fun u hu => ?_) rfl ?_ rfl
      ?_ (fun _ => hi) ?_ h.queue h.bound
    · simp [World.goOn, World.setThread, hu]
    · simp [World.goOn, World.setThread]
    · omega
    · intro stopped hcp
      rw [hcp] at hph
      rcases hph with hph | hph
      · cases hph
      · cases hph
  | block t f hc hf hph _ _ _ =>
    have hframe : ∀ u, (((s.wakeup (.nread f.pi)).sleep t (.nwrite f.pi)).threads u).frame = (s.threads u).frame := fun u => by
      rw [frame_sleep, frame_wakeup]
    refine h.leave (t := t) (fun u hu => Option.some.inj (hu.symm.trans hc)) (fun u g hg => hframe u ▸ hg) ?_ rfl rfl rfl rfl
      h.right
    intro g stopped hg
    rw [hframe, hf, Option.some.injEq] at hg
    rw [← hg, hph]
    exact Phase.noConfusion
  | written t f pa m hc hf hph hi _ hfull => exact h.written hc hph hi hfull
  | wrote t f hc hf hph hi h0 =>
    refine h.leave (t := t) (fun u hu => Option.some.inj (hu.symm.trans hc)) (fun u g hg => ?_) (fun g st hg => ?_) rfl rfl rfl
      rfl fun d hd => ?_
    · exact frame_wakeup s _ u ▸ (frame_ret hg).2
    · exact ((frame_ret hg).1 rfl).elim
    · rcases List.mem_cons.mp hd with rfl | hd
      · have := h.small t f hf
        show (f.i : Int) = f.n
        omega
      · exact h.right d hd
  | wait t f hc hf hph _ _ =>
    refine h.leave (t := t) (fun u hu => Option.some.inj (hu.symm.trans hc)) (fun u g hg => frame_sleep s _ t u ▸ hg) ?_ rfl rfl
      rfl rfl h.right
    intro g stopped hg
    rw [frame_sleep, hf, Option.some.injEq] at hg
    rw [← hg, hph]
    exact Phase.noConfusion
  | stop t f hc hf hph hclosed =>
    refine h.goOn (t := t) (f := { f with phase := .copy (s.pipes f.pi) }) (fun u hu => Option.some.inj (hu.symm.trans hc))
      (fun u hu => ?_) rfl ?_ rfl (h.small t f hf) (fun _ => h.waiting t f hf hph) ?_ h.queue h.bound
    · simp [World.goOn, World.setThread, hu]
    · simp [World.goOn, World.setThread]
    · intro stopped hcp
      cases hcp
      refine ⟨?_, hclosed⟩
      show (s.pipes f.pi).avail = f.i + (s.pipes f.pi).avail
      rw [h.waiting t f hf hph, Nat.zero_add]
  | taken t f stopped pa m hc hf hph hi he => exact h.taken hc hf hph hi he
  | took t f stopped hc hf hph hend =>
    refine h.leave (t := t) (fun u hu => Option.some.inj (hu.symm.trans hc)) (fun u g hg => ?_) (fun g st hg => ?_) rfl rfl rfl
      rfl fun d hd => ?_
    · exact frame_wakeup s _ u ▸ (frame_ret hg).2
    · exact ((frame_ret hg).1 rfl).elim
    · rcases List.mem_cons.mp hd with rfl | hd
      · exact h.took_right hf hph hend
      · exact h.right d hd
  | resume t hc _ hf =>
    obtain ⟨f, hf⟩ := Option.isSome_iff_exists.mp hf
    refine h.goOn (t := t) (f := f) (fun u hu => (Option.some_ne_none u (hu.symm.trans hc)).elim) (fun u hu => ?_) rfl ?_ rfl
      (h.small t f hf) (h.waiting t f hf) ?_ h.queue h.bound
    · simp [World.resume, World.setThread, hu]
    · simp [World.resume, World.setThread, hf]
    · intro stopped hcp
      exact (Option.some_ne_none t ((h.copying t f stopped hf hcp).1.symm.trans hc)).elim
  | made p hc _ =>
    refine h.outside hc hc (fun _ => rfl) rfl (fun q => ?_) fun q => ?_
    · by_cases hq : q = p
      · subst hq
        have hnil : ((s.made q).pipes q).contents = [] := by
          rw [show (s.made q).pipes q = _ from update_self ..]
          exact Fifo.contents_eq_nil (Fifo.count_eq_zero.mpr rfl)
        rw [hnil]
        simp [World.made]
      · rw [show (s.made p).pipes q = s.pipes q from update_of_ne hq ..]
        simpa [World.made, hq] using h.queue q
    · by_cases hq : q = p
      · subst hq
        rw [show (s.made q).pipes q = _ from update_self .., Pipe.avail, Fifo.count_eq_zero.mpr rfl]
        exact Nat.zero_le _
      · rw [show (s.made p).pipes q = s.pipes q from update_of_ne hq ..]
        exact h.bound q
  | pipeClose p w hc =>
    obtain ⟨hpipes, hthreads, hcur, hsent, hrcvd, hdone, -⟩ := pipeClose_cases p w s
    have hcounts : ∀ q, ((pipeClose p w s).pipes q).contents = (s.pipes q).contents ∧
        ((pipeClose p w s).pipes q).avail = (s.pipes q).avail := fun q => by
      rw [hpipes]
      by_cases hq : q = p
      · subst hq
        cases w with
        | true => simp [World.wakeup, World.setPipe, Pipe.contents, Pipe.avail]
        | false => simp [World.wakeup, World.setPipe, Pipe.contents, Pipe.avail]
      · cases w with
        | true => simp [World.wakeup, World.setPipe, hq]
        | false => simp [World.wakeup, World.setPipe, hq]
    refine h.outside hc (hcur.trans hc) (fun u => ?_) hdone (fun q => ?_) fun q => ?_
    · rw [hthreads]
      cases w with
      | true => exact frame_wakeup ..
      | false => exact frame_wakeup ..
    · rw [hsent, hrcvd, (hcounts q).1]
      exact h.queue q
    · rw [(hcounts q).2]
      exact h.bound q
  | memory m hc => exact h.outside hc hc (fun _ => rfl) rfl h.queue h.bound

end Steps

variable {s : World} {t : Nat}

theorem Carrying.init (h : s.Init) : Carrying s := by
  obtain ⟨hpipes, -, hth, hcur, hlog, hdone⟩ := h
  have hnone : ∀ t f, (s.threads t).frame ≠ some f := fun t f hf => by
    rw [(hth t).2] at hf
    cases hf
  refine ⟨fun p => ?_, fun p => ?_, fun t f hf => (hnone t f hf).elim, fun t f hf => (hnone t f hf).elim,
    fun t f _ hf => (hnone t f hf).elim, fun t ht => ?_, fun d hd => ?_⟩
  · rw [(hlog p).1, (hlog p).2, hpipes]
    exact (Fifo.contents_eq_nil (Fifo.count_eq_zero.mpr rfl)).symm
  · rw [hpipes]
    exact Nat.zero_le _
  · rw [hcur] at ht
    cases ht
  · rw [hdone] at hd
    cases hd

theorem Reached.carrying (h : Reached s) : Carrying s :=
  h.invariant (fun _ => Carrying.init) fun _ _ hc hs => hc.move hs.move

/-! ## A call does not hang inside a pipe -/

/-- The hart's thread takes a turn. -/
def Turn (s s' : World) : Prop :=
  ∃ ld t f, s.cur = some t ∧ (s.threads t).frame = some f ∧ turn ld t f s = .ok s'

open Relation (ReflTransGen)

theorem writeTurn_kernel {ld : Loader} {f : Frame} (hk : f.isUser = false) (hi : f.i < f.n)
    (hro : (s.pipes f.pi).readopen = true) (hfull : (s.pipes f.pi).full = false) :
    writeTurn ld t f s = .ok (s.written t f (loadByte s.mem f.pa) (f.pa + 1) s.mem) := by
  simp [writeTurn, writeNext, hk, hi, hro, hfull, Except.map]

theorem copyTurn_kernel {ld : Loader} {f : Frame} {stopped : Pipe} (hk : f.isUser = false)
    (hi : f.i < f.n) (he : (s.pipes f.pi).empty = false) :
    copyTurn ld t f stopped s = .ok (s.taken t f (f.pa + 1) (storeByte s.mem f.pa (s.pipes f.pi).pop.1)) := by
  simp [copyTurn, readNext, hk, hi, he, Except.map]

/-- A write from a kernel buffer returns or sleeps, by induction on the bytes left. -/
theorem write_leaves (ld : Loader) (k : Nat) : ∀ {f : Frame} {s : World}, s.cur = some t →
    (s.threads t).frame = some f → f.phase = .write → f.isUser = false → 0 < f.n → (s.pipes f.pi).readopen = true →
    (f.n - f.i).toNat = k → ∃ s', ReflTransGen Turn s s' ∧ s'.cur = none := by
  induction k with
  | zero =>
    intro f s hc hf hph hk hn hro hleft
    have h0 : f.i ≠ 0 := by omega
    refine ⟨(s.wakeup (.nread f.pi)).ret t (.write f.n f.i), .single ⟨ld, t, f, hc, hf, ?_⟩, rfl⟩
    simp [turn, hph, writeTurn, show ¬ (f.i : Int) < f.n by omega, h0]
  | succ k ih =>
    intro f s hc hf hph hk hn hro hleft
    have hi : (f.i : Int) < f.n := by omega
    cases hfull : (s.pipes f.pi).full with
    | true =>
      refine ⟨(s.wakeup (.nread f.pi)).sleep t (.nwrite f.pi), .single ⟨ld, t, f, hc, hf, ?_⟩, rfl⟩
      simp [turn, hph, writeTurn, hi, hro, hfull]
    | false =>
      let f' : Frame := { f with i := f.i + 1, pa := f.pa + 1 }
      let s₁ := s.written t f (loadByte s.mem f.pa) (f.pa + 1) s.mem
      have hturn : Turn s s₁ := ⟨ld, t, f, hc, hf, by simpa [turn, hph] using writeTurn_kernel hk hi hro hfull⟩
      have hf' : (s₁.threads t).frame = some f' := by simp [s₁, f', World.written, World.goOn, World.setThread]
      have hro' : (s₁.pipes f'.pi).readopen = true := by
        simpa [s₁, f', World.written, World.goOn, World.setThread, World.setPipe, Pipe.push] using hro
      obtain ⟨s', hs', hout⟩ := ih (f := f') (s := s₁) rfl hf' hph hk hn hro' (by show (f.n - (f.i + 1 : Nat)).toNat = k; omega)
      exact ⟨s', .head hturn hs', hout⟩

/-- A read into a kernel buffer that has stopped waiting returns. -/
theorem copy_leaves (ld : Loader) (k : Nat) : ∀ {f : Frame} {s : World} {stopped : Pipe}, s.cur = some t →
    (s.threads t).frame = some f → f.phase = .copy stopped → f.isUser = false → (f.n - f.i).toNat = k →
    ∃ s', ReflTransGen Turn s s' ∧ s'.cur = none := by
  induction k with
  | zero =>
    intro f s stopped hc hf hph hk hleft
    refine ⟨(s.wakeup (.nwrite f.pi)).ret t (.read f.n f.i stopped), .single ⟨ld, t, f, hc, hf, ?_⟩, rfl⟩
    simp [turn, hph, copyTurn, show ¬ (f.i : Int) < f.n by omega]
  | succ k ih =>
    intro f s stopped hc hf hph hk hleft
    have hi : (f.i : Int) < f.n := by omega
    cases he : (s.pipes f.pi).empty with
    | true =>
      refine ⟨(s.wakeup (.nwrite f.pi)).ret t (.read f.n f.i stopped), .single ⟨ld, t, f, hc, hf, ?_⟩, rfl⟩
      simp [turn, hph, copyTurn, he]
    | false =>
      let f' : Frame := { f with i := f.i + 1, pa := f.pa + 1 }
      let s₁ := s.taken t f (f.pa + 1) (storeByte s.mem f.pa (s.pipes f.pi).pop.1)
      have hturn : Turn s s₁ := ⟨ld, t, f, hc, hf, by simpa [turn, hph] using copyTurn_kernel hk hi he⟩
      have hf' : (s₁.threads t).frame = some f' := by simp [s₁, f', World.taken, World.goOn, World.setThread]
      obtain ⟨s', hs', hout⟩ := ih (f := f') (s := s₁) rfl hf' hph hk (by show (f.n - (f.i + 1 : Nat)).toNat = k; omega)
      exact ⟨s', .head hturn hs', hout⟩

/-- A call with a kernel buffer, with the read end open while it writes, leaves the pipe. -/
theorem call_leaves {f : Frame} (hc : s.cur = some t) (hf : (s.threads t).frame = some f)
    (hk : f.isUser = false) (hw : f.phase = .write → 0 < f.n ∧ (s.pipes f.pi).readopen = true) :
    ∃ s', ReflTransGen Turn s s' ∧ s'.cur = none := by
  let ld := noLoader
  cases hph : f.phase with
  | write => exact write_leaves ld _ hc hf hph hk (hw hph).1 (hw hph).2 rfl
  | copy stopped => exact copy_leaves ld _ hc hf hph hk rfl
  | wait =>
    have hturn : Turn s (waitTurn t f s) := ⟨ld, t, f, hc, hf, by simp [turn, hph]⟩
    by_cases hsleep : (s.pipes f.pi).empty = true ∧ (s.pipes f.pi).writeopen = true
    · refine ⟨_, .single hturn, ?_⟩
      simp [waitTurn, hsleep, World.sleep]
    · have hstop : waitTurn t f s = s.goOn t { f with phase := .copy (s.pipes f.pi) } := by
        rw [waitTurn, if_neg hsleep]
      rw [hstop] at hturn
      obtain ⟨s', hs', hout⟩ := copy_leaves ld _ (s := s.goOn t { f with phase := .copy (s.pipes f.pi) }) (t := t)
        (f := { f with phase := .copy (s.pipes f.pi) }) rfl (by simp [World.goOn, World.setThread]) rfl hk rfl
      exact ⟨s', .head hturn hs', hout⟩

/-- **Pipes are bounded queues.** In every state a run reaches: the bytes read from a pipe are a prefix of
the bytes written to it and the rest, at most `PIPESIZE` bytes, is what the wrapping counters say; every
call that returned gave the right count; and a call with a kernel buffer that is inside a pipe, with its
read end open if it writes, goes on to return or to sleep. -/
theorem pipe_fifo (s : World) (h : Reached s) :
    (∀ p, s.rcvd p <+: s.sent p ∧ (s.sent p).length = (s.rcvd p).length + ((s.pipes p).nwrite - (s.pipes p).nread).toNat ∧
      ((s.pipes p).nwrite - (s.pipes p).nread).toNat ≤ PIPESIZE) ∧
    (∀ d ∈ s.done, d.Right) ∧
    ∀ t f, s.cur = some t → (s.threads t).frame = some f → f.isUser = false →
      (f.phase = .write → 0 < f.n ∧ (s.pipes f.pi).readopen = true) → ∃ s', ReflTransGen Turn s s' ∧ s'.cur = none := by
  have hcar := h.carrying
  refine ⟨fun p => ⟨⟨_, (hcar.queue p).symm⟩, ?_, hcar.bound p⟩, hcar.right, fun t f hc hf hk hw => call_leaves hc hf hk hw⟩
  rw [hcar.queue p, List.length_append]
  exact congrArg _ Fifo.length_contents

/-- Thread 0 writes one byte from a kernel buffer. -/
def writeFrame : Frame :=
  { pi := 0, isUser := false, pgdir := 0, addr := 0x80400000, n := 1, i := 0, pa := 0x80400000, phase := .write }

/-- Thread 1 asks for two bytes. -/
def readerFrame : Frame :=
  { pi := 0, isUser := false, pgdir := 0, addr := 0x80401000, n := 2, i := 0, pa := 0x80401000, phase := .wait }

/-- The byte that thread 0 writes is the one that thread 1 reads, which returns with it alone. -/
theorem pipe_fifo_writeRead : ∃ s, Reached s ∧ s.sent 0 = [0] ∧ s.rcvd 0 = [0] ∧
    (∃ stopped, s.done = [.read 2 1 stopped, .write 1 1]) ∧ s.rcvd 0 <+: s.sent 0 ∧ ∀ d ∈ s.done, d.Right := by
  let s₁ := (boot noMem).made 0
  let s₂ := s₁.goOn 0 writeFrame
  let s₃ := s₂.written 0 writeFrame 0 0x80400001 noMem
  let s₄ := (s₃.wakeup (.nread 0)).ret 0 (.write 1 1)
  have h₁ : Reached s₁ := .step (.init (boot_init noMem)) (.pipeNew 0 rfl (pipeNew_boot noMem))
  have h₂ : Reached s₂ :=
    .step h₁ (.write noLoader 0 0 false 0 0x80400000 1 rfl (by simp [s₁, boot, World.made, World.setPipe]) rfl rfl)
  have h₃ : Reached s₃ := by
    refine .step h₂ (.turn noLoader 0 writeFrame rfl rfl ?_)
    show writeTurn noLoader 0 writeFrame s₂ = _
    have hfull : (s₂.pipes writeFrame.pi).full = false := by
      decide
    rw [writeTurn_kernel (by rfl) (by decide) (by rfl) hfull]
    rfl
  have h₄ : Reached s₄ := by
    refine .step h₃ (.turn noLoader 0 { writeFrame with i := 1, pa := 0x80400001 } rfl rfl ?_)
    rfl
  -- the reader
  let s₅ := s₄.goOn 1 readerFrame
  let f₆ : Frame := { readerFrame with phase := .copy (s₅.pipes 0) }
  let s₆ := s₅.goOn 1 f₆
  let s₇ := s₆.taken 1 f₆ (f₆.pa + 1) (storeByte s₆.mem f₆.pa (s₆.pipes f₆.pi).pop.1)
  let s₈ := (s₇.wakeup (.nwrite 0)).ret 1 (.read 2 1 (s₅.pipes 0))
  have h₅ : Reached s₅ := .step h₄ (.read noLoader 1 0 false 0 0x80401000 2 rfl (by decide) rfl rfl)
  have h₆ : Reached s₆ := .step h₅ (.turn noLoader 1 readerFrame rfl rfl rfl)
  have h₇ : Reached s₇ := by
    refine .step h₆ (.turn noLoader 1 f₆ rfl rfl ?_)
    have hempty : (s₆.pipes f₆.pi).empty = false := by
      decide
    exact copyTurn_kernel (by rfl) (by decide) hempty
  have h₈ : Reached s₈ := by
    refine .step h₇ (.turn noLoader 1 { f₆ with i := 1, pa := 0x80401001 } rfl rfl ?_)
    rfl
  obtain ⟨hqueue, hright, -⟩ := pipe_fifo s₈ h₈
  have hbyte : (s₆.pipes f₆.pi).pop.1 = 0 := by
    show Function.update (s₂.pipes 0).data (cell (s₂.pipes 0).nwrite) 0 (cell (s₂.pipes 0).nread) = 0
    have hcell : cell (s₂.pipes 0).nread = cell (s₂.pipes 0).nwrite := rfl
    rw [hcell, Function.update_self]
  exact ⟨s₈, h₈, rfl, congrArg (fun b => [b]) hbyte, ⟨_, rfl⟩, (hqueue 0).1, hright⟩

end Exaros.Pipes
