import Exaros.Files.Runs
import Exaros.Memory.Faults

/-!
# Reading and writing pipes through descriptors

`syscallRead` and `syscallWrite` on pipes, over processes that also dup, fork, close and exit. A thread
enters a pipe, takes turns on the hart until it sleeps or returns, and may find at each turn that the other
end has gone or that the next page of its buffer is not there. `Act.Meets` says when the kernel gets through
each of these, and no run of such steps panics.
-/

namespace Exaros.Files

open Loop
open Pipes (World Loader Frame)

/-! ## The calls -/

def liftPipe (k : Kernel) : Except Pipes.Halt World → Except Halt Kernel
  | .ok w => .ok { k with world := w }
  | .error e => .error (.pipe e)

/-- `filewrite` of thread `t` of process `p`; a file that is no pipe is left to `other`. A call that enters
a pipe has no result yet. -/
def filewrite (ld : Loader) (other : Kernel → Except Halt (Option Int × Kernel)) (t p f uva : Nat) (n : Int) (k : Kernel) :
    Except Halt (Option Int × Kernel) :=
  if (k.files f).writable = false then .ok (some (-1), k)
  else if (k.files f).type = .pipe then
    (liftPipe k (Pipes.enterWrite ld t (k.files f).pipe true (k.procs p).pgdir uva n k.world)).map fun k => (none, k)
  else other k

def fileread (ld : Loader) (other : Kernel → Except Halt (Option Int × Kernel)) (t p f uva : Nat) (n : Int) (k : Kernel) :
    Except Halt (Option Int × Kernel) :=
  if (k.files f).readable = false then .ok (some (-1), k)
  else if (k.files f).type = .pipe then
    (liftPipe k (Pipes.enterRead ld t (k.files f).pipe true (k.procs p).pgdir uva n k.world)).map fun k => (none, k)
  else other k

def syscallWrite (ld : Loader) (other : Kernel → Except Halt (Option Int × Kernel)) (t p : Nat) (fd : Int) (uva : Nat)
    (len : Int) (k : Kernel) : Except Halt (Option Int × Kernel) :=
  match k.argfd p fd with
  | none => .ok (some (-1), k)
  | some f => if len < 0 then .ok (some (-1), k) else filewrite ld other t p f uva len k

def syscallRead (ld : Loader) (other : Kernel → Except Halt (Option Int × Kernel)) (t p : Nat) (fd : Int) (uva : Nat)
    (len : Int) (k : Kernel) : Except Halt (Option Int × Kernel) :=
  match k.argfd p fd with
  | none => .ok (some (-1), k)
  | some f => if len < 0 then .ok (some (-1), k) else fileread ld other t p f uva len k

/-! ## Steps -/

/-- What happens next: a system call on descriptors, a read or write, a turn of the thread that is inside a
pipe, a thread that runs again after a sleep, or a change of memory by the rest of the kernel. -/
inductive Act
  | op (call : Op)
  | read (ld : Loader) (t p : Nat) (fd : Int) (uva : Nat) (len : Int)
  | write (ld : Loader) (t p : Nat) (fd : Int) (uva : Nat) (len : Int)
  | turn (ld : Loader) (t : Nat) (f : Frame)
  | resume (t : Nat)
  | memory (m : Mem)

def act (a : Act) (k : Kernel) : Except Halt Kernel :=
  match a with
  | .op call => exec call k
  | .read ld t p fd uva len => (syscallRead ld (fun k => .ok (none, k)) t p fd uva len k).map (·.2)
  | .write ld t p fd uva len => (syscallWrite ld (fun k => .ok (none, k)) t p fd uva len k).map (·.2)
  | .turn ld t f => liftPipe k (Pipes.turn ld t f k.world)
  | .resume t => .ok { k with world := k.world.resume t }
  | .memory m => .ok { k with world := { k.world with mem := m } }

/-- The system calls a pipe's descriptors go through. -/
def Op.OnPipes : Op → Prop
  | .create .. | .dup .. | .close .. | .pipe .. | .fork .. | .exit _ => True
  | _ => False

/-- A thread of a live process that is in no call uses a descriptor that is no other file than a pipe. -/
def Kernel.Calls (k : Kernel) (t p : Nat) (fd : Int) : Prop :=
  k.world.cur = none ∧ k.owner t = some p ∧ (k.procs p).live = true ∧ (k.world.threads t).state ≠ .sleeping ∧
    (k.world.threads t).frame = none ∧ ∀ f, k.argfd p fd = some f → (k.files f).type = .pipe

def Act.Enabled (a : Act) (k : Kernel) : Prop :=
  match a with
  | .op call => call.Enabled k ∧ call.OnPipes
  | .read _ t p fd _ len => k.Calls t p fd ∧ 0 ≤ len
  | .write _ t p fd _ len => k.Calls t p fd ∧ 0 ≤ len
  | .turn _ t f => k.world.cur = some t ∧ (k.world.threads t).frame = some f
  | .resume t => k.world.cur = none ∧ (k.world.threads t).state = .runnable ∧ (k.world.threads t).frame.isSome
  | .memory _ => k.world.cur = none

/-- The states that steps reach which all meet `P` where they are made. -/
def ReachedBy (P : Act → Kernel → Prop) : Kernel → Prop :=
  Run.Reach Kernel.Init fun k k' => ∃ a : Act, a.Enabled k ∧ P a k ∧ act a k = .ok k'

/-- The steps that meet `P` do not panic, but for a call that makes a pipe and finds none left. -/
def PanicFree (P : Act → Kernel → Prop) (k : Kernel) : Prop :=
  ∀ a : Act, a.Enabled k → P a k → ∀ e, act a k = .error e → ∃ call, a = .op call ∧ e ≠ .filedup ∧ e ≠ .fileclose

/-! ## When a buffer is there -/

/-- The page of `va` is mapped, or can be brought in: from the stack or a segment with memory for it and its
tables, or by a copy at `cowVa` of a page that is copy-on-write there. -/
structure Ready (ld : Loader) (pgdir : Ppn) (va cowVa : Nat) (m : Mem) : Prop where
  absent : va2PA pgdir va m = none →
    (∃ img dirs, MemInv img m dirs ∧ pgdir ∈ dirs) ∧ Lazy ld.segs va ∧ 3 ≤ m.freePageList.length
  cow : ∀ pa, va2PA pgdir va m = some (pa, true) →
    (∃ img dirs, MemInv img m dirs ∧ pgdir ∈ dirs) ∧ (∃ e, view m pgdir (vpn cowVa) = some e ∧ pteHas e PTE_COW_BIT = true) ∧
      0 < m.freePageList.length

section Buffers

variable {ld : Loader} {pgdir : Ppn} {va cowVa : Nat} {m : Mem}

theorem Ready.writePage_ok (h : Ready ld pgdir va cowVa m) : ∃ r, Pipes.writePage ld pgdir va cowVa m = .ok r := by
  unfold Pipes.writePage
  cases hva : va2PA pgdir va m with
  | none =>
    obtain ⟨⟨img, dirs, hi, hd⟩, hlazy, hmem⟩ := h.absent hva
    obtain ⟨pa, m', hok, -⟩ := hi.passiveAlloc_ok hd ld.data hlazy hmem
    exact ⟨(pa, m'), by simp only [hok, Pipes.liftMem]⟩
  | some r =>
    obtain ⟨pa, cow⟩ := r
    cases cow with
    | false => exact ⟨(pa, m), rfl⟩
    | true =>
      obtain ⟨⟨img, dirs, hi, hd⟩, ⟨e, hv, hcow⟩, hmem⟩ := h.cow pa hva
      obtain ⟨pa, m', hok, -⟩ := hi.cowHandler_ok hd hv hcow hmem
      exact ⟨(pa, m'), by simp only [hok, Pipes.liftMem]⟩

/-- A page to be stored into, which is not copied. -/
def Present (ld : Loader) (pgdir : Ppn) (va : Nat) (m : Mem) : Prop :=
  va2PA pgdir va m = none → (∃ img dirs, MemInv img m dirs ∧ pgdir ∈ dirs) ∧ Lazy ld.segs va ∧ 3 ≤ m.freePageList.length

theorem Present.readPage_ok (h : Present ld pgdir va m) : ∃ r, Pipes.readPage ld pgdir va m = .ok r := by
  unfold Pipes.readPage
  cases hva : va2PA pgdir va m with
  | none =>
    obtain ⟨⟨img, dirs, hi, hd⟩, hlazy, hmem⟩ := h hva
    obtain ⟨pa, m', hok, -⟩ := hi.passiveAlloc_ok hd ld.data hlazy hmem
    exact ⟨(pa, m'), by simp only [hok, Pipes.liftMem]⟩
  | some r => exact ⟨(r.1, m), rfl⟩

end Buffers

/-- A write is not empty and its first page is ready. While it goes on the read end stays open, and each
page it comes to is ready, also the one after its last byte; a copy-on-write page is copied where the
buffer starts. A read needs its first page and each page it comes to. -/
def Act.Meets (a : Act) (k : Kernel) : Prop :=
  match a with
  | .op _ | .resume _ | .memory _ => True
  | .read ld _ p _ uva _ => Present ld (k.procs p).pgdir uva k.world.mem
  | .write ld _ p _ uva len => 0 < len ∧ Ready ld (k.procs p).pgdir uva uva k.world.mem
  | .turn ld _ f =>
    match f.phase with
    | .write => f.i < f.n → (k.world.pipes f.pi).readopen = true ∧
        ((k.world.pipes f.pi).full = false → f.isUser = true → u64 (f.addr + (f.i + 1)) % PAGE_SIZE = 0 →
          Ready ld f.pgdir (u64 (f.addr + (f.i + 1))) f.addr k.world.mem)
    | .wait => True
    | .copy _ => f.i < f.n → (k.world.pipes f.pi).empty = false → f.isUser = true →
        u64 (f.addr + (f.i + 1)) % PAGE_SIZE = 0 →
        Present ld f.pgdir (u64 (f.addr + (f.i + 1))) (storeByte k.world.mem f.pa (k.world.pipes f.pi).pop.1)

/-! ## The invariant -/

/-- What runs keep: exact counts, and no thread inside an empty write. -/
structure Good (k : Kernel) : Prop where
  inv : Inv 0 k
  write : ∀ t f, (k.world.threads t).frame = some f → f.phase = .write → 0 < f.n

/-- The flags of the pipes are as before. -/
structure SameEnds (w w' : World) : Prop where
  bits : w'.pipeBitMap = w.pipeBitMap
  readopen : ∀ q, (w'.pipes q).readopen = (w.pipes q).readopen
  writeopen : ∀ q, (w'.pipes q).writeopen = (w.pipes q).writeopen

theorem Inv.world {e : Nat → Int} {k : Kernel} (hi : Inv e k) {w : World} (h : SameEnds k.world w) :
    Inv e { k with world := w } := by
  refine hi.objects rfl rfl rfl (fun f o ho => ?_) fun pi hpi => ?_
  · have hold := hi.isOpen f o ho
    cases o with
    | pipeEnd pi w =>
      cases w with
      | true => exact (h.writeopen pi).trans hold
      | false => exact (h.readopen pi).trans hold
    | socket s => exact hold
    | tmpfile t => exact hold
  · show (w.pipes pi).readopen = false ∧ (w.pipes pi).writeopen = false
    rw [h.readopen, h.writeopen]
    exact hi.free pi (by rw [← h.bits]; exact hpi)

section Worlds

variable {ld : Loader} {t : Nat} {f : Frame} {w w' : World}

/-- The frames after a step are those before, or `f` further on. -/
def FramesFrom (f : Frame) (w w' : World) : Prop :=
  ∀ u g, (w'.threads u).frame = some g → (w.threads u).frame = some g ∨ g.n = f.n ∧ (g.phase = .write → f.phase = .write)

theorem frames_wakeup (c : Pipes.Chan) (u : Nat) : ((w.wakeup c).threads u).frame = (w.threads u).frame := by
  simp only [World.wakeup]
  split <;> rfl

theorem framesFrom_goOn {g : Frame} (hthreads : w'.threads = w.threads) (hn : g.n = f.n) (hph : g.phase = .write → f.phase = .write) :
    FramesFrom f w (w'.goOn t g) := by
  intro u h hu
  by_cases hut : u = t
  · subst hut
    simp only [World.goOn, World.setThread, Function.update_self, Option.some.injEq] at hu
    exact .inr (hu ▸ ⟨hn, hph⟩)
  · simp only [World.goOn, World.setThread, Function.update_of_ne hut, hthreads] at hu
    exact .inl hu

theorem framesFrom_sleep (hframes : ∀ u, (w'.threads u).frame = (w.threads u).frame) (c : Pipes.Chan) :
    FramesFrom f w (w'.sleep t c) := by
  intro u h hu
  left
  rw [← hframes]
  by_cases hut : u = t
  · subst hut
    simpa [World.sleep, World.setThread] using hu
  · simpa [World.sleep, World.setThread, hut] using hu

theorem framesFrom_ret (hframes : ∀ u, (w'.threads u).frame = (w.threads u).frame) (d : Pipes.Done) :
    FramesFrom f w (w'.ret t d) := by
  intro u h hu
  left
  rw [← hframes]
  by_cases hut : u = t
  · subst hut
    simp [World.ret, World.setThread] at hu
  · simpa [World.ret, World.setThread, hut] using hu

theorem sameEnds_setPipe (p : Nat) (pi : Pipes.Pipe) (hr : pi.readopen = (w.pipes p).readopen)
    (hw : pi.writeopen = (w.pipes p).writeopen) (hbits : w'.pipeBitMap = w.pipeBitMap)
    (hpipes : w'.pipes = Function.update w.pipes p pi) : SameEnds w w' := by
  refine ⟨hbits, fun q => ?_, fun q => ?_⟩
  · rw [hpipes]
    by_cases hq : q = p
    · rw [hq, Function.update_self, hr]
    · rw [Function.update_of_ne hq]
  · rw [hpipes]
    by_cases hq : q = p
    · rw [hq, Function.update_self, hw]
    · rw [Function.update_of_ne hq]

/-- What a turn leaves. -/
theorem turn_keeps (h : Pipes.turn ld t f w = .ok w') : SameEnds w w' ∧ FramesFrom f w w' := by
  unfold Pipes.turn at h
  cases hph : f.phase with
  | write =>
    rw [hph] at h
    rcases Pipes.writeTurn_cases h with ⟨-, -, -, rfl⟩ | ⟨-, -, -, pa, m, rfl⟩ | ⟨-, -, rfl⟩
    · exact ⟨⟨rfl, fun _ => rfl, fun _ => rfl⟩, framesFrom_sleep (frames_wakeup _) _⟩
    · exact ⟨sameEnds_setPipe f.pi ((w.pipes f.pi).push (loadByte w.mem f.pa)) rfl rfl rfl rfl,
        framesFrom_goOn rfl rfl fun _ => hph⟩
    · exact ⟨⟨rfl, fun _ => rfl, fun _ => rfl⟩, framesFrom_ret (frames_wakeup _) _⟩
  | wait =>
    rw [hph] at h
    cases h
    unfold Pipes.waitTurn
    split
    · exact ⟨⟨rfl, fun _ => rfl, fun _ => rfl⟩, framesFrom_sleep (fun _ => rfl) _⟩
    · exact ⟨⟨rfl, fun _ => rfl, fun _ => rfl⟩, framesFrom_goOn rfl rfl fun h => by cases h⟩
  | copy stopped =>
    rw [hph] at h
    rcases Pipes.copyTurn_cases h with ⟨-, -, pa, m, rfl⟩ | ⟨-, rfl⟩
    · exact ⟨sameEnds_setPipe f.pi (w.pipes f.pi).pop.2 rfl rfl rfl rfl, framesFrom_goOn rfl rfl fun h => h⟩
    · exact ⟨⟨rfl, fun _ => rfl, fun _ => rfl⟩, framesFrom_ret (frames_wakeup _) _⟩

end Worlds

/-! ## The calls on descriptors leave frames alone -/

/-- No thread has come into a pipe. -/
def Still (k k' : Kernel) : Prop := ∀ u g, (k'.world.threads u).frame = some g → (k.world.threads u).frame = some g

section Frames

variable {k k' : Kernel} {p f : Nat}

theorem Still.trans {k₁ : Kernel} (h : Still k k₁) (h' : Still k₁ k') : Still k k' := fun u g hg => h u g (h' u g hg)

theorem still_of_eq (h : k'.world = k.world) : Still k k' := fun u g hg => by rwa [h] at hg

theorem fdalloc_world (p f : Nat) (k : Kernel) : (fdalloc p f k).2.world = k.world := by
  unfold fdalloc
  split <;> rfl

theorem filealloc_world (h : filealloc k = some (f, k')) : k'.world = k.world := by
  unfold filealloc at h
  split at h
  · cases h
  · cases h
    rfl

theorem filedup_world (h : filedup f k = .ok k') : k'.world = k.world := by
  unfold filedup at h
  split at h
  · cases h
  · cases h
    rfl

theorem still_pipeClose (pi : Nat) (writable : Bool) : Still k { k with world := Pipes.pipeClose pi writable k.world } := by
  obtain ⟨-, hthreads, -⟩ := Pipes.pipeClose_cases pi writable k.world
  intro u g hg
  rw [← hg]
  rw [hthreads]
  cases writable with
  | true => exact (frames_wakeup _ u).symm
  | false => exact (frames_wakeup _ u).symm

theorem fileclose_still (h : fileclose f k = .ok k') : Still k k' := by
  simp only [fileclose] at h
  split at h
  · cases h
  · split at h
    · cases h
      exact still_of_eq rfl
    · split at h
      · cases h
        exact still_pipeClose (k := k.setFile f _) _ _
      · cases h
        exact still_of_eq rfl
      · cases h
        exact still_of_eq rfl
      · cases h
        exact still_of_eq rfl

theorem pipeNew_still {r : Option (Nat × Nat)} (h : pipeNew k = .ok (r, k')) : Still k k' := by
  unfold pipeNew at h
  split at h
  · cases h
    exact still_of_eq rfl
  · next halloc =>
    have hw := filealloc_world halloc
    split at h
    · obtain ⟨k₂, hk₂, heq⟩ := map_ok h
      cases heq
      exact (still_of_eq hw).trans (fileclose_still hk₂)
    · next halloc₁ =>
      have hw₁ := filealloc_world halloc₁
      split at h
      · cases h
      · next hpipe =>
        obtain ⟨-, -, rfl⟩ := Pipes.pipeNew_cases hpipe
        cases h
        intro u g hg
        rw [← hw, ← hw₁]
        exact hg

theorem closeBoth_still {rf wf : Nat} {r : Int} (h : closeBoth rf wf k = .ok (r, k')) : Still k k' := by
  obtain ⟨k₁, hk₁, h⟩ := bind_ok h
  obtain ⟨k₂, hk₂, heq⟩ := map_ok h
  cases heq
  exact (fileclose_still hk₁).trans (fileclose_still hk₂)

/-- A new pipe leaves the others as they are. -/
theorem syscallPipe_still {copied : Bool} {r : Int} (h : syscallPipe p copied k = .ok (r, k')) : Still k k' := by
  obtain ⟨⟨ends, k₁⟩, hk₁, h⟩ := bind_ok h
  have hs := pipeNew_still hk₁
  cases ends with
  | none =>
    cases h
    exact hs
  | some x =>
    obtain ⟨rf, wf⟩ := x
    have hw := fdalloc_world p rf k₁
    cases hfd : fdalloc p rf k₁ with
    | mk fd₀ k₂ =>
      simp only [hfd] at h
      rw [hfd] at hw
      have hs₂ : Still k k₂ := hs.trans (still_of_eq hw)
      cases fd₀ with
      | none => exact hs₂.trans (closeBoth_still h)
      | some fd₀ =>
        have hw₂ := fdalloc_world p wf k₂
        cases hfd₁ : fdalloc p wf k₂ with
        | mk fd₁ k₃ =>
          simp only [hfd₁] at h
          rw [hfd₁] at hw₂
          have hs₃ : Still k k₃ := hs₂.trans (still_of_eq hw₂)
          cases fd₁ with
          | none => exact hs₃.trans (closeBoth_still (k := k₃.setSlot p fd₀ none) h)
          | some fd₁ =>
            cases copied with
            | true =>
              cases h
              exact hs₃
            | false => exact hs₃.trans (closeBoth_still (k := (k₃.setSlot p fd₀ none).setSlot p fd₁ none) h)

/-- Every call on pipes, by cases. -/
theorem exec_still {call : Op} (hon : call.OnPipes) (h : exec call k = .ok k') : Still k k' := by
  cases call with
  | create p th pgdir =>
    cases h
    exact still_of_eq rfl
  | dup p fd =>
    obtain ⟨⟨r, k₁⟩, hk₁, rfl⟩ := map_ok h
    unfold syscallDup at hk₁
    split at hk₁
    · cases hk₁
      exact still_of_eq rfl
    · next f _ =>
      have hw := fdalloc_world p f k
      split at hk₁
      · next hfd =>
        cases hk₁
        rw [hfd] at hw
        exact still_of_eq hw
      · next hfd =>
        obtain ⟨k₂, hk₂, heq⟩ := map_ok hk₁
        cases heq
        rw [hfd] at hw
        exact still_of_eq ((filedup_world hk₂).trans hw)
  | close p fd =>
    obtain ⟨⟨r, k₁⟩, hk₁, rfl⟩ := map_ok h
    unfold syscallClose at hk₁
    split at hk₁
    · cases hk₁
      exact still_of_eq rfl
    · obtain ⟨k₂, hk₂, heq⟩ := map_ok hk₁
      cases heq
      exact fileclose_still (k := k.setSlot p fd.toNat none) hk₂
  | pipe p copied =>
    simp only [exec] at h
    obtain ⟨⟨r, k₁⟩, hk₁, rfl⟩ := map_ok h
    exact syscallPipe_still hk₁
  | fork p c th pgdir =>
    obtain ⟨k₁, hk₁, rfl⟩ := map_ok h
    have hstart : Still k (setupProc c pgdir k) := still_of_eq rfl
    have hs : Still k k₁ := by
      refine Loop.foldlM_inv (Q := fun s => Still k s) hk₁ hstart fun s i s' hs hi => ?_
      unfold forkSlot at hi
      split at hi
      · cases hi
        exact hs
      · obtain ⟨s₁, hs₁, rfl⟩ := map_ok hi
        have hw := filedup_world hs₁
        exact hs.trans (still_of_eq hw)
    exact hs
  | exit p =>
    simp only [exec, processFree] at h
    obtain ⟨k₁, hk₁, rfl⟩ := map_ok h
    have hs : Still k k₁ := by
      refine Loop.foldlM_inv (Q := fun s => Still k s) hk₁ (still_of_eq rfl) fun s i s' hs hi => ?_
      unfold freeSlot at hi
      split at hi
      · cases hi
        exact hs
      · obtain ⟨s₁, hs₁, rfl⟩ := map_ok hi
        have hclose := fileclose_still hs₁
        exact hs.trans hclose
    refine hs.trans fun u g hg => ?_
    simp only [dropProc] at hg
    split at hg
    · cases hg
    · exact hg
  | openEntry => cases hon
  | openTmp => cases hon
  | openInterp => cases hon
  | device => cases hon
  | dup3 => cases hon
  | fcntl => cases hon
  | socket => cases hon
  | accept => cases hon

end Frames

/-! ## Steps keep the invariant and do not panic -/

section Steps

variable {k k' : Kernel} {a : Act}

theorem meets_of_onPipes {call : Op} (h : call.OnPipes) : call.Meets k := by
  cases call <;> trivial

theorem frames_enter {w : World} {m : Mem} {t : Nat} {f : Frame} (h : ∀ u g, (w.threads u).frame = some g → g.phase = .write → 0 < g.n)
    (hf : f.phase = .write → 0 < f.n) (u : Nat) (g : Frame) (hg : (({ w with mem := m }.goOn t f).threads u).frame = some g)
    (hph : g.phase = .write) : 0 < g.n := by
  by_cases hut : u = t
  · subst hut
    simp only [World.goOn, World.setThread, Function.update_self, Option.some.injEq] at hg
    rw [← hg] at hph ⊢
    exact hf hph
  · simp only [World.goOn, World.setThread, Function.update_of_ne hut] at hg
    exact h u g hg hph

theorem liftPipe_ok {r : Except Pipes.Halt World} (h : liftPipe k r = .ok k') : ∃ w, r = .ok w ∧ k' = { k with world := w } := by
  cases r with
  | error e => cases h
  | ok w =>
    cases h
    exact ⟨w, rfl, rfl⟩

/-- **One act** keeps what pipes need. -/
theorem Good.step (hg : Good k) (henabled : a.Enabled k) (hmeets : a.Meets k) (h : act a k = .ok k') : Good k' := by
  cases a with
  | op call =>
    refine ⟨((exec_fine hg.inv henabled.1 (meets_of_onPipes henabled.2)).2 k' h).1, fun t f hf => ?_⟩
    exact hg.write t f (exec_still henabled.2 h t f hf)
  | read ld t p fd uva len =>
    obtain ⟨⟨r, k₁⟩, hk₁, rfl⟩ := map_ok h
    unfold syscallRead at hk₁
    split at hk₁
    · cases hk₁
      exact hg
    · split at hk₁
      · cases hk₁
        exact hg
      · unfold fileread at hk₁
        split at hk₁
        · cases hk₁
          exact hg
        · split at hk₁
          · obtain ⟨k₂, hk₂, heq⟩ := map_ok hk₁
            cases heq
            obtain ⟨w, hw, rfl⟩ := liftPipe_ok hk₂
            obtain ⟨pa, m, rfl⟩ := Pipes.enterRead_cases hw
            exact ⟨hg.inv.world ⟨rfl, fun _ => rfl, fun _ => rfl⟩, frames_enter hg.write fun hph => by cases hph⟩
          · cases hk₁
            exact hg
  | write ld t p fd uva len =>
    obtain ⟨⟨r, k₁⟩, hk₁, rfl⟩ := map_ok h
    unfold syscallWrite at hk₁
    split at hk₁
    · cases hk₁
      exact hg
    · split at hk₁
      · cases hk₁
        exact hg
      · unfold filewrite at hk₁
        split at hk₁
        · cases hk₁
          exact hg
        · split at hk₁
          · obtain ⟨k₂, hk₂, heq⟩ := map_ok hk₁
            cases heq
            obtain ⟨w, hw, rfl⟩ := liftPipe_ok hk₂
            obtain ⟨pa, m, rfl⟩ := Pipes.enterWrite_cases hw
            exact ⟨hg.inv.world ⟨rfl, fun _ => rfl, fun _ => rfl⟩, frames_enter hg.write fun _ => hmeets.1⟩
          · cases hk₁
            exact hg
  | turn ld t f =>
    obtain ⟨w, hw, rfl⟩ := liftPipe_ok h
    obtain ⟨hends, hframes⟩ := turn_keeps hw
    refine ⟨hg.inv.world hends, fun u g hu hph => ?_⟩
    rcases hframes u g hu with hold | ⟨hn, hwrite⟩
    · exact hg.write u g hold hph
    · rw [hn]
      exact hg.write t f henabled.2 (hwrite hph)
  | resume t =>
    cases h
    refine ⟨hg.inv.world ⟨rfl, fun _ => rfl, fun _ => rfl⟩, fun u g hu => ?_⟩
    refine hg.write u g ?_
    by_cases hut : u = t
    · subst hut
      simpa [World.resume, World.setThread] using hu
    · simpa [World.resume, World.setThread, hut] using hu
  | memory m =>
    cases h
    exact ⟨hg.inv.world ⟨rfl, fun _ => rfl, fun _ => rfl⟩, hg.write⟩

/-- A turn that meets its condition goes through. -/
theorem turn_ok {ld : Loader} {t : Nat} {f : Frame} (hg : Good k) (henabled : (Act.turn ld t f).Enabled k)
    (hmeets : (Act.turn ld t f).Meets k) : ∃ w, Pipes.turn ld t f k.world = .ok w := by
  unfold Pipes.turn
  unfold Act.Meets at hmeets
  cases hph : f.phase with
  | wait => exact ⟨_, rfl⟩
  | write =>
    simp only [hph] at hmeets
    unfold Pipes.writeTurn
    by_cases hi : f.i < f.n
    · obtain ⟨hopen, hready⟩ := hmeets hi
      rw [if_pos hi, if_neg (by simp [hopen])]
      by_cases hfull : (k.world.pipes f.pi).full = true
      · rw [if_pos hfull]
        exact ⟨_, rfl⟩
      · rw [if_neg hfull]
        have hnext : ∃ r, Pipes.writeNext ld f k.world.mem = .ok r := by
          unfold Pipes.writeNext
          split
          · next hb => exact (hready (by simpa using hfull) hb.1 hb.2).writePage_ok
          · exact ⟨_, rfl⟩
        obtain ⟨r, hr⟩ := hnext
        exact ⟨_, by rw [hr]; rfl⟩
    · have hpos := hg.write t f henabled.2 hph
      have h0 : ¬ f.i = 0 := by omega
      rw [if_neg hi, if_neg h0]
      exact ⟨_, rfl⟩
  | copy stopped =>
    simp only [hph] at hmeets
    show ∃ w, Pipes.copyTurn ld t f stopped k.world = .ok w
    unfold Pipes.copyTurn
    split
    · next hgo =>
      have hnext : ∃ r, Pipes.readNext ld f (storeByte k.world.mem f.pa (k.world.pipes f.pi).pop.1) = .ok r := by
        unfold Pipes.readNext
        split
        · next hb => exact Present.readPage_ok (hmeets hgo.1 hgo.2 hb.1 hb.2)
        · exact ⟨_, rfl⟩
      obtain ⟨r, hr⟩ := hnext
      exact ⟨_, by rw [hr]; rfl⟩
    · exact ⟨_, rfl⟩

/-- No act panics. -/
theorem Good.panicFree (hg : Good k) : PanicFree Act.Meets k := by
  intro a henabled hmeets e he
  cases a with
  | op call => exact ⟨call, rfl, (exec_fine hg.inv henabled.1 (meets_of_onPipes henabled.2)).1 e he⟩
  | read ld t p fd uva len =>
    obtain ⟨r, hr⟩ := Present.readPage_ok hmeets
    have henter : ∀ pi, ∃ w, Pipes.enterRead ld t pi true (k.procs p).pgdir uva len k.world = .ok w := fun pi => by
      simp only [Pipes.enterRead, Pipes.readStart, if_true, hr]
      exact ⟨_, rfl⟩
    simp only [act, syscallRead] at he
    split at he
    · cases he
    · next f _ =>
      split at he
      · cases he
      · obtain ⟨w, hw⟩ := henter (k.files f).pipe
        simp only [fileread, hw, liftPipe] at he
        split at he
        · cases he
        · split at he
          · cases he
          · cases he
  | write ld t p fd uva len =>
    obtain ⟨r, hr⟩ := hmeets.2.writePage_ok
    have henter : ∀ pi, ∃ w, Pipes.enterWrite ld t pi true (k.procs p).pgdir uva len k.world = .ok w := fun pi => by
      simp only [Pipes.enterWrite, Pipes.writeStart, if_true, hr]
      exact ⟨_, rfl⟩
    simp only [act, syscallWrite] at he
    split at he
    · cases he
    · next f _ =>
      split at he
      · cases he
      · obtain ⟨w, hw⟩ := henter (k.files f).pipe
        simp only [filewrite, hw, liftPipe] at he
        split at he
        · cases he
        · split at he
          · cases he
          · cases he
  | turn ld t f =>
    obtain ⟨w, hw⟩ := turn_ok hg henabled hmeets
    simp only [act, hw, liftPipe] at he
    cases he
  | resume t => cases he
  | memory m => cases he

end Steps

/-- No run of steps that meet `Act.Meets` panics in a pipe or in `fileclose`. -/
theorem panicFree_of_reached (k : Kernel) (h : ReachedBy Act.Meets k) : PanicFree Act.Meets k := by
  have hgood : Good k := by
    refine Run.Reach.invariant h (fun k hk => ⟨hk.inv, fun t f hf => ?_⟩) fun k k' hg hstep => ?_
    · obtain ⟨-, -, -, -, -, -, -, -, hworld⟩ := hk
      rw [(hworld.2.2.1 t).2] at hf
      cases hf
    · obtain ⟨a, henabled, hmeets, hk'⟩ := hstep
      exact hg.step henabled hmeets hk'
  exact hgood.panicFree

/-! ## One pipe, one mapped page -/

/-- Two files have been taken. -/
def twoFiles : Kernel :=
  let k := created.setFile 1 { created.files 1 with ref := 1 }
  k.setFile 2 { k.files 2 with ref := 1 }

/-- Files 1 and 2 are the ends of pipe 0. -/
def twoEnds : Kernel :=
  let k := { twoFiles with world := (Pipes.boot Pipes.noMem).made 0 }
  let k := k.setFile 1 { k.files 1 with type := .pipe, readable := true, writable := false, pipe := 0 }
  k.setFile 2 { k.files 2 with type := .pipe, readable := false, writable := true, pipe := 0 }

/-- Process 0 reads the pipe at descriptor 0 and writes it at descriptor 1. -/
def piped : Kernel := (twoEnds.setSlot 0 0 (some 1)).setSlot 0 1 (some 2)

theorem pipeNew_created : pipeNew created = .ok (some (1, 2), twoEnds) := by
  have hfind : ((List.range NFILE).find? fun f =>
      ((created.setFile 1 { created.files 1 with ref := 1 }).files f).ref = 0) = some 2 := by decide +kernel
  have halloc : filealloc (created.setFile 1 { created.files 1 with ref := 1 }) = some (2, twoFiles) := by
    unfold filealloc
    rw [hfind]
    rfl
  have hpipe : Pipes.pipeNew twoFiles.world = .ok (0, (Pipes.boot Pipes.noMem).made 0) := Pipes.pipeNew_boot Pipes.noMem
  unfold pipeNew
  rw [filealloc_created]
  simp only [halloc, hpipe]
  rfl

theorem exec_pipe : exec (.pipe 0 true) created = .ok piped := by
  have hfind : ((List.range ((twoEnds.setSlot 0 0 (some 1)).procs 0).hard).find? fun fd =>
      (((twoEnds.setSlot 0 0 (some 1)).procs 0).ofile fd).isNone) = some 1 := by decide +kernel
  have hfd : fdalloc 0 2 (twoEnds.setSlot 0 0 (some 1)) = (some 1, piped) := by
    unfold fdalloc
    rw [hfind]
    rfl
  have hprocs : twoEnds.procs = created.procs := rfl
  simp only [exec, syscallPipe, pipeNew_created, bind, Except.bind, fdalloc_created hprocs, hfd, if_true, Except.map]

/-- The page directory of process 0 maps the page at `0x10000`. -/
def onePage : Mem where
  ram := fun p i =>
    if p = dirPage ∧ i.val = 0 then page2Pte (dirPage + 1) ||| PTE_VALID_BIT
    else if p = dirPage + 1 ∧ i.val = 0 then page2Pte (dirPage + 2) ||| PTE_VALID_BIT
    else if p = dirPage + 2 ∧ i.val = 16 then mkPte (dirPage + 3) (PTE_READ_BIT ||| PTE_WRITE_BIT ||| PTE_USER_BIT)
    else 0
  ref := fun _ => 0
  freePageList := []

theorem va2PA_onePage : va2PA dirPage 0x10000 onePage = some ((dirPage + 3) <<< PAGE_SHIFT, false) := by decide +kernel

/-- The pipe and the page. -/
def mapped : Kernel := { piped with world := { piped.world with mem := onePage } }

/-- A write of `n` bytes from `0x10000`. -/
def writeFrame (n : Int) : Frame where
  pi := 0
  isUser := true
  pgdir := dirPage
  addr := 0x10000
  n := n
  i := 0
  pa := (dirPage + 3) <<< PAGE_SHIFT
  phase := .write

/-- Thread 0 has entered the pipe. -/
def writing (n : Int) : Kernel := { mapped with world := mapped.world.goOn 0 (writeFrame n) }

theorem mapped_reachedBy {P : Act → Kernel → Prop} (h : ∀ call k, P (.op call) k) (h' : ∀ m k, P (.memory m) k) :
    ReachedBy P mapped := by
  have h₁ : ReachedBy P created :=
    .step (.init boot_init) ⟨.op (.create 0 0 dirPage), ⟨⟨rfl, by decide, rfl, rfl⟩, trivial⟩, h _ _, exec_create⟩
  have h₂ : ReachedBy P piped := .step h₁ ⟨.op (.pipe 0 true), ⟨⟨rfl, by decide, rfl⟩, trivial⟩, h _ _, exec_pipe⟩
  exact .step h₂ ⟨.memory onePage, rfl, h' _ _, rfl⟩

theorem argfd_mapped : mapped.argfd 0 1 = some 2 := rfl

theorem calls_mapped : mapped.Calls 0 0 1 := by
  refine ⟨rfl, rfl, rfl, ?_, rfl, fun f hf => ?_⟩
  · show Pipes.RunState.runnable ≠ .sleeping
    decide
  · rw [argfd_mapped] at hf
    cases hf
    rfl

theorem act_write (n : Int) (hn : 0 ≤ n) : act (.write Pipes.noLoader 0 0 1 0x10000 n) mapped = .ok (writing n) := by
  have hpage : Pipes.writePage Pipes.noLoader dirPage 0x10000 0x10000 onePage = .ok ((dirPage + 3) <<< PAGE_SHIFT, onePage) := by
    unfold Pipes.writePage
    rw [va2PA_onePage]
  have henter : Pipes.enterWrite Pipes.noLoader 0 0 true dirPage 0x10000 n mapped.world = .ok (writing n).world := by
    have hmem : mapped.world.mem = onePage := rfl
    unfold Pipes.enterWrite Pipes.writeStart
    rw [if_pos rfl, hmem, hpage]
    rfl
  have hfile : (mapped.files 2).writable = true ∧ (mapped.files 2).type = .pipe ∧ (mapped.files 2).pipe = 0 := ⟨rfl, rfl, rfl⟩
  simp only [act, syscallWrite, argfd_mapped, if_neg (Int.not_lt.mpr hn), filewrite, hfile.1, hfile.2.1, hfile.2.2]
  have hdir : (mapped.procs 0).pgdir = dirPage := rfl
  rw [hdir, henter]
  rfl

/-- A write of one byte from a mapped page, whose reader is there. -/
theorem panicFree_writing : ReachedBy Act.Meets (writing 1) ∧ PanicFree Act.Meets (writing 1) := by
  have hmapped : ReachedBy Act.Meets mapped := mapped_reachedBy (fun _ _ => trivial) fun _ _ => trivial
  have hready : Ready Pipes.noLoader dirPage 0x10000 0x10000 onePage := by
    refine ⟨fun h => ?_, fun pa h => ?_⟩
    · rw [va2PA_onePage] at h
      cases h
    · rw [va2PA_onePage] at h
      cases h
  have h : ReachedBy Act.Meets (writing 1) :=
    .step hmapped ⟨.write Pipes.noLoader 0 0 1 0x10000 1, ⟨calls_mapped, by decide⟩, ⟨by decide, hready⟩,
      act_write 1 (by decide)⟩
  exact ⟨h, panicFree_of_reached _ h⟩

/-- The buffers of reads and writes are mapped, also in the byte after their last. -/
def Act.Mapped (a : Act) (k : Kernel) : Prop :=
  match a with
  | .read _ _ p _ uva len | .write _ _ p _ uva len =>
    ∀ i : Nat, i ≤ len → ∃ pa, va2PA (k.procs p).pgdir (u64 (uva + i)) k.world.mem = some (pa, false)
  | .turn _ _ f => ∀ i : Nat, i ≤ f.n → ∃ pa, va2PA f.pgdir (u64 (f.addr + i)) k.world.mem = some (pa, false)
  | _ => True

/-- A write of no bytes from a mapped page fails `assert(i != 0)`. -/
theorem not_panicFree : ¬ ∀ k : Kernel, ReachedBy Act.Mapped k → PanicFree Act.Mapped k := by
  intro hall
  have hva : ∀ i : Nat, (i : Int) ≤ 0 → ∃ pa, va2PA dirPage (u64 (0x10000 + i)) onePage = some (pa, false) := fun i hi => by
    have h0 : i = 0 := by omega
    subst h0
    exact ⟨_, va2PA_onePage⟩
  have hmapped : ReachedBy Act.Mapped mapped := mapped_reachedBy (fun _ _ => trivial) fun _ _ => trivial
  have hwriting : ReachedBy Act.Mapped (writing 0) :=
    .step hmapped ⟨.write Pipes.noLoader 0 0 1 0x10000 0, ⟨calls_mapped, by decide⟩, hva, act_write 0 (by decide)⟩
  have herror := hall _ hwriting (.turn Pipes.noLoader 0 (writeFrame 0)) ⟨rfl, rfl⟩ hva (.pipe .emptyWrite) rfl
  obtain ⟨call, h, -⟩ := herror
  cases h

end Exaros.Files
