import Exaros.Lib.Lists
import Exaros.Process.Live
import Exaros.Signal.Context

/-!
# Steps of the signal machine

The calls that deal with signals, and what each of them does to the lists, the contexts and the masks:
`Acts` says it once for all of them, so that what a run keeps is read off its cases.
-/

namespace Exaros.Signal

open Loop Run Lists
open Sched (Trapframe Pages)
open Function (update update_self update_idem update_eq_self)

/-! ## Functions -/

section Functions

variable {m m' : Machine} {t p sc n : Nat} {h : Home} {sig : Int} {ret : Int}

theorem onSched_ok {α : Type} {x : Except Sched.Halt α} {a : α} (h : onSched x = .ok a) : x = .ok a := mapError_ok h

theorem linked_mem (hl : m.linked sc = true) : ∃ h, sc ∈ m.list h := by
  rcases Bool.or_eq_true_iff.mp hl with hfree | hany
  · exact ⟨.free, of_decide_eq_true hfree⟩
  · obtain ⟨t, -, ht⟩ := List.any_eq_true.mp hany
    rcases of_decide_eq_true ht with hp | hh
    · exact ⟨.pending t, hp⟩
    · exact ⟨.handling t, hh⟩

theorem unlink_ok (hok : unlink sc m = .ok m') :
    (∃ h, sc ∈ m.list h) ∧ m' = { m with list := fun h => (m.list h).erase sc } := by
  unfold unlink at hok
  split at hok
  · rename_i hl
    cases hok
    exact ⟨linked_mem hl, rfl⟩
  · cases hok

theorem signalContextFree_ok (hok : signalContextFree sc m = .ok m') :
    (∃ h, sc ∈ m.list h) ∧ m' = { m with list := toFront m.list sc .free } := by
  obtain ⟨m₁, h₁, rfl⟩ := map_ok hok
  obtain ⟨hmem, rfl⟩ := unlink_ok h₁
  exact ⟨hmem, rfl⟩

theorem load_ok {w : Int} {x : BitVec 64} (hok : m.load w = .ok x) : x = m.words w ∧ m.mapped (w / 512) = true := by
  unfold Machine.load at hok
  split at hok
  · rename_i hm
    cases hok
    exact ⟨rfl, hm⟩
  · cases hok

/-- The machine with the handler of the context entered. -/
def delivered (t p sc : Nat) (m : Machine) : Machine :=
  let c := m.context sc
  let sa := m.disposition p c.signal
  let tf := m.sched.hart
  let entry := update (update tf .sp (alignDown (tf .sp))) .ra SIGNAL_TRAMPOLINE
  { m with
    sched := { m.sched with hart := update entry .epc sa.sa_handler.toNat }
    context := update m.context sc { c with contextRecover := tf, blockedRecover := m.blocked t }
    list := toFront m.list sc (.handling t)
    blocked := update m.blocked t (signalSetOr (signalSetAdd (m.blocked t) c.signal) sa.sa_mask)
    words := if sa.sa_flags &&& 4 ≠ 0 then
        update (update m.words (action p c.signal) 0) (action p c.signal + 2) 0
      else m.words }

theorem enterHandler_ok (hok : enterHandler t sc (action p (m.context sc).signal) m = .ok m') : m' = delivered t p sc m := by
  obtain ⟨sa_handler, h₁, hok⟩ := bind_ok hok
  obtain ⟨sa_mask, h₂, hok⟩ := bind_ok hok
  obtain ⟨sa_flags, h₃, hok⟩ := bind_ok hok
  obtain ⟨rfl, -⟩ := load_ok h₁
  obtain ⟨rfl, -⟩ := load_ok h₂
  obtain ⟨rfl, -⟩ := load_ok h₃
  obtain ⟨m₁, h₄, hok⟩ := bind_ok hok
  cases hok
  obtain ⟨-, rfl⟩ := unlink_ok h₄
  unfold delivered
  dsimp only
  by_cases hflag : m.words (action p (m.context sc).signal + 1) &&& 4 ≠ 0
  · have hflag' : (m.disposition p (m.context sc).signal).sa_flags &&& 4 ≠ 0 := hflag
    rw [if_pos hflag, if_pos hflag']
    rfl
  · have hflag' : ¬ (m.disposition p (m.context sc).signal).sa_flags &&& 4 ≠ 0 := hflag
    rw [if_neg hflag, if_neg hflag']
    rfl

/-- What a turn of the loop of `handleSignal` does. -/
inductive Turned (t p : Nat) (m : Machine) : Turn → Machine → Prop
  | idle (hfirst : getFirstPendingSignal t m = none) : Turned t p m .idle m
  | destroyed {sc : Nat} (hfirst : getFirstPendingSignal t m = some sc)
      (hnull : (m.disposition p (m.context sc).signal).sa_handler = 0)
      (hfatal : (SignalActionDefault (m.context sc).signal).fatal = true) : Turned t p m (.destroyed sc) m
  | consumed {sc : Nat} (hfirst : getFirstPendingSignal t m = some sc)
      (hnull : (m.disposition p (m.context sc).signal).sa_handler = 0)
      (hfatal : (SignalActionDefault (m.context sc).signal).fatal = false) :
      Turned t p m (.consumed sc) { m with list := toFront m.list sc .free }
  | entered {sc : Nat} (hfirst : getFirstPendingSignal t m = some sc)
      (hhandler : (m.disposition p (m.context sc).signal).sa_handler ≠ 0) : Turned t p m (.entered sc) (delivered t p sc m)

/-- What one turn of `handleSignal` does. -/
theorem handleTurn_ok {r : Turn} (hok : handleTurn t p m = .ok (r, m')) : Turned t p m r m' := by
  unfold handleTurn at hok
  split at hok
  · rename_i hfirst
    cases hok
    exact .idle hfirst
  · rename_i sc hfirst
    obtain ⟨sa_handler, h₁, hok⟩ := bind_ok hok
    obtain ⟨rfl, -⟩ := load_ok h₁
    split at hok
    · rename_i hnull
      split at hok
      · rename_i hfatal
        cases hok
        exact .destroyed hfirst hnull hfatal
      · rename_i hfatal
        obtain ⟨m₁, h₂, hok⟩ := bind_ok hok
        cases hok
        obtain ⟨-, rfl⟩ := signalContextFree_ok h₂
        exact .consumed hfirst hnull (by simpa using hfatal)
    · rename_i hhandler
      obtain ⟨m₁, h₂, hok⟩ := bind_ok hok
      cases hok
      rw [enterHandler_ok h₂]
      exact .entered hfirst hhandler

theorem getFirstPendingSignal_mem (h : getFirstPendingSignal t m = some sc) : sc ∈ m.list (.pending t) :=
  List.mem_of_find?_eq_some h

/-- The machine with the frame and the mask of the context back. -/
def returned (t sc : Nat) (m : Machine) : Machine :=
  { m with
    sched := { m.sched with hart := (m.context sc).contextRecover }
    blocked := update m.blocked t (m.context sc).blockedRecover
    list := toFront m.list sc .free }

theorem rt_sigreturn_ok (hok : rt_sigreturn m = .ok m') :
    ∃ t sc rest, m.sched.currentThread = some t ∧ m.list (.handling t) = sc :: rest ∧ m' = returned t sc m := by
  obtain ⟨⟨t, p⟩, hmy, hok⟩ := bind_ok hok
  dsimp only at hok
  split at hok
  · cases hok
  · rename_i sc rest hlist
    obtain ⟨m₁, h₁, hok⟩ := bind_ok hok
    cases hok
    obtain ⟨-, rfl⟩ := unlink_ok h₁
    exact ⟨t, sc, rest, Sched.myThread_ok (onSched_ok hmy), hlist, rfl⟩

/-- The machine with a signal in the context and the context at the end of the pending ones. -/
def sent (t sc : Nat) (sig : Int) (s : Sched.Machine) (m : Machine) : Machine :=
  { m with
    sched := s
    context := update m.context sc { m.context sc with signal := (sig % 256).toNat }
    list := toBack m.list sc (.pending t) }

/-- A signal sent takes the first free context. -/
theorem threadSignalSend_ok (hok : threadSignalSend t sig m = .ok (ret, m')) :
    ret = 0 ∧ ∃ sc rest s, m.list .free = sc :: rest ∧ m' = sent t sc sig s m ∧
      if sig = SIGKILL then Sched.sigkill t m.sched = .ok s else s = m.sched := by
  obtain ⟨⟨new, m₁⟩, h₁, hok⟩ := bind_ok hok
  unfold signalContextAlloc at h₁
  split at h₁
  · cases h₁
    cases hok
  · rename_i sc rest hfree
    obtain ⟨m₂, h₂, heq⟩ := map_ok h₁
    cases heq
    obtain ⟨-, rfl⟩ := unlink_ok h₂
    obtain ⟨s, h₃, hok⟩ := bind_ok hok
    cases hok
    refine ⟨rfl, sc, rest, s, hfree, rfl, ?_⟩
    by_cases hsig : sig = SIGKILL
    · rw [if_pos hsig]
      rw [if_pos hsig] at h₃
      exact onSched_ok h₃
    · rw [if_neg hsig]
      rw [if_neg hsig] at h₃
      cases h₃
      rfl

theorem findThread_mem {found : Nat → Nat → Bool} {s : Sched.Machine} {l : List Nat} (hok : findThread found s l = .ok (some t)) :
    t ∈ l := by
  induction l with
  | nil => cases hok
  | cons u l ih =>
    unfold findThread at hok
    split at hok
    · cases hok
    · split at hok
      · cases hok
        exact List.mem_cons_self ..
      · exact List.mem_cons_of_mem _ (ih hok)

/-- A list is drained into the free list. -/
theorem drain_ok (hl : Apart m.list) (hh : h ≠ .free) (hn : (m.list h).length = n) (hok : drain h n m = .ok m') :
    Drained m.list m'.list h .free ∧ Apart m'.list ∧ m' = { m with list := m'.list } := by
  induction n generalizing m with
  | zero =>
    cases hok
    exact ⟨.refl (List.eq_nil_of_length_eq_zero hn), hl, rfl⟩
  | succ n ih =>
    unfold drain at hok
    split at hok
    · rename_i hnil
      rw [hnil] at hn
      cases hn
    · rename_i sc rest hlist
      obtain ⟨m₁, h₁, hok⟩ := bind_ok hok
      obtain ⟨-, rfl⟩ := signalContextFree_ok h₁
      have hmem : sc ∈ m.list h := by
        rw [hlist]
        exact List.mem_cons_self ..
      have hm := moved_toFront m.list sc Home.free
      have hself : toFront m.list sc .free h = rest := by
        rw [hm.other h hh, hlist, List.erase_cons_head]
      have hlen : (toFront m.list sc .free h).length = n := by
        rw [hself]
        rw [hlist] at hn
        exact Nat.succ.inj hn
      obtain ⟨hd, hl', heq⟩ := ih (hm.apart hl) hlen hok
      refine ⟨.cons hl hm hmem hd, hl', ?_⟩
      rw [heq]

end Functions

/-! ## Calls -/

inductive Op
  | create (pages : Pages) (frame : Trapframe)
  | fork (pages : Pages)
  | threadFork (pages : Pages) (stackVa tls ctid : Nat)
  | exec (frame : Option Trapframe)
  | destroy (t : Nat)
  | turn
  | sigreturn
  | sigaction (sig : Int) (act : Option SignalAction) (oldAction : Bool)
  | sigprocmask (how : Int) (set : SignalSet)
  | kill (pid sig : Int)
  | tgkill (tgid tid sig : Int)
  | tkill (tid sig : Int)

/-- The signal a call sends. -/
def Op.signal : Op → Option Int
  | .kill _ sig => some sig
  | .tgkill _ _ sig => some sig
  | .tkill _ sig => some sig
  | _ => none

def perform (op : Op) (m : Machine) : Except Stop Machine :=
  match op with
  | .create pages frame => (processCreatePriority pages frame m).map (·.2)
  | .fork pages => (processFork pages m).map (·.2)
  | .threadFork pages stackVa tls ctid => (threadFork pages stackVa tls ctid m).map (·.2)
  | .exec frame => (exec frame m).map (·.2)
  | .destroy t => threadDestroy t m
  | .turn => onSched (Sched.myThread m.sched) >>= fun (t, p) => (handleTurn t p m).map (·.2)
  | .sigreturn => rt_sigreturn m
  | .sigaction sig act oldAction => (rt_sigaction sig act oldAction m).map (·.2.2)
  | .sigprocmask how set => (rt_sigprocmask how set m).map (·.2)
  | .kill pid sig => (kill pid sig m).map (·.2)
  | .tgkill tgid tid sig => (tgkill tgid tid sig m).map (·.2)
  | .tkill tid sig => (tkill tid sig m).map (·.2)

/-! ## What a call does -/

/-- Only tables, threads and processes have changed. -/
structure Beside (m m' : Machine) : Prop where
  list : m'.list = m.list
  context : m'.context = m.context
  blocked : m'.blocked = m.blocked

/-- Beside that, a thread may have been set up. -/
def Born (m m' : Machine) : Prop := Beside m m' ∨ ∃ t, Beside (threadSetup t m) m'

/-- What a call does to the lists, the contexts and the masks. -/
inductive Acts (op : Op) (m : Machine) : Machine → Prop
  | born {m' : Machine} (h : Born m m') : Acts op m m'
  | masked {t : Nat} {how : Int} {set mask : SignalSet} (hop : op = .sigprocmask how set)
      (hcur : m.sched.currentThread = some t) : Acts op m (m.setBlocked t mask)
  | consumed {t sc : Nat} (hcur : m.sched.currentThread = some t) (hmem : sc ∈ m.list (.pending t)) :
      Acts op m { m with list := toFront m.list sc .free }
  | entered {t p sc : Nat} (hcur : m.sched.currentThread = some t) (hmem : sc ∈ m.list (.pending t)) :
      Acts op m (delivered t p sc m)
  | returned {t sc : Nat} {rest : List Nat} (hcur : m.sched.currentThread = some t)
      (hlist : m.list (.handling t) = sc :: rest) : Acts op m (returned t sc m)
  | sent {t sc : Nat} {rest : List Nat} {sig : Int} {s : Sched.Machine} (hop : op.signal = some sig)
      (hfree : m.list .free = sc :: rest) :
      Acts op m (sent t sc sig s m)
  | freed {m' : Machine} {t : Nat} {l : Home → List Nat} (hpending : Drained m.list l (.pending t) .free)
      (hhandling : Drained l m'.list (.handling t) .free) (hapart : Apart m'.list)
      (hcontext : m'.context = m.context) (hblocked : m'.blocked = m.blocked) : Acts op m m'

section Acts

variable {m m₁ m' : Machine} {t p : Nat} {op : Op} {sig ret : Int} {pages : Pages} {new : Option Nat} {parentId : Nat}

theorem Beside.refl (m : Machine) : Beside m m := ⟨rfl, rfl, rfl⟩

theorem Beside.trans (h : Beside m m₁) (h' : Beside m₁ m') : Beside m m' :=
  ⟨h'.list.trans h.list, h'.context.trans h.context, h'.blocked.trans h.blocked⟩

theorem beside_setSched (m : Machine) (s : Sched.Machine) : Beside m (m.setSched s) := ⟨rfl, rfl, rfl⟩

theorem Born.beside (h : Born m m₁) (h' : Beside m₁ m') : Born m m' := by
  rcases h with h | ⟨t, h⟩
  · exact .inl (h.trans h')
  · exact .inr ⟨t, h.trans h'⟩

theorem takeThread_ok {sp : Nat} (hok : takeThread pages sp m = .ok (new, m')) :
    ∃ s, Sched.takeThread pages sp m.sched = .ok (new, s) ∧
      m' = new.elim (m.setSched s) fun t => threadSetup t (m.setSched s) := by
  obtain ⟨⟨new', s⟩, h₁, hok⟩ := bind_ok hok
  have hs := onSched_ok h₁
  cases new' with
  | none =>
    cases hok
    exact ⟨s, hs, rfl⟩
  | some t =>
    cases hok
    exact ⟨s, hs, rfl⟩

theorem born_takeThread {sp : Nat} (hok : takeThread pages sp m = .ok (new, m')) :
    Born m m' := by
  obtain ⟨s, -, rfl⟩ := takeThread_ok hok
  cases new with
  | none => exact .inl ⟨rfl, rfl, rfl⟩
  | some t => exact .inr ⟨t, rfl, rfl, rfl⟩

theorem processAlloc_ok {r : Int ⊕ Nat} (hok : processAlloc pages parentId m = .ok (r, m')) :
    ∃ s, Sched.processAlloc pages parentId m.sched = .ok (r, s) ∧
      m' = r.elim (fun _ => m.setSched s) fun p => setupProcess p (m.setSched s) := by
  obtain ⟨⟨r', s⟩, h₁, hok⟩ := bind_ok hok
  have hs := onSched_ok h₁
  cases r' with
  | inl e =>
    cases hok
    exact ⟨s, hs, rfl⟩
  | inr p =>
    cases hok
    exact ⟨s, hs, rfl⟩

theorem beside_processAlloc {r : Int ⊕ Nat} (hok : processAlloc pages parentId m = .ok (r, m')) :
    Beside m m' := by
  obtain ⟨s, -, rfl⟩ := processAlloc_ok hok
  cases r with
  | inl e => exact ⟨rfl, rfl, rfl⟩
  | inr p => exact ⟨rfl, rfl, rfl⟩

theorem born_mainThreadAlloc {r : Int ⊕ (Nat × Nat)} (hok : mainThreadAlloc pages parentId m = .ok (r, m')) : Born m m' := by
  obtain ⟨⟨new, m₁⟩, h₁, hok⟩ := bind_ok hok
  have htake := born_takeThread h₁
  cases new with
  | none =>
    cases hok
    exact htake
  | some t =>
    obtain ⟨⟨r', m₂⟩, h₂, hok⟩ := bind_ok hok
    have halloc := htake.beside (beside_processAlloc h₂)
    cases r' with
    | inl e =>
      cases hok
      exact halloc
    | inr p =>
      cases hok
      exact halloc.beside (beside_setSched m₂ _)

theorem born_processCreatePriority {frame : Trapframe}
    (hok : processCreatePriority pages frame m = .ok (new, m')) : Born m m' := by
  obtain ⟨⟨r, m₁⟩, h₁, hok⟩ := bind_ok hok
  have hmain := born_mainThreadAlloc h₁
  cases r with
  | inl e =>
    cases hok
    exact hmain
  | inr tp =>
    obtain ⟨s, -, hok⟩ := bind_ok hok
    cases hok
    exact hmain.beside (beside_setSched m₁ s)

theorem copyActions_ok {c : Nat} (hok : copyActions p c m = .ok m') :
    m.mapped p = true ∧ m' = { m with words := copiedWords p c m.words } := by
  unfold copyActions at hok
  split at hok
  · rename_i hmapped
    cases hok
    exact ⟨hmapped, rfl⟩
  · cases hok

theorem born_processFork {r : Int × Option Nat} (hok : processFork pages m = .ok (r, m')) : Born m m' := by
  obtain ⟨⟨mth, myprocess⟩, -, hok⟩ := bind_ok hok
  obtain ⟨⟨r', m₁⟩, h₁, hok⟩ := bind_ok hok
  have hmain := born_mainThreadAlloc h₁
  cases r' with
  | inl e =>
    cases hok
    exact hmain
  | inr tp =>
    obtain ⟨t, c⟩ := tp
    obtain ⟨s, -, hok⟩ := bind_ok hok
    obtain ⟨m₂, h₂, hok⟩ := bind_ok hok
    obtain ⟨-, rfl⟩ := copyActions_ok h₂
    obtain ⟨s', -, hok⟩ := bind_ok hok
    cases hok
    exact hmain.beside ⟨rfl, rfl, rfl⟩

theorem born_threadFork {stackVa tls ctid : Nat} (hok : threadFork pages stackVa tls ctid m = .ok (ret, m')) :
    Born m m' := by
  obtain ⟨⟨mth, current⟩, -, hok⟩ := bind_ok hok
  obtain ⟨⟨new, m₁⟩, h₁, hok⟩ := bind_ok hok
  have htake := born_takeThread h₁
  cases new with
  | none =>
    cases hok
    exact htake
  | some t =>
    obtain ⟨s, -, hok⟩ := bind_ok hok
    cases hok
    exact htake.beside (beside_setSched m₁ s)

theorem exec_ok {frame : Option Trapframe} (hok : exec frame m = .ok (ret, m')) : Beside m m' ∧ m'.words = m.words := by
  obtain ⟨⟨t, p⟩, -, hok⟩ := bind_ok hok
  cases frame with
  | none =>
    cases hok
    exact ⟨.refl m, rfl⟩
  | some tf =>
    cases hok
    exact ⟨⟨rfl, rfl, rfl⟩, rfl⟩

/-- A thread that ends gives back all its contexts. -/
theorem threadDestroy_ok (hl : Apart m.list) (hok : threadDestroy t m = .ok m') :
    ∃ l s, Drained m.list l (.pending t) .free ∧ Drained l m'.list (.handling t) .free ∧ Apart m'.list ∧
      Sched.threadFree t m.sched = .ok s ∧ m'.context = m.context ∧ m'.blocked = m.blocked ∧
      m'.sched = if s.currentThread = some t then { s with currentThread := none } else s := by
  obtain ⟨m₁, h₁, hok⟩ := bind_ok hok
  obtain ⟨m₂, h₂, h₁⟩ := bind_ok h₁
  obtain ⟨m₃, h₃, h₁⟩ := bind_ok h₁
  obtain ⟨s, h₄, h₁⟩ := bind_ok h₁
  obtain ⟨hd₂, hl₂, heq₂⟩ := drain_ok hl (fun heq => by cases heq) rfl h₂
  obtain ⟨hd₃, hl₃, heq₃⟩ := drain_ok hl₂ (fun heq => by cases heq) rfl h₃
  have hs := onSched_ok h₄
  cases h₁
  rw [heq₃, heq₂] at hs
  have hcontext : m₃.context = m.context := by rw [heq₃, heq₂]
  have hblocked : m₃.blocked = m.blocked := by rw [heq₃, heq₂]
  refine ⟨m₂.list, s, hd₂, ?_⟩
  by_cases hcur : s.currentThread = some t
  · rw [if_pos (show (m₃.setSched s).sched.currentThread = some t from hcur)] at hok
    cases hok
    exact ⟨hd₃, hl₃, hs, hcontext, hblocked, by rw [if_pos hcur]; rfl⟩
  · rw [if_neg (show ¬ (m₃.setSched s).sched.currentThread = some t from hcur)] at hok
    cases hok
    exact ⟨hd₃, hl₃, hs, hcontext, hblocked, by rw [if_neg hcur]; rfl⟩

theorem rt_sigaction_ok {act : Option SignalAction} {oldAction : Bool} {r : Int × Option SignalAction × Machine}
    (hok : rt_sigaction sig act oldAction m = .ok r) : Beside m r.2.2 ∧ r.2.2.sched = m.sched := by
  obtain ⟨⟨t, p⟩, -, hok⟩ := bind_ok hok
  dsimp only at hok
  split at hok
  · cases hok
    exact ⟨.refl m, rfl⟩
  · split at hok
    · cases hok
      cases act with
      | none => exact ⟨⟨rfl, rfl, rfl⟩, rfl⟩
      | some a => exact ⟨⟨rfl, rfl, rfl⟩, rfl⟩
    · cases hok

theorem rt_sigprocmask_ok {how : Int} {set : SignalSet} (hok : rt_sigprocmask how set m = .ok (ret, m')) :
    m' = m ∨ ∃ t mask, m.sched.currentThread = some t ∧ m' = m.setBlocked t mask := by
  obtain ⟨⟨t, p⟩, hmy, hok⟩ := bind_ok hok
  have hcur := Sched.myThread_ok (onSched_ok hmy)
  dsimp only at hok
  split at hok
  · cases hok
    exact .inr ⟨t, _, hcur, rfl⟩
  · split at hok
    · cases hok
      exact .inr ⟨t, _, hcur, rfl⟩
    · split at hok
      · cases hok
        exact .inr ⟨t, _, hcur, rfl⟩
      · cases hok
        exact .inl rfl

/-- The signal goes to no thread, or to one that `usedThreads` links. -/
theorem kill_ok {pid : Int} (hok : kill pid sig m = .ok (ret, m')) :
    (m' = m ∧ ret = 0) ∨ ∃ t ∈ m.sched.usedThreads, threadSignalSend t sig m = .ok (ret, m') := by
  obtain ⟨found, h₁, hok⟩ := bind_ok hok
  cases found with
  | none =>
    cases hok
    exact .inl ⟨rfl, rfl⟩
  | some t =>
    obtain ⟨⟨ret', m₁⟩, h₂, hok⟩ := bind_ok hok
    obtain ⟨rfl, -⟩ := threadSignalSend_ok h₂
    cases hok
    exact .inr ⟨t, findThread_mem h₁, h₂⟩

theorem tgkill_ok {tgid tid : Int} (hok : tgkill tgid tid sig m = .ok (ret, m')) :
    (m' = m ∧ ret = -Sched.ESRCH) ∨ ∃ t ∈ m.sched.usedThreads, threadSignalSend t sig m = .ok (ret, m') := by
  obtain ⟨found, h₁, hok⟩ := bind_ok hok
  cases found with
  | none =>
    cases hok
    exact .inl ⟨rfl, rfl⟩
  | some t => exact .inr ⟨t, findThread_mem h₁, hok⟩

theorem tkill_ok {tid : Int} (hok : tkill tid sig m = .ok (ret, m')) :
    (m' = m ∧ ret = -Sched.ESRCH) ∨ ∃ t, Sched.tid2Thread (tid % 2 ^ 32).toNat m.sched = .ok (some t) ∧
      threadSignalSend t sig m = .ok (ret, m') := by
  obtain ⟨found, h₁, hok⟩ := bind_ok hok
  cases found with
  | none =>
    cases hok
    exact .inl ⟨rfl, rfl⟩
  | some t => exact .inr ⟨t, onSched_ok h₁, hok⟩

theorem acts_send (hop : op.signal = some sig) (hok : threadSignalSend t sig m = .ok (ret, m')) : Acts op m m' := by
  obtain ⟨-, sc, rest, s, hfree, rfl, -⟩ := threadSignalSend_ok hok
  exact .sent hop hfree

/-- **Every call is one of these.** -/
theorem acts_perform (hl : Apart m.list) (hok : perform op m = .ok m') : Acts op m m' := by
  cases op with
  | create pages frame =>
    obtain ⟨r, h, rfl⟩ := map_ok hok
    exact .born (born_processCreatePriority h)
  | fork pages =>
    obtain ⟨r, h, rfl⟩ := map_ok hok
    exact .born (born_processFork h)
  | threadFork pages stackVa tls ctid =>
    obtain ⟨r, h, rfl⟩ := map_ok hok
    exact .born (born_threadFork h)
  | exec frame =>
    obtain ⟨r, h, rfl⟩ := map_ok hok
    exact .born (.inl (exec_ok h).1)
  | destroy t =>
    obtain ⟨l, s, hp, hh, hapart, -, hcontext, hblocked, -⟩ := threadDestroy_ok hl hok
    exact .freed hp hh hapart hcontext hblocked
  | turn =>
    obtain ⟨⟨t, p⟩, hmy, hok⟩ := bind_ok hok
    have hcur := Sched.myThread_ok (onSched_ok hmy)
    obtain ⟨⟨r, m₁⟩, h, rfl⟩ := map_ok hok
    cases handleTurn_ok h with
    | idle => exact .born (.inl (.refl m))
    | destroyed => exact .born (.inl (.refl m))
    | consumed hfirst => exact .consumed hcur (getFirstPendingSignal_mem hfirst)
    | entered hfirst => exact .entered hcur (getFirstPendingSignal_mem hfirst)
  | sigreturn =>
    obtain ⟨t, sc, rest, hcur, hlist, rfl⟩ := rt_sigreturn_ok hok
    exact .returned hcur hlist
  | sigaction sig act oldAction =>
    obtain ⟨r, h, rfl⟩ := map_ok hok
    exact .born (.inl (rt_sigaction_ok h).1)
  | sigprocmask how set =>
    obtain ⟨r, h, rfl⟩ := map_ok hok
    rcases rt_sigprocmask_ok h with heq | ⟨t, mask, hcur, heq⟩
    · rw [heq]
      exact .born (.inl (.refl m))
    · rw [heq]
      exact .masked rfl hcur
  | kill pid sig =>
    obtain ⟨r, h, rfl⟩ := map_ok hok
    rcases kill_ok h with ⟨heq, -⟩ | ⟨t, -, hsend⟩
    · rw [heq]
      exact .born (.inl (.refl m))
    · exact acts_send rfl hsend
  | tgkill tgid tid sig =>
    obtain ⟨r, h, rfl⟩ := map_ok hok
    rcases tgkill_ok h with ⟨heq, -⟩ | ⟨t, -, hsend⟩
    · rw [heq]
      exact .born (.inl (.refl m))
    · exact acts_send rfl hsend
  | tkill tid sig =>
    obtain ⟨r, h, rfl⟩ := map_ok hok
    rcases tkill_ok h with ⟨heq, -⟩ | ⟨t, -, hsend⟩
    · rw [heq]
      exact .born (.inl (.refl m))
    · exact acts_send rfl hsend

end Acts

/-! ## Runs -/

/-- A call `ok` admits, or something else that happens to threads, as `env` admits. -/
inductive Step (ok : Op → Machine → Prop) (env : Sched.Machine → Sched.Machine → Prop) (m : Machine) : Machine → Prop
  | call {op : Op} {m' : Machine} (hop : ok op m) (hok : perform op m = .ok m') : Step ok env m m'
  | other {s : Sched.Machine} (h : env m.sched s) : Step ok env m (m.setSched s)

section Runs

variable {ok : Op → Machine → Prop} {env : Sched.Machine → Sched.Machine → Prop} {init : Machine → Prop} {m m' : Machine}

theorem Turned.myThread {t p : Nat} {r : Turn} (h : Turned t p m r m') : Sched.myThread m'.sched = Sched.myThread m.sched := by
  cases h with
  | idle => rfl
  | destroyed => rfl
  | consumed => rfl
  | entered => rfl

theorem perform_turn {t p : Nat} {r : Turn} (hmy : Sched.myThread m.sched = .ok (t, p)) (hok : handleTurn t p m = .ok (r, m')) :
    perform .turn m = .ok m' := by
  show (onSched (Sched.myThread m.sched) >>= fun (t, p) => (handleTurn t p m).map (·.2)) = .ok m'
  rw [hmy]
  show (handleTurn t p m).map (·.2) = .ok m'
  rw [hok]
  rfl

end Runs

def performAll (ops : List Op) (m : Machine) : Except Stop Machine := ops.foldlM (fun m op => perform op m) m

theorem reach_performAll {ok : Op → Machine → Prop} {env : Sched.Machine → Sched.Machine → Prop} {init : Machine → Prop}
    {m m' : Machine} {ops : List Op} (h : Reach init (Step ok env) m) (hops : ∀ op ∈ ops, ∀ m, ok op m)
    (hok : performAll ops m = .ok m') : Reach init (Step ok env) m' := by
  induction ops generalizing m with
  | nil =>
    cases hok
    exact h
  | cons op ops ih =>
    unfold performAll at hok
    rw [List.foldlM_cons] at hok
    obtain ⟨m₁, h₁, hok⟩ := bind_ok hok
    exact ih (h.step (.call (hops op (List.mem_cons_self ..) m) h₁)) (fun op' hop' => hops op' (List.mem_cons_of_mem _ hop')) hok

/-- The machine before `signalInit`. -/
def zero : Machine where
  sched := Sched.boot
  context := fun _ => { contextRecover := fun _ => 0, blockedRecover := 0, signal := 0 }
  list := fun _ => []
  blocked := fun _ => 0
  words := fun _ => 0
  mapped := fun _ => false

/-- `signalInit` -/
def signalInit (m : Machine) : Machine := (List.range SIGNAL_CONTEXT_COUNT).foldl (fun m i => insertHead .free i m) m

/-- The machine after `signalInit`. -/
@[irreducible] def boot : Machine := signalInit zero

theorem foldl_insertHead (l : List Nat) (m : Machine) :
    l.foldl (fun m i => insertHead .free i m) m = m.setList .free (l.reverse ++ m.list .free) := by
  induction l generalizing m with
  | nil =>
    show m = { m with list := update m.list .free (m.list .free) }
    rw [update_eq_self]
  | cons i l ih =>
    rw [List.foldl_cons, ih]
    unfold insertHead Machine.setList
    dsimp only
    rw [update_self, update_idem, List.reverse_cons, List.append_assoc]
    rfl

/-- `signalInit` puts each context in front of those before it. -/
theorem boot_eq : boot = zero.setList .free (List.range SIGNAL_CONTEXT_COUNT).reverse := by
  unfold boot signalInit
  rw [foldl_insertHead]
  generalize (List.range SIGNAL_CONTEXT_COUNT).reverse = l
  rw [show zero.list .free = [] from rfl, List.append_nil]

theorem boot_sched : boot.sched = Sched.boot := congrArg Machine.sched boot_eq

/-- The first process, with its thread running. -/
def started : Except Stop Machine :=
  (perform (.create ⟨true, true, true⟩ fun _ => 0) boot).map fun m => m.setSched (Sched.threadRun 0 m.sched)

/-- Thread 0 is live, in process 0. -/
def First (s : Sched.Machine) : Prop := 0 ∈ s.usedThreads ∧ (s.threads 0).process = some 0 ∧ 0 ∉ s.freeProcesses

instance (s : Sched.Machine) : Decidable (First s) := inferInstanceAs (Decidable (_ ∧ _))

theorem reach_started {ok : Op → Machine → Prop} {env : Sched.Machine → Sched.Machine → Prop} {m : Machine}
    (hok : ∀ m, ok (.create ⟨true, true, true⟩ fun _ => 0) m) (henv : ∀ s, First s → env s (Sched.threadRun 0 s))
    (h : started = .ok m) : Reach (· = boot) (Step ok env) m := by
  have hfirst : ((perform (.create ⟨true, true, true⟩ fun _ => 0) boot).toOption.map
      fun m => decide (First m.sched)) = some true := by
    rw [boot_eq]
    decide +kernel
  obtain ⟨m₁, h₁, hmade⟩ := exists_of_toOption hfirst
  unfold started at h
  rw [h₁] at h
  cases h
  refine .step (.step (.init rfl) (.call (hok _) h₁)) (.other (henv _ ?_))
  exact of_decide_eq_true hmade

end Exaros.Signal
