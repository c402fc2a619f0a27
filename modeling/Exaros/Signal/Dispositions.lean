import Exaros.Process.Owner
import Exaros.Signal.Valid

/-!
# Dispositions

The table of a process over its life. `setupProcess` gives a new process a page of zeros, into which `processFork`
copies the table of the parent; `rt_sigaction` writes one entry. `exec` should reset the table and does not touch it,
so that it does what it should only where there is nothing to reset.
-/

namespace Exaros.Signal

open Loop Run
open Sched (Idles Orderly Owns Pages Stays Trapframe)
open Function (update update_self update_of_ne)

/-- All dispositions of the process are the default ones. -/
def Default (m : Machine) (p : Nat) : Prop := ∀ s : Nat, ValidSignal s → m.disposition p s = ⟨0, 0, 0⟩

/-- The table of `p` is now what that of `q` was. -/
def Copied (m : Machine) (q : Nat) (m' : Machine) (p : Nat) : Prop :=
  ∀ s : Nat, ValidSignal s → m'.disposition p s = m.disposition q s

/-- What a call should do to the tables. -/
def Follows (m m' : Machine) : Op → Prop
  | .create pages frame => ∀ c, processCreatePriority pages frame m = .ok (some c, m') →
      Default m' c ∧ ∀ q, q ≠ c → Copied m q m' q
  | .fork pages => ∀ ret c t p, processFork pages m = .ok ((ret, some c), m') → Sched.myThread m.sched = .ok (t, p) →
      Copied m p m' c ∧ ∀ q, q ≠ c → Copied m q m' q
  | .threadFork _ _ _ _ => ∀ q, Copied m q m' q
  | .sigaction sig act oldAction => ∀ ret old t p, rt_sigaction sig act oldAction m = .ok (ret, old, m') →
      Sched.myThread m.sched = .ok (t, p) → ValidSignal sig →
      ret = 0 ∧ old = (if oldAction then some (m.disposition p sig.toNat) else none) ∧
      m'.disposition p sig.toNat = act.getD (m.disposition p sig.toNat) ∧
      ∀ (q s : Nat), ValidSignal s → (q ≠ p ∨ s ≠ sig.toNat) → m'.disposition q s = m.disposition q s
  | .exec frame => ∀ t p, exec frame m = .ok (0, m') → Sched.myThread m.sched = .ok (t, p) →
      Default m' p ∧ ∀ q, q ≠ p → Copied m q m' q
  | _ => True

/-- An `exec` that succeeds is that of a process without handlers. -/
def Bare (m : Machine) (op : Op) : Prop :=
  ∀ tf t p, op = .exec (some tf) → Sched.myThread m.sched = .ok (t, p) → Default m p

/-- What happens to threads beside these calls; it does not free the process of the thread that runs. -/
def Scheduled (s s' : Sched.Machine) : Prop := Idles s s' ∧ Owns s'

/-! ## Entries -/

section Entries

variable {m m' : Machine} {p q c s : Nat} {i : Int}

/-- The words of an entry are on the page of the process, among the first 192. -/
theorem action_range (hs : ValidSignal s) (hi : 0 ≤ i) (hi' : i < 3) :
    getSignalHandler p ≤ action p s + i ∧ action p s + i < getSignalHandler p + 192 := by
  obtain ⟨hlo, hhi⟩ := hs
  unfold SIGNAL_COUNT at hhi
  unfold action
  omega

theorem action_page (hs : ValidSignal s) (hi : 0 ≤ i) (hi' : i < 3) : (action p s + i) / 512 = p := by
  obtain ⟨hlo, hhi⟩ := action_range (p := p) hs hi hi'
  unfold getSignalHandler at hlo hhi
  omega

/-- Another entry is three words of its own. -/
theorem action_ne {s' : Nat} (hs : ValidSignal s) (hs' : ValidSignal s') (hne : q ≠ p ∨ s ≠ s') (hi : 0 ≤ i) (hi' : i < 3) :
    action q s + i ≠ action p s' ∧ action q s + i ≠ action p s' + 1 ∧ action q s + i ≠ action p s' + 2 := by
  have hword : ∀ j : Int, 0 ≤ j → j < 3 → action q s + i ≠ action p s' + j := fun j hj hj' heq => by
    have hpage : (action q s + i) / 512 = (action p s' + j) / 512 := by rw [heq]
    rw [action_page hs hi hi', action_page hs' hj hj'] at hpage
    have hqp := Int.natCast_inj.mp hpage
    rw [hqp] at heq
    unfold action at heq
    exact hne.elim (fun hne => hne hqp) fun hne => hne (by omega)
  have h₀ := hword 0 (by decide) (by decide)
  rw [Int.add_zero] at h₀
  exact ⟨h₀, hword 1 (by decide) (by decide), hword 2 (by decide) (by decide)⟩

theorem disposition_congr (h : ∀ i : Int, 0 ≤ i → i < 3 → m'.words (action p s + i) = m.words (action q s + i)) :
    m'.disposition p s = m.disposition q s := by
  have h₀ := h 0 (by decide) (by decide)
  rw [Int.add_zero, Int.add_zero] at h₀
  have h₁ := h 1 (by decide) (by decide)
  have h₂ := h 2 (by decide) (by decide)
  unfold Machine.disposition
  rw [h₀, h₁, h₂]

theorem copied_of_words (h : m'.words = m.words) : Copied m q m' q := fun s _ =>
  disposition_congr fun i _ _ => by rw [h]

/-- The words after a page has been cleared. -/
theorem cleared_words (hs : ValidSignal s) (hi : 0 ≤ i) (hi' : i < 3)
    (h : m'.words = fun w => if w / 512 = (c : Int) then 0 else m.words w) :
    m'.words (action q s + i) = if q = c then 0 else m.words (action q s + i) := by
  rw [h]
  dsimp only
  rw [action_page hs hi hi']
  by_cases hq : q = c
  · rw [if_pos hq, if_pos (congrArg _ hq)]
  · rw [if_neg hq, if_neg fun heq => hq (Int.natCast_inj.mp heq)]

theorem default_of_cleared (h : m'.words = fun w => if w / 512 = (c : Int) then 0 else m.words w) : Default m' c := fun s hs => by
  have hzero : ∀ i : Int, 0 ≤ i → i < 3 → m'.words (action c s + i) = 0 := fun i hi hi' => by
    rw [cleared_words hs hi hi' h, if_pos rfl]
  have h₀ := hzero 0 (by decide) (by decide)
  rw [Int.add_zero] at h₀
  have h₁ := hzero 1 (by decide) (by decide)
  have h₂ := hzero 2 (by decide) (by decide)
  unfold Machine.disposition
  rw [h₀, h₁, h₂]

theorem copied_of_cleared (h : m'.words = fun w => if w / 512 = (c : Int) then 0 else m.words w) (hq : q ≠ c) :
    Copied m q m' q := fun s hs => disposition_congr fun i hi hi' => by
  rw [cleared_words hs hi hi' h, if_neg hq]

/-- The words of a table after it has been copied. -/
theorem copiedWords_action {words : Int → BitVec 64} (hs : ValidSignal s) (hi : 0 ≤ i) (hi' : i < 3) :
    copiedWords p c words (action q s + i) = if q = c then words (action p s + i) else words (action q s + i) := by
  obtain ⟨hlo, hhi⟩ := action_range (p := q) hs hi hi'
  unfold copiedWords
  by_cases hq : q = c
  · rw [if_pos hq, if_pos ⟨hq ▸ hlo, hq ▸ (by omega)⟩, hq]
    apply congrArg
    unfold action
    omega
  · rw [if_neg hq, if_neg]
    rintro ⟨hlo', hhi'⟩
    unfold getSignalHandler at hlo hhi hlo' hhi'
    apply hq
    omega

/-- The entry that a `store` of three words leaves. -/
theorem stored_words {k : Int} {a : SignalAction} (w : Int) :
    (((m.store k a.sa_handler).store (k + 1) a.sa_flags).store (k + 2) a.sa_mask).words w =
      if w = k then a.sa_handler else if w = k + 1 then a.sa_flags else if w = k + 2 then a.sa_mask else m.words w := by
  show update (update (update m.words k _) (k + 1) _) (k + 2) _ w = _
  by_cases h₀ : w = k
  · rw [if_pos h₀, update_of_ne (by omega), update_of_ne (by omega), h₀, update_self]
  · by_cases h₁ : w = k + 1
    · rw [if_neg h₀, if_pos h₁, update_of_ne (by omega), h₁, update_self]
    · by_cases h₂ : w = k + 2
      · rw [if_neg h₀, if_neg h₁, if_pos h₂, h₂, update_self]
      · rw [if_neg h₀, if_neg h₁, if_neg h₂, update_of_ne h₂, update_of_ne h₁, update_of_ne h₀]

end Entries

/-! ## Calls -/

section Calls

variable {m m₁ m' : Machine} {t p c : Nat} {op : Op} {sig ret : Int} {pages : Pages}

theorem stays_takeThread (ho : Orderly m.sched) {sp : Nat} {new : Option Nat} (hok : takeThread pages sp m = .ok (new, m')) :
    Stays m.sched m'.sched ∧ m'.words = m.words ∧ ∀ t, new = some t → m'.sched.currentThread ≠ some t := by
  obtain ⟨s, hs, rfl⟩ := takeThread_ok hok
  obtain ⟨hstays, hnew⟩ := Sched.stays_takeThread ho hs
  cases new with
  | none => exact ⟨hstays, rfl, hnew⟩
  | some t => exact ⟨hstays, rfl, hnew⟩

theorem stays_processAlloc {parentId : Nat} {r : Int ⊕ Nat} (hok : processAlloc pages parentId m = .ok (r, m')) :
    Stays m.sched m'.sched ∧ ∀ c, r = .inr c → c ∈ m.sched.freeProcesses ∧
      m'.words = fun w => if w / 512 = (c : Int) then 0 else m.words w := by
  obtain ⟨s, hs, rfl⟩ := processAlloc_ok hok
  obtain ⟨hstays, hnew⟩ := Sched.stays_processAlloc hs
  cases r with
  | inl e => exact ⟨hstays, fun c hc => by cases hc⟩
  | inr p =>
    refine ⟨hstays, fun c hc => ?_⟩
    cases hc
    exact ⟨hnew p rfl, rfl⟩

/-- A new process was free, and its page is cleared. -/
theorem stays_mainThreadAlloc (ho : Orderly m.sched) {parentId : Nat} {r : Int ⊕ (Nat × Nat)}
    (hok : mainThreadAlloc pages parentId m = .ok (r, m')) :
    Stays m.sched m'.sched ∧ ∀ t c, r = .inr (t, c) → c ∈ m.sched.freeProcesses ∧
      m'.words = fun w => if w / 512 = (c : Int) then 0 else m.words w := by
  obtain ⟨⟨new, m₁⟩, h₁, hok⟩ := bind_ok hok
  obtain ⟨htake, hwords, hne⟩ := stays_takeThread ho h₁
  cases new with
  | none =>
    cases hok
    exact ⟨htake, fun t c hr => by cases hr⟩
  | some u =>
    obtain ⟨⟨r', m₂⟩, h₂, hok⟩ := bind_ok hok
    obtain ⟨halloc, hnew⟩ := stays_processAlloc h₂
    cases r' with
    | inl e =>
      cases hok
      exact ⟨htake.trans halloc, fun t c hr => by cases hr⟩
    | inr d =>
      cases hok
      have hcur : m₂.sched.currentThread ≠ some u := fun h => hne u rfl (halloc.current.symm.trans h)
      refine ⟨(htake.trans halloc).trans (Sched.stays_attach hcur), fun t c hr => ?_⟩
      cases hr
      obtain ⟨hfree, hcleared⟩ := hnew d rfl
      refine ⟨htake.free d hfree, ?_⟩
      show m₂.words = _
      rw [hcleared, hwords]

/-- A new process has the default dispositions, and the tables of the others are as before. -/
theorem processCreatePriority_tables (ho : Orderly m.sched) {frame : Trapframe} {new : Option Nat}
    (hok : processCreatePriority pages frame m = .ok (new, m')) :
    Stays m.sched m'.sched ∧ ∀ c, new = some c → m'.words = fun w => if w / 512 = (c : Int) then 0 else m.words w := by
  obtain ⟨⟨r, m₁⟩, h₁, hok⟩ := bind_ok hok
  obtain ⟨hmain, hnew⟩ := stays_mainThreadAlloc ho h₁
  cases r with
  | inl e =>
    cases hok
    exact ⟨hmain, fun c hc => by cases hc⟩
  | inr tp =>
    obtain ⟨u, d⟩ := tp
    obtain ⟨s, hs, hok⟩ := bind_ok hok
    cases hok
    have hset : Stays m₁.sched (m₁.sched.setThread u { m₁.sched.threads u with trapframe := frame }) := Sched.stays_setThread rfl
    refine ⟨hmain.trans (hset.trans (Sched.stays_start (onSched_ok hs))), fun c hc => ?_⟩
    cases hc
    exact (hnew u d rfl).2

/-- A forked process was free, its page has been cleared, and the table of the caller copied there. -/
theorem processFork_tables (ho : Orderly m.sched) {r : Int × Option Nat} (hok : processFork pages m = .ok (r, m')) :
    Stays m.sched m'.sched ∧ ∀ c t p, r.2 = some c → Sched.myThread m.sched = .ok (t, p) → c ∈ m.sched.freeProcesses ∧
      m'.words = copiedWords p c fun w => if w / 512 = (c : Int) then 0 else m.words w := by
  obtain ⟨⟨mth, myprocess⟩, hmy, hok⟩ := bind_ok hok
  obtain ⟨⟨r', m₁⟩, h₁, hok⟩ := bind_ok hok
  obtain ⟨hmain, hnew⟩ := stays_mainThreadAlloc ho h₁
  cases r' with
  | inl e =>
    cases hok
    exact ⟨hmain, fun c t p hc => by cases hc⟩
  | inr tp =>
    obtain ⟨u, d⟩ := tp
    obtain ⟨s, hslots, hok⟩ := bind_ok hok
    obtain ⟨m₂, h₂, hok⟩ := bind_ok hok
    obtain ⟨-, rfl⟩ := copyActions_ok h₂
    obtain ⟨s', hstart, hok⟩ := bind_ok hok
    cases hok
    have hfork : Stays m₁.sched s :=
      foldlM_inv (onSched_ok hslots) (Stays.refl _) fun s₁ i s₂ h₁ h₂ => h₁.trans (Sched.moves_forkSlot h₂).stays
    have hset : ∀ frame, Stays s (s.setThread u { s.threads u with trapframe := frame }) := fun frame => Sched.stays_setThread rfl
    refine ⟨hmain.trans (hfork.trans ((hset _).trans (Sched.stays_start (onSched_ok hstart)))), fun c t p hc hmy' => ?_⟩
    cases hc
    cases (onSched_ok hmy).symm.trans hmy'
    obtain ⟨hfree, hcleared⟩ := hnew u d rfl
    refine ⟨hfree, ?_⟩
    show copiedWords myprocess d m₁.words = _
    rw [hcleared]

/-- A new thread touches no table. -/
theorem threadFork_tables (ho : Orderly m.sched) {stackVa tls ctid : Nat}
    (hok : threadFork pages stackVa tls ctid m = .ok (ret, m')) : Stays m.sched m'.sched ∧ m'.words = m.words := by
  obtain ⟨⟨mth, current⟩, -, hok⟩ := bind_ok hok
  obtain ⟨⟨new, m₁⟩, h₁, hok⟩ := bind_ok hok
  obtain ⟨htake, hwords, hne⟩ := stays_takeThread ho h₁
  cases new with
  | none =>
    cases hok
    exact ⟨htake, hwords⟩
  | some u =>
    obtain ⟨s, hs, hok⟩ := bind_ok hok
    cases hok
    have hattach : Stays m₁.sched (Sched.attach u current m₁.sched) := Sched.stays_attach (hne u rfl)
    refine ⟨htake.trans (hattach.trans (Stays.trans ?_ (Sched.stays_start (onSched_ok hs)))), hwords⟩
    exact Sched.stays_setThread rfl

theorem stays_hart (s : Sched.Machine) (tf : Trapframe) : Stays s { s with hart := tf } :=
  Sched.stays_of_process rfl (fun _ => rfl) rfl

theorem stays_send (hok : threadSignalSend t sig m = .ok (ret, m')) : Stays m.sched m'.sched := by
  obtain ⟨-, sc, rest, s, -, rfl, hs⟩ := threadSignalSend_ok hok
  split at hs
  · exact Sched.stays_sigkill hs
  · rw [hs]
    exact Stays.refl _

/-- The end of a thread leaves the one that runs where it is, unless it is itself. -/
theorem owns_threadDestroy (hp : Pool m) (ho : Owns m.sched) (hok : threadDestroy t m = .ok m') : Owns m'.sched := by
  obtain ⟨l, s, -, -, -, hfree, -, -, hsched⟩ := threadDestroy_ok hp.apart hok
  have hs : Owns s := ho.stays (Sched.stays_threadFree hp.orderly.futex hfree)
  rw [hsched]
  split
  · intro u p hmy
    cases hmy
  · exact hs

/-- **No call frees the process of the thread that runs.** -/
theorem owns_perform (hp : Pool m) (ho : Owns m.sched) (hok : perform op m = .ok m') : Owns m'.sched := by
  cases op with
  | create pages frame =>
    obtain ⟨r, hr, rfl⟩ := map_ok hok
    exact ho.stays (processCreatePriority_tables hp.orderly hr).1
  | fork pages =>
    obtain ⟨r, hr, rfl⟩ := map_ok hok
    exact ho.stays (processFork_tables hp.orderly hr).1
  | threadFork pages stackVa tls ctid =>
    obtain ⟨r, hr, rfl⟩ := map_ok hok
    exact ho.stays (threadFork_tables hp.orderly hr).1
  | exec frame =>
    obtain ⟨r, hr, rfl⟩ := map_ok hok
    obtain ⟨⟨t, p⟩, -, hr⟩ := bind_ok hr
    cases frame with
    | none =>
      cases hr
      exact ho
    | some tf =>
      cases hr
      have hset : Stays m.sched (m.sched.setThread t { m.sched.threads t with clearChildTid := 0 }) := Sched.stays_setThread rfl
      exact ho.stays (hset.trans (stays_hart _ tf))
  | destroy t => exact owns_threadDestroy hp ho hok
  | turn =>
    obtain ⟨⟨t, p⟩, -, hok⟩ := bind_ok hok
    obtain ⟨⟨r, m₁⟩, hr, rfl⟩ := map_ok hok
    cases handleTurn_ok hr with
    | idle => exact ho
    | destroyed => exact ho
    | consumed => exact ho
    | entered => exact ho.stays (stays_hart _ _)
  | sigreturn =>
    obtain ⟨t, sc, rest, -, -, rfl⟩ := rt_sigreturn_ok hok
    exact ho.stays (stays_hart _ _)
  | sigaction sig act oldAction =>
    obtain ⟨r, hr, rfl⟩ := map_ok hok
    rw [(rt_sigaction_ok hr).2]
    exact ho
  | sigprocmask how set =>
    obtain ⟨r, hr, rfl⟩ := map_ok hok
    rcases rt_sigprocmask_ok hr with heq | ⟨t, mask, -, heq⟩
    · rw [heq]
      exact ho
    · rw [heq]
      exact ho
  | kill pid sig =>
    obtain ⟨r, hr, rfl⟩ := map_ok hok
    rcases kill_ok hr with ⟨heq, -⟩ | ⟨t, -, hsend⟩
    · rw [heq]
      exact ho
    · exact ho.stays (stays_send hsend)
  | tgkill tgid tid sig =>
    obtain ⟨r, hr, rfl⟩ := map_ok hok
    rcases tgkill_ok hr with ⟨heq, -⟩ | ⟨t, -, hsend⟩
    · rw [heq]
      exact ho
    · exact ho.stays (stays_send hsend)
  | tkill tid sig =>
    obtain ⟨r, hr, rfl⟩ := map_ok hok
    rcases tkill_ok hr with ⟨heq, -⟩ | ⟨t, -, hsend⟩
    · rw [heq]
      exact ho
    · exact ho.stays (stays_send hsend)

/-- `rt_sigaction` writes the entry, and nothing else. -/
theorem follows_sigaction {act : Option SignalAction} {oldAction : Bool} : Follows m m' (.sigaction sig act oldAction) := by
  intro ret old t p hok hmy hsig
  unfold rt_sigaction at hok
  rw [hmy] at hok
  have hvalid : ¬ (sig < 1 ∨ sig > SIGNAL_COUNT) := fun h => h.elim (fun h => absurd hsig.1 (by omega)) fun h => absurd hsig.2 (by omega)
  have hcast : ((sig.toNat : Nat) : Int) = sig := Int.toNat_of_nonneg (by omega)
  have hentry : ValidSignal (sig.toNat : Nat) := by
    rw [hcast]
    exact hsig
  obtain ⟨s₀, hs₀, hok⟩ := bind_ok hok
  cases hs₀
  dsimp only at hok
  rw [if_neg hvalid] at hok
  split at hok
  · cases act with
    | none =>
      cases hok
      exact ⟨rfl, rfl, rfl, fun _ _ _ _ => rfl⟩
    | some a =>
      cases hok
      refine ⟨rfl, rfl, ?_, fun q s hs hne => disposition_congr fun i hi hi' => ?_⟩
      · show SignalAction.mk _ _ _ = a
        rw [stored_words, stored_words, stored_words, if_pos rfl, if_neg (by omega), if_pos rfl, if_neg (by omega), if_neg (by omega),
          if_pos rfl]
      · obtain ⟨h₀, h₁, h₂⟩ := action_ne hs hentry hne hi hi'
        rw [stored_words, if_neg h₀, if_neg h₁, if_neg h₂]
  · cases hok

/-- **A call follows the life cycle exactly if it is no `exec` with handlers to reset.** -/
theorem follows_iff (hp : Pool m) (ho : Owns m.sched) (hok : perform op m = .ok m') : Follows m m' op ↔ Bare m op := by
  have hbare : (∀ tf, op ≠ .exec (some tf)) → Bare m op := fun hne tf _ _ heq => absurd heq (hne tf)
  cases op with
  | create pages frame =>
    refine iff_of_true (fun c hc => ?_) (hbare fun tf heq => by cases heq)
    have hwords := (processCreatePriority_tables hp.orderly hc).2 c rfl
    exact ⟨default_of_cleared hwords, fun q hq => copied_of_cleared hwords hq⟩
  | fork pages =>
    refine iff_of_true (fun ret c t p hc hmy => ?_) (hbare fun tf heq => by cases heq)
    obtain ⟨hfree, hwords⟩ := (processFork_tables hp.orderly hc).2 c t p rfl hmy
    have hne : p ≠ c := fun hpc => ho t p hmy (hpc ▸ hfree)
    refine ⟨fun s hs => disposition_congr fun i hi hi' => ?_, fun q hq s hs => disposition_congr fun i hi hi' => ?_⟩
    · rw [hwords, copiedWords_action hs hi hi', if_pos rfl, action_page hs hi hi', if_neg fun heq => hne (Int.natCast_inj.mp heq)]
    · rw [hwords, copiedWords_action hs hi hi', if_neg hq, action_page hs hi hi', if_neg fun heq => hq (Int.natCast_inj.mp heq)]
  | threadFork pages stackVa tls ctid =>
    refine iff_of_true (fun q => ?_) (hbare fun tf heq => by cases heq)
    obtain ⟨r, hr, rfl⟩ := map_ok hok
    exact copied_of_words (threadFork_tables hp.orderly hr).2
  | exec frame =>
    obtain ⟨r, hr, rfl⟩ := map_ok hok
    have hwords := (exec_ok hr).2
    have hsame : ∀ q, Copied m q r.2 q := fun q => copied_of_words hwords
    constructor
    · intro hf tf t p heq hmy s hs
      cases heq
      have hzero : exec (some tf) m = .ok (0, r.2) := by
        have hr' := hr
        obtain ⟨tp, -, hr'⟩ := bind_ok hr'
        cases hr'
        exact hr
      rw [← hsame p s hs]
      exact (hf t p hzero hmy).1 s hs
    · intro hb t p hzero hmy
      refine ⟨fun s hs => ?_, fun q _ => hsame q⟩
      cases frame with
      | none =>
        obtain ⟨tp, -, hzero⟩ := bind_ok hzero
        cases hzero
      | some tf =>
        rw [hsame p s hs]
        exact hb tf t p rfl hmy s hs
  | sigaction sig act oldAction => exact iff_of_true follows_sigaction (hbare fun tf heq => by cases heq)
  | _ => exact iff_of_true trivial (hbare fun tf heq => by cases heq)

end Calls

/-! ## Runs -/

section Runs

variable {m m' : Machine} {op : Op}

theorem owns_of_reach (h : Reach (· = boot) (Step (fun _ _ => True) Scheduled) m) : Pool m ∧ Owns m.sched := by
  have hinit : ∀ m₀ : Machine, m₀ = boot → Pool m₀ ∧ Owns m₀.sched := fun m₀ h₀ => by
    rw [h₀]
    refine ⟨pool_boot, fun t p hmy => ?_⟩
    rw [boot_sched] at hmy
    cases hmy
  refine h.invariant hinit fun m₁ m₂ h₁ hstep => ?_
  cases hstep with
  | call _ hok => exact ⟨h₁.1.perform hok, owns_perform h₁.1 h₁.2 hok⟩
  | other hs => exact ⟨h₁.1.idles rfl hs.1, hs.2⟩

/-- **Dispositions follow the life of the process** in every run, but for an `exec` with handlers to reset. -/
theorem dispositions_follow_iff (h : Reach (· = boot) (Step (fun _ _ => True) Scheduled) m) (hok : perform op m = .ok m') :
    Follows m m' op ↔ Bare m op := by
  obtain ⟨hp, ho⟩ := owns_of_reach h
  exact follows_iff hp ho hok

end Runs

/-- The first process has a handler. -/
def handled : Except Stop Machine := started >>= fun m => perform (.sigaction 10 (some ⟨0x10000, 0, 0⟩) false) m

theorem reach_handled {m : Machine} (h : handled = .ok m) : Reach (· = boot) (Step (fun _ _ => True) Scheduled) m := by
  obtain ⟨m₀, h₀, hm⟩ := bind_ok h
  have hrun : ∀ s, First s → Scheduled s (Sched.threadRun 0 s) := fun s hfirst =>
    ⟨Sched.idles_threadRun hfirst.1, Sched.owns_threadRun hfirst.2.1 hfirst.2.2⟩
  exact .step (reach_started (fun _ => trivial) hrun h₀) (.call trivial hm)

/-- The child of a process with a handler has it, and 64 entries of its own. -/
theorem dispositions_follow_iff_forked : ∃ m m' : Machine, processFork ⟨true, true, true⟩ m = .ok ((4097, some 1), m') ∧
    (m'.disposition 1 10).sa_handler = 0x10000 ∧ (Follows m m' (.fork ⟨true, true, true⟩) ↔ Bare m (.fork ⟨true, true, true⟩)) := by
  have hrun : ((handled >>= fun m => (processFork ⟨true, true, true⟩ m).map fun r => (m, r)).toOption.map fun r =>
      decide (r.2.1 = (4097, some 1) ∧ (r.2.2.disposition 1 10).sa_handler = 0x10000)) = some true := by decide +kernel
  obtain ⟨⟨m, r, m'⟩, hm, hfacts⟩ := exists_of_toOption hrun
  obtain ⟨m₀, h₀, hm⟩ := bind_ok hm
  obtain ⟨r', hfork, heq⟩ := map_ok hm
  cases heq
  obtain ⟨hret, hhandler⟩ := of_decide_eq_true hfacts
  dsimp only at hret hhandler
  rw [hret] at hfork
  have hperform : perform (.fork ⟨true, true, true⟩) m = .ok m' := by
    show (processFork ⟨true, true, true⟩ m).map (·.2) = .ok m'
    rw [hfork]
    rfl
  exact ⟨m, m', hfork, hhandler, dispositions_follow_iff (reach_handled h₀) hperform⟩

/-- After an `exec` the handler of the old image is still there. -/
theorem exec_keeps_handler : ∃ m m' : Machine, Reach (· = boot) (Step (fun _ _ => True) Scheduled) m ∧
    exec (some fun _ => 0) m = .ok (0, m') ∧ Sched.myThread m.sched = .ok (0, 0) ∧
    (m'.disposition 0 10).sa_handler = 0x10000 ∧ ¬ Follows m m' (.exec (some fun _ => 0)) := by
  have hrun : ((handled >>= fun m => (exec (some fun _ => 0) m).map fun r => (m, r)).toOption.map fun r =>
      decide (r.2.1 = 0 ∧ (Sched.myThread r.1.sched).toOption = some (0, 0) ∧
        (r.2.2.disposition 0 10).sa_handler = 0x10000)) = some true := by decide +kernel
  obtain ⟨⟨m, ret, m'⟩, hm, hfacts⟩ := exists_of_toOption hrun
  obtain ⟨m₀, h₀, hm⟩ := bind_ok hm
  obtain ⟨r, hexec, heq⟩ := map_ok hm
  cases heq
  obtain ⟨hret, hmy, hhandler⟩ := of_decide_eq_true hfacts
  dsimp only at hret hmy hhandler
  rw [hret] at hexec
  have hmy' : Sched.myThread m.sched = .ok (0, 0) := ok_of_toOption hmy
  refine ⟨m, m', reach_handled h₀, hexec, hmy', hhandler, fun hfollows => ?_⟩
  have hdefault := (hfollows 0 0 hexec hmy').1 10 (by decide)
  rw [hdefault] at hhandler
  exact absurd hhandler (by decide)

end Exaros.Signal
