import Exaros.Signal.Steps

/-!
# The pool of contexts

A context that is not free is in a list of one live thread. Every call moves contexts from list to list one by
one, and a thread gives all of its own back before it ends. `handleSignal` is a sequence of turns, so this
holds between its turns too; where a default action does not return, the context at hand is still pending, and
freed with the rest.

**What it does not establish.** That a signal is ever handled.
-/

namespace Exaros.Signal

open Loop Run Lists
open Sched (Idles Orderly Pages Trapframe)
open Function (update update_self update_of_ne)

/-- The free list, and those of live threads. -/
def Machine.Live (m : Machine) (h : Home) : Prop :=
  h = .free ∨ ∃ t ∈ m.sched.usedThreads, h = .pending t ∨ h = .handling t

/-- Every context is in one list, of a live thread if not free. -/
structure Pool (m : Machine) : Prop where
  apart : Apart m.list
  all : ∀ sc, (∃ h, sc ∈ m.list h) ↔ sc < SIGNAL_CONTEXT_COUNT
  live : ∀ h sc, sc ∈ m.list h → m.Live h
  orderly : Orderly m.sched

section Apart

variable {m m' : Machine} {op : Op}

theorem threadSetup_list (t : Nat) (m : Machine) (h : Home) :
    (threadSetup t m).list h = if h = .pending t ∨ h = .handling t then [] else m.list h := by
  show update (update m.list (.pending t) []) (.handling t) [] h = _
  by_cases hh : h = .handling t
  · rw [hh, update_self, if_pos (.inr rfl)]
  · rw [update_of_ne hh]
    by_cases hp : h = .pending t
    · rw [hp, update_self, if_pos (.inl rfl)]
    · rw [update_of_ne hp, if_neg (fun hor => hor.elim hp hh)]

/-- No call links a context twice. -/
theorem Acts.apart (h : Acts op m m') (hl : Apart m.list) : Apart m'.list := by
  cases h with
  | born h =>
    rcases h with h | ⟨t, h⟩
    · rw [h.list]
      exact hl
    · rw [h.list]
      refine hl.sublist fun home => ?_
      rw [threadSetup_list]
      split
      · exact List.nil_sublist _
      · exact List.Sublist.refl _
  | masked => exact hl
  | consumed => exact (moved_toFront ..).apart hl
  | entered => exact (moved_toFront ..).apart hl
  | returned => exact (moved_toFront ..).apart hl
  | sent => exact (moved_toBack ..).apart hl
  | freed _ _ hapart => exact hapart

theorem boot_list (h : Home) : boot.list h = if h = .free then (List.range SIGNAL_CONTEXT_COUNT).reverse else [] := by
  rw [boot_eq]
  generalize (List.range SIGNAL_CONTEXT_COUNT).reverse = l
  by_cases hh : h = .free
  · rw [hh, if_pos rfl]
    show update zero.list Home.free l Home.free = l
    rw [update_self]
  · rw [if_neg hh]
    show update zero.list Home.free l h = []
    rw [update_of_ne hh]
    rfl

theorem mem_boot {h : Home} {sc : Nat} : sc ∈ boot.list h ↔ h = .free ∧ sc < SIGNAL_CONTEXT_COUNT := by
  rw [boot_list]
  split
  · rename_i hh
    rw [List.mem_reverse, List.mem_range]
    exact (and_iff_right hh).symm
  · rename_i hh
    exact ⟨fun hmem => (List.not_mem_nil hmem).elim, fun hmem => absurd hmem.1 hh⟩

theorem apart_boot : Apart boot.list where
  nodup := fun h => by
    rw [boot_list]
    split
    · exact List.nodup_reverse.mpr List.nodup_range
    · exact List.nodup_nil
  home := fun h h' a ha ha' => (mem_boot.mp ha).1.trans (mem_boot.mp ha').1.symm

/-- Lists stay apart whatever happens to threads. -/
theorem apart_of_reach {ok : Op → Machine → Prop} {env : Sched.Machine → Sched.Machine → Prop}
    (h : Reach (· = boot) (Step ok env) m) : Apart m.list := by
  have hinit : ∀ m₀ : Machine, m₀ = boot → Apart m₀.list := fun m₀ h₀ => by
    rw [h₀]
    exact apart_boot
  refine h.invariant hinit fun m₁ m₂ h₁ hstep => ?_
  cases hstep with
  | call _ hok => exact (acts_perform h₁ hok).apart h₁
  | other => exact h₁

end Apart

section Pool

variable {m m₁ m' : Machine} {t p sc : Nat} {home : Home} {op : Op} {sig ret : Int} {pages : Pages}

theorem Machine.Live.mono (h : m.Live home) (hused : ∀ t ∈ m.sched.usedThreads, t ∈ m'.sched.usedThreads) : m'.Live home := by
  rcases h with h | ⟨t, ht, h⟩
  · exact .inl h
  · exact .inr ⟨t, hused t ht, h⟩

/-- The lists as they are. -/
theorem Pool.keep (h : Pool m) (hlist : m'.list = m.list) (hused : ∀ t ∈ m.sched.usedThreads, t ∈ m'.sched.usedThreads)
    (ho : Orderly m'.sched) : Pool m' where
  apart := by
    rw [hlist]
    exact h.apart
  all := fun sc => by
    rw [hlist]
    exact h.all sc
  live := fun home sc hmem => by
    rw [hlist] at hmem
    exact (h.live home sc hmem).mono hused
  orderly := ho

theorem Pool.idles (h : Pool m) (hlist : m'.list = m.list) (hs : Idles m.sched m'.sched) : Pool m' := by
  refine h.keep hlist (fun t ht => ?_) (h.orderly.idles hs)
  rw [hs.used]
  exact ht

/-- A context moved. -/
theorem Pool.moved (h : Pool m) {from' : Home} (hm : Moved m.list m'.list sc home) (hfrom : sc ∈ m.list from')
    (hto : m.Live home) (hs : Idles m.sched m'.sched) : Pool m' where
  apart := hm.apart h.apart
  all := fun a => (hm.exists_mem h.apart hfrom).trans (h.all a)
  live := fun home' a ha => by
    have hlive : m.Live home' := by
      rcases (hm.mem h.apart).mp ha with ⟨-, rfl⟩ | ⟨-, ha⟩
      · exact hto
      · exact h.live home' a ha
    refine hlive.mono fun t ht => ?_
    rw [hs.used]
    exact ht
  orderly := h.orderly.idles hs

/-- What is not live has no contexts. -/
theorem Pool.empty (h : Pool m) (hdead : ¬ m.Live home) : m.list home = [] := by
  refine List.eq_nil_iff_forall_not_mem.mpr fun sc hsc => ?_
  exact hdead (h.live home sc hsc)

theorem Pool.empty_thread (h : Pool m) (ht : t ∉ m.sched.usedThreads) :
    m.list (.pending t) = [] ∧ m.list (.handling t) = [] := by
  constructor
  · apply h.empty
    rintro (hf | ⟨u, hu, hp | hp⟩)
    · cases hf
    · cases hp
      exact ht hu
    · cases hp
  · apply h.empty
    rintro (hf | ⟨u, hu, hp | hp⟩)
    · cases hf
    · cases hp
    · cases hp
      exact ht hu

theorem idles_hart (s : Sched.Machine) (tf : Trapframe) : Idles s { s with hart := tf } :=
  ⟨rfl, rfl, rfl, fun _ _ => rfl, fun _ => .inl⟩

/-- A thread is set up while it is not live yet. -/
theorem Pool.takeThread (h : Pool m) {sp : Nat} {new : Option Nat} (hok : takeThread pages sp m = .ok (new, m')) :
    Pool m' ∧ (∀ t ∈ m.sched.usedThreads, t ∈ m'.sched.usedThreads) ∧ ∀ t, new = some t → t ∈ m'.sched.usedThreads := by
  obtain ⟨s, hs, rfl⟩ := takeThread_ok hok
  rcases Sched.takeThread_live h.orderly hs with ⟨rfl, rfl⟩ | ⟨t, rfl, hnot, hused, ho⟩
  · exact ⟨h.keep rfl (fun _ => id) h.orderly, fun _ => id, fun t ht => by cases ht⟩
  · have hmore : ∀ u ∈ m.sched.usedThreads, u ∈ s.usedThreads := fun u hu => by
      rw [hused]
      exact List.mem_cons_of_mem _ hu
    refine ⟨h.keep ?_ hmore ho, hmore, fun u hu => ?_⟩
    · funext home
      show (threadSetup t (m.setSched s)).list home = m.list home
      rw [threadSetup_list]
      split
      · rename_i hhome
        rcases hhome with rfl | rfl
        · exact (h.empty_thread hnot).1.symm
        · exact (h.empty_thread hnot).2.symm
      · rfl
    · cases hu
      show t ∈ s.usedThreads
      rw [hused]
      exact List.mem_cons_self ..

theorem Pool.processAlloc (h : Pool m) {parentId : Nat} {r : Int ⊕ Nat}
    (hok : processAlloc pages parentId m = .ok (r, m')) : Pool m' ∧ m'.sched.usedThreads = m.sched.usedThreads := by
  have hbeside := beside_processAlloc hok
  obtain ⟨s, hs, rfl⟩ := processAlloc_ok hok
  have hidles := Sched.idles_processAlloc hs
  have hsched : (r.elim (fun _ => m.setSched s) fun p => setupProcess p (m.setSched s)).sched = s := by
    cases r with
    | inl e => rfl
    | inr p => rfl
  refine ⟨h.idles hbeside.list ?_, ?_⟩
  · rw [hsched]
    exact hidles
  · rw [hsched]
    exact hidles.used

/-- A new main thread has no contexts. -/
theorem Pool.mainThreadAlloc (h : Pool m) {parentId : Nat} {r : Int ⊕ (Nat × Nat)}
    (hok : mainThreadAlloc pages parentId m = .ok (r, m')) :
    Pool m' ∧ ∀ t c, r = .inr (t, c) → t ∈ m'.sched.usedThreads := by
  obtain ⟨⟨new, m₁⟩, h₁, hok⟩ := bind_ok hok
  obtain ⟨hpool₁, -, hnew⟩ := h.takeThread h₁
  cases new with
  | none =>
    cases hok
    exact ⟨hpool₁, fun t c hr => by cases hr⟩
  | some t =>
    obtain ⟨⟨r', m₂⟩, h₂, hok⟩ := bind_ok hok
    obtain ⟨hpool₂, hused⟩ := hpool₁.processAlloc h₂
    have ht : t ∈ m₂.sched.usedThreads := by
      rw [hused]
      exact hnew t rfl
    cases r' with
    | inl e =>
      cases hok
      exact ⟨hpool₂, fun t c hr => by cases hr⟩
    | inr p =>
      cases hok
      refine ⟨hpool₂.idles rfl (Sched.idles_attach ht), fun u c hr => ?_⟩
      cases hr
      exact ht

theorem Pool.processCreatePriority (h : Pool m) {frame : Trapframe} {new : Option Nat}
    (hok : processCreatePriority pages frame m = .ok (new, m')) : Pool m' := by
  obtain ⟨⟨r, m₁⟩, h₁, hok⟩ := bind_ok hok
  obtain ⟨hpool, hlive⟩ := h.mainThreadAlloc h₁
  cases r with
  | inl e =>
    cases hok
    exact hpool
  | inr tp =>
    obtain ⟨t, c⟩ := tp
    have ht := hlive t c rfl
    obtain ⟨s, hs, hok⟩ := bind_ok hok
    cases hok
    exact hpool.idles rfl ((Sched.idles_setThread ht).trans (Sched.idles_start ht (onSched_ok hs)))

/-- A fork leaves the pool of contexts whole. -/
theorem Pool.processFork (h : Pool m) {r : Int × Option Nat} (hok : processFork pages m = .ok (r, m')) :
    Pool m' := by
  obtain ⟨⟨mth, myprocess⟩, -, hok⟩ := bind_ok hok
  obtain ⟨⟨r', m₁⟩, h₁, hok⟩ := bind_ok hok
  obtain ⟨hpool, hlive⟩ := h.mainThreadAlloc h₁
  cases r' with
  | inl e =>
    cases hok
    exact hpool
  | inr tp =>
    obtain ⟨t, c⟩ := tp
    have ht := hlive t c rfl
    obtain ⟨s, hslots, hok⟩ := bind_ok hok
    obtain ⟨m₂, h₂, hok⟩ := bind_ok hok
    obtain ⟨-, rfl⟩ := copyActions_ok h₂
    obtain ⟨s', hstart, hok⟩ := bind_ok hok
    cases hok
    have hfork : Idles m₁.sched s :=
      foldlM_inv (onSched_ok hslots) (Idles.refl _) fun s₁ i s₂ h₁ h₂ => h₁.trans ((Sched.moves_forkSlot h₂).idles (hpool.orderly.idles h₁))
    have hts : t ∈ s.usedThreads := by
      rw [hfork.used]
      exact ht
    exact hpool.idles rfl (hfork.trans ((Sched.idles_setThread hts).trans (Sched.idles_start hts (onSched_ok hstart))))

theorem Pool.threadFork (h : Pool m) {stackVa tls ctid : Nat}
    (hok : threadFork pages stackVa tls ctid m = .ok (ret, m')) : Pool m' := by
  obtain ⟨⟨mth, current⟩, -, hok⟩ := bind_ok hok
  obtain ⟨⟨new, m₁⟩, h₁, hok⟩ := bind_ok hok
  obtain ⟨hpool, -, hnew⟩ := h.takeThread h₁
  cases new with
  | none =>
    cases hok
    exact hpool
  | some t =>
    have ht := hnew t rfl
    obtain ⟨s, hs, hok⟩ := bind_ok hok
    cases hok
    have hattach : Idles m₁.sched (Sched.attach t current m₁.sched) := Sched.idles_attach ht
    refine hpool.idles rfl (hattach.trans ((Sched.idles_setThread ?_).trans (Sched.idles_start ?_ (onSched_ok hs))))
    · exact ht
    · exact ht

/-- A thread that ends gives its contexts back. -/
theorem Pool.threadDestroy (h : Pool m) (hok : threadDestroy t m = .ok m') : Pool m' := by
  obtain ⟨l, s, hp, hh, hapart, hfree, -, -, hsched⟩ := threadDestroy_ok h.apart hok
  obtain ⟨s₁, hidles, rfl⟩ := Sched.threadFree_live h.orderly hfree
  have ho := (h.orderly.idles hidles).retire t
  have hused : m'.sched.usedThreads = m.sched.usedThreads.erase t := by
    rw [hsched, ← hidles.used]
    split <;> rfl
  have hnodup : m.sched.usedThreads.Nodup := (List.nodup_append.mp h.orderly.nodup).1
  refine ⟨hapart, fun sc => ?_, fun home sc hsc => ?_, ?_⟩
  · rw [hh.exists_mem, hp.exists_mem]
    exact h.all sc
  · -- a list that is not the thread's is as before, or the free list
    by_cases hf : home = .free
    · exact .inl hf
    · have hne : home ≠ .handling t := fun heq => by
        rw [heq, hh.empty] at hsc
        cases hsc
      have hne' : home ≠ .pending t := fun heq => by
        rw [hh.other home hne hf, heq, hp.empty] at hsc
        cases hsc
      rw [hh.other home hne hf, hp.other home hne' hf] at hsc
      rcases h.live home sc hsc with hf' | ⟨u, hu, hhome⟩
      · exact absurd hf' hf
      · refine .inr ⟨u, ?_, hhome⟩
        have hut : u ≠ t := fun hut => by
          rw [hut] at hhome
          exact hhome.elim hne' hne
        rw [hused]
        exact (hnodup.mem_erase_iff).mpr ⟨hut, hu⟩
  · rw [hsched]
    have hcur : (Sched.retire t s₁).currentThread = s₁.currentThread := rfl
    by_cases hown : s₁.currentThread = some t
    · rw [if_pos (hcur.trans hown)]
      rw [if_pos hown] at ho
      exact ho
    · rw [if_neg (fun heq => hown (hcur.symm.trans heq))]
      rw [if_neg hown] at ho
      exact ho

theorem Pool.threadSignalSend (h : Pool m) (ht : t ∈ m.sched.usedThreads) (hok : threadSignalSend t sig m = .ok (ret, m')) :
    Pool m' := by
  obtain ⟨-, sc, rest, s, hfree, rfl, hs⟩ := threadSignalSend_ok hok
  have hmem : sc ∈ m.list .free := by
    rw [hfree]
    exact List.mem_cons_self ..
  refine h.moved (moved_toBack ..) hmem (.inr ⟨t, ht, .inl rfl⟩) ?_
  split at hs
  · exact Sched.idles_sigkill ht hs
  · rw [hs]
    exact Idles.refl _

/-- **Every call keeps the pool.** -/
theorem Pool.perform (h : Pool m) (hok : perform op m = .ok m') : Pool m' := by
  cases op with
  | create pages frame =>
    obtain ⟨r, hr, rfl⟩ := map_ok hok
    exact h.processCreatePriority hr
  | fork pages =>
    obtain ⟨r, hr, rfl⟩ := map_ok hok
    exact h.processFork hr
  | threadFork pages stackVa tls ctid =>
    obtain ⟨r, hr, rfl⟩ := map_ok hok
    exact h.threadFork hr
  | exec frame =>
    obtain ⟨r, hr, rfl⟩ := map_ok hok
    obtain ⟨⟨t, p⟩, hmy, hr⟩ := bind_ok hr
    have ht := h.orderly.current t (Sched.myThread_ok (onSched_ok hmy))
    cases frame with
    | none =>
      cases hr
      exact h
    | some tf =>
      cases hr
      exact h.idles rfl ((Sched.idles_setThread ht).trans (idles_hart _ tf))
  | destroy t => exact h.threadDestroy hok
  | turn =>
    obtain ⟨⟨t, p⟩, hmy, hok⟩ := bind_ok hok
    have ht := h.orderly.current t (Sched.myThread_ok (onSched_ok hmy))
    obtain ⟨⟨r, m₁⟩, hr, rfl⟩ := map_ok hok
    cases handleTurn_ok hr with
    | idle => exact h
    | destroyed => exact h
    | consumed hfirst => exact h.moved (moved_toFront ..) (getFirstPendingSignal_mem hfirst) (.inl rfl) (Idles.refl _)
    | entered hfirst =>
      exact h.moved (moved_toFront ..) (getFirstPendingSignal_mem hfirst) (.inr ⟨t, ht, .inr rfl⟩) (idles_hart _ _)
  | sigreturn =>
    obtain ⟨t, sc, rest, -, hlist, rfl⟩ := rt_sigreturn_ok hok
    have hmem : sc ∈ m.list (.handling t) := by
      rw [hlist]
      exact List.mem_cons_self ..
    exact h.moved (moved_toFront ..) hmem (.inl rfl) (idles_hart _ _)
  | sigaction sig act oldAction =>
    obtain ⟨r, hr, rfl⟩ := map_ok hok
    obtain ⟨hbeside, hsched⟩ := rt_sigaction_ok hr
    refine h.idles hbeside.list ?_
    rw [hsched]
    exact Idles.refl _
  | sigprocmask how set =>
    obtain ⟨r, hr, rfl⟩ := map_ok hok
    rcases rt_sigprocmask_ok hr with heq | ⟨t, mask, -, heq⟩
    · rw [heq]
      exact h
    · rw [heq]
      exact h.idles rfl (Idles.refl _)
  | kill pid sig =>
    obtain ⟨r, hr, rfl⟩ := map_ok hok
    rcases kill_ok hr with ⟨heq, -⟩ | ⟨t, ht, hsend⟩
    · rw [heq]
      exact h
    · exact h.threadSignalSend ht hsend
  | tgkill tgid tid sig =>
    obtain ⟨r, hr, rfl⟩ := map_ok hok
    rcases tgkill_ok hr with ⟨heq, -⟩ | ⟨t, ht, hsend⟩
    · rw [heq]
      exact h
    · exact h.threadSignalSend ht hsend
  | tkill tid sig =>
    obtain ⟨r, hr, rfl⟩ := map_ok hok
    rcases tkill_ok hr with ⟨heq, -⟩ | ⟨t, ht, hsend⟩
    · rw [heq]
      exact h
    · exact h.threadSignalSend (Sched.tid2Thread_live h.orderly ht) hsend

theorem pool_boot : Pool boot where
  apart := apart_boot
  all := fun _ => ⟨fun h => h.elim fun _ hsc => (mem_boot.mp hsc).2, fun hsc => ⟨.free, mem_boot.mpr ⟨rfl, hsc⟩⟩⟩
  live := fun _ _ hsc => .inl (mem_boot.mp hsc).1
  orderly := by
    rw [boot_sched]
    exact Sched.orderly_boot

theorem pool_of_reach (h : Reach (· = boot) (Step (fun _ _ => True) Idles) m) : Pool m := by
  refine h.invariant (fun m₀ h₀ => by rw [h₀]; exact pool_boot) fun m₁ m₂ h₁ hstep => ?_
  cases hstep with
  | call _ hok => exact h₁.perform hok
  | other hs => exact h₁.idles rfl hs

/-- **Contexts are never lost or shared**: each is in one list, once, and a thread that is not live has none. -/
theorem contexts_conserved (h : Reach (· = boot) (Step (fun _ _ => True) Idles) m) :
    (∀ sc, sc < SIGNAL_CONTEXT_COUNT → ∃ home, m.Live home ∧ (m.list home).count sc = 1 ∧
      ∀ home', home' ≠ home → sc ∉ m.list home') ∧
    ∀ t, t ∉ m.sched.usedThreads → m.list (.pending t) = [] ∧ m.list (.handling t) = [] := by
  have hpool := pool_of_reach h
  refine ⟨fun sc hsc => ?_, fun t ht => hpool.empty_thread ht⟩
  obtain ⟨home, hmem⟩ := (hpool.all sc).mpr hsc
  refine ⟨home, hpool.live home sc hmem, List.count_eq_one_of_mem (hpool.apart.nodup home) hmem, fun home' hne hmem' => ?_⟩
  exact hne (hpool.apart.home home' home sc hmem' hmem)

end Pool

/-- The first process sends itself a signal with a handler. -/
def handlingRun : Except Stop Machine :=
  started >>= performAll [.sigaction 10 (some ⟨0x10000, 0, 0⟩) false, .kill 2048 10, .turn]

/-- A signal is being handled, and its context is in that list alone. -/
theorem contexts_conserved_handling : ∃ m : Machine, m.list (.handling 0) = [4095] ∧
    (∀ sc, sc < SIGNAL_CONTEXT_COUNT → ∃ home, m.Live home ∧ (m.list home).count sc = 1 ∧
      ∀ home', home' ≠ home → sc ∉ m.list home') ∧
    ∀ t, t ∉ m.sched.usedThreads → m.list (.pending t) = [] ∧ m.list (.handling t) = [] := by
  have hrun : (handlingRun.toOption.map fun m => decide (m.list (.handling 0) = [4095])) = some true := by decide +kernel
  obtain ⟨m, hm, hlist⟩ := exists_of_toOption hrun
  obtain ⟨m₀, h₀, hm⟩ := bind_ok hm
  have hreach : Reach (· = boot) (Step (fun _ _ => True) Idles) m₀ :=
    reach_started (fun _ => trivial) (fun _ hfirst => Sched.idles_threadRun hfirst.1) h₀
  exact ⟨m, of_decide_eq_true hlist, contexts_conserved (reach_performAll hreach (fun _ _ _ => trivial) hm)⟩

end Exaros.Signal
