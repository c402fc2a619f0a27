import Exaros.Process.Segments

/-!
# Who runs a program

After `exec` a process has the maps of its program. A fork gives the child the same maps the other way round, and only
another `exec` or the end of a process takes them away, whatever the other processes do in between.
-/

namespace Exaros.Segments

open Loop Run
open Exec (Phdr)
open Function (update update_self update_of_ne update_idem)

/-- The maps of a process, from the head of its list on. -/
def Listed (s : World) (p : Nat) (segs : List Segment) : Prop :=
  ∃ l, Linked.Cells s.next (s.segmentMapHead p) l ∧ l.map s.segment = segs

/-- A process has just been through `exec`, and has these maps. -/
structure Started (segs : List Segment) (s : World) (p : Nat) : Prop where
  reach : Reach Initial Next s
  live : s.state p = .live
  idle : ∀ t c, s.calls t = some c → c.process ≠ p
  listed : Listed s p segs

/-- Who runs the program after a step, if `R` did before. -/
def runners : Event → (Nat → Prop) → Nat → Prop
  | .fork parent child, R, q => if q = child then R parent else R q
  | .exec _ p, R, q => q ≠ p ∧ R q
  | .exit p, R, q => q ≠ p ∧ R q
  | _, R, q => R q

/-- A run from `s₀` on, where `p` runs a program, and who runs it at its end. -/
inductive Descent (s₀ : World) (p : Nat) : World → (Nat → Prop) → Prop
  | start : Descent s₀ p s₀ fun q => q = p
  | step {s s' : World} {R : Nat → Prop} {e : Event} (run : Descent s₀ p s R) (enabled : Enabled s e)
    (ok : perform s e = .ok s') : Descent s₀ p s' (runners e R)

/-- Every process that runs the program is live, in no call of `exec`, and has the maps in some order. -/
structure Shared (segs : List Segment) (R : Nat → Prop) (s : World) (lists : Nat → List Nat) : Prop where
  inv : Inv s lists
  live : ∀ q, R q → s.state q = .live
  idle : ∀ q, R q → ∀ t c, s.calls t = some c → c.process ≠ q
  maps : ∀ q, R q → ((lists q).map s.segment).Perm segs

section Shared

variable {s s' s₀ : World} {lists lists' : Nat → List Nat} {segs new : List Segment} {R : Nat → Prop} {p q : Nat} {e : Event}

/-- A list that grows leaves the others. -/
theorem Grew.others (h : Grew p new s lists s' lists') (hq : q ≠ p) :
    (lists' q).map s'.segment = (lists q).map s.segment := by
  obtain ⟨l, rfl, -⟩ := h.mine
  rw [update_of_ne hq]
  exact List.map_congr_left fun i hi => congrArg SegmentMap.toSegment (h.kept q i hi)

/-- A step of `Inv` gives the invariant, if the processes of the program keep what they have. -/
theorem Shared.keep {R' : Nat → Prop} (h : Shared segs R s lists) (hinv : Inv s' lists')
    (hR : ∀ q, R' q → R q ∧ s'.state q = s.state q ∧ (lists' q).map s'.segment = (lists q).map s.segment)
    (hcalls : ∀ q, R' q → ∀ t c, s'.calls t = some c → s.calls t = some c ∨ c.process ≠ q) : Shared segs R' s' lists' where
  inv := hinv
  live := fun q hq => (hR q hq).2.1.trans (h.live q (hR q hq).1)
  idle := fun q hq t c hc => (hcalls q hq t c hc).elim (h.idle q (hR q hq).1 t c) id
  maps := fun q hq => (hR q hq).2.2.symm ▸ h.maps q (hR q hq).1

theorem setCall_calls {t u : Nat} {c : Option Call} {c' : Call} (h : (setCall s t c).calls u = some c') :
    s.calls u = some c' ∨ c = some c' := by
  have h : update s.calls t c u = some c' := h
  by_cases hu : u = t
  · rw [hu, update_self] at h
    exact .inr h
  · rw [update_of_ne hu] at h
    exact .inl h

/-- **One step.** -/
theorem Shared.step (h : Shared segs R s lists) (he : Enabled s e) (hok : perform s e = .ok s') :
    ∃ lists', Shared segs (runners e R) s' lists' := by
  cases e with
  | create p =>
    cases hok
    refine ⟨lists, h.keep (h.inv.setLive p) (fun q hq => ⟨hq, ?_, rfl⟩) fun q _ t c hc => .inl hc⟩
    have hne : q ≠ p := fun heq => by
      have hunused : s.state p = .unused := he
      rw [← heq, h.live q hq] at hunused
      cases hunused
    exact update_of_ne hne ..
  | fork parent child =>
    obtain ⟨lists', hgrew⟩ := (h.inv.fork parent child).of_ok hok
    have hunused : s.state child = .unused := he.2
    have hempty : lists child = [] := h.inv.quiet child fun hlive => by
      rw [hunused] at hlive
      cases hlive
    have hcalls : s'.calls = s.calls := hgrew.calls
    refine ⟨lists', hgrew.inv, fun q hq => ?_, fun q hq t c hc => ?_, fun q hq => ?_⟩
    · rw [hgrew.state]
      by_cases hchild : q = child
      · rw [hchild]
        exact update_self ..
      · rw [runners, if_neg hchild] at hq
        exact (update_of_ne hchild ..).trans (h.live q hq)
    · rw [hcalls] at hc
      by_cases hchild : q = child
      · intro heq
        have hlive := h.inv.calls t c hc
        rw [heq, hchild, hunused] at hlive
        cases hlive
      · rw [runners, if_neg hchild] at hq
        exact h.idle q hq t c hc
    · by_cases hchild : q = child
      · rw [runners, if_pos hchild] at hq
        obtain ⟨l, rfl, hl⟩ := hgrew.mine
        rw [hchild, update_self, hempty, List.append_nil, hl]
        exact (List.reverse_perm _).trans (h.maps parent hq)
      · rw [runners, if_neg hchild] at hq
        rw [hgrew.others hchild]
        exact h.maps q hq
  | exec t p =>
    obtain ⟨s₁, hfree, hinv, hmaps, hstate, hcalls⟩ := h.inv.free p
    rw [perform, hfree] at hok
    cases hok
    have hlive : s₁.state p = .live := (congrFun hstate p).trans he.1
    refine ⟨_, h.keep (hinv.setCall t fun c hc => by cases hc; exact hlive) (fun q hq => ?_) fun q hq u c hc => ?_⟩
    · refine ⟨hq.2, congrFun hstate q, ?_⟩
      rw [update_of_ne hq.1]
      exact List.map_congr_left fun i _ => congrArg SegmentMap.toSegment (congrFun hmaps i)
    · rcases setCall_calls hc with hc | hc
      · exact .inl (hcalls ▸ hc)
      · cases hc
        exact .inr hq.1.symm
  | elf t src interpOffset phnum =>
    obtain ⟨p, hcall⟩ := he
    rw [perform, hcall] at hok
    cases hok
    have hlive := h.inv.calls t _ hcall
    refine ⟨lists, h.keep (h.inv.setCall t fun c hc => by cases hc; exact hlive) (fun q hq => ⟨hq, rfl, rfl⟩)
      fun q hq u c hc => ?_⟩
    rcases setCall_calls hc with hc | hc
    · exact .inl hc
    · cases hc
      have hne : (Call.opened p).process ≠ q := h.idle q hq t _ hcall
      exact .inr hne
  | phdr t ph =>
    obtain ⟨p, src, interpOffset, left, hcall⟩ := he
    have hlive := h.inv.calls t _ hcall
    rw [perform, hcall] at hok
    obtain ⟨s₁, hload, hx⟩ := Loop.map_ok hok
    subst hx
    obtain ⟨lists₁, hgrew⟩ := (h.inv.loadHeader hlive src interpOffset ph).of_ok hload
    have hlive₁ : s₁.state p = .live := (congrFun hgrew.state p).trans hlive
    refine ⟨lists₁, h.keep (hgrew.inv.setCall t fun c hc => by cases hc; exact hlive₁)
      (fun q hq => ⟨hq, congrFun hgrew.state q, hgrew.others (h.idle q hq t _ hcall).symm⟩) fun q hq u c hc => ?_⟩
    rcases setCall_calls hc with hc | hc
    · exact .inl (hgrew.calls ▸ hc)
    · cases hc
      have hne : (Call.traversing p src interpOffset (left + 1)).process ≠ q := h.idle q hq t _ hcall
      exact .inr hne
  | done t =>
    cases hok
    refine ⟨lists, h.keep (h.inv.setCall t fun c hc => by cases hc) (fun q hq => ⟨hq, rfl, rfl⟩) fun q hq u c hc => ?_⟩
    rcases setCall_calls hc with hc | hc
    · exact .inl hc
    · cases hc
  | exit p =>
    obtain ⟨s₁, hrun, hinv, hmaps, hstate, hcalls⟩ := h.inv.exit p
    obtain rfl := Except.ok.inj (hrun.symm.trans hok)
    refine ⟨_, h.keep hinv (fun q hq => ⟨hq.2, hstate q hq.1, ?_⟩) fun q _ t c hc => .inl (hcalls t c hc)⟩
    rw [update_of_ne hq.1]
    exact List.map_congr_left fun i _ => congrArg SegmentMap.toSegment (congrFun hmaps i)
  | reap p =>
    cases hok
    refine ⟨lists, h.keep (h.inv.reap he) (fun q hq => ⟨hq, ?_, rfl⟩) fun q _ t c hc => .inl hc⟩
    have hne : q ≠ p := fun heq => by
      have hz : s.state p = .zombie := he
      rw [← heq, h.live q hq] at hz
      cases hz
    exact update_of_ne hne ..

/-- A list is determined by its head. -/
theorem Inv.listed_iff (h : Inv s lists) (q : Nat) : Listed s q segs ↔ (lists q).map s.segment = segs := by
  constructor
  · intro hlisted
    obtain ⟨l, hcells, hmap⟩ := hlisted
    rwa [(h.cells q).unique hcells]
  · exact fun hmap => ⟨lists q, h.cells q, hmap⟩

/-- **A run.** A process that runs the program has its maps, in the order the forks have left them. -/
theorem listed_of_descent (h : Started segs s₀ p) (run : Descent s₀ p s R) (hq : R q) :
    ∃ segs', Listed s q segs' ∧ segs'.Perm segs := by
  have hshared : ∃ lists, Shared segs R s lists := by
    clear hq
    induction run with
    | start =>
      obtain ⟨lists, hinv⟩ := inv_of_reach h.reach
      have hmap := (hinv.listed_iff p).mp h.listed
      refine ⟨lists, hinv, fun q hq => ?_, fun q hq t c hc => ?_, fun q hq => ?_⟩
      · rw [hq]
        exact h.live
      · rw [hq]
        exact h.idle t c hc
      · rw [hq, hmap]
    | step _ he hok ih =>
      obtain ⟨lists, hshared⟩ := ih
      exact hshared.step he hok
  obtain ⟨lists, hshared⟩ := hshared
  exact ⟨_, (hshared.inv.listed_iff q).mpr rfl, hshared.maps q hq⟩

/-- The headers of a program, one after the other. -/
theorem traversed {t src interpOffset : Nat} {phs : List Phdr} (hreach : Reach Initial Next s) (h : Inv s lists)
    (hcall : s.calls t = some (.traversing p src interpOffset phs.length))
    (hok : (phs.map (Event.phdr t)).foldlM perform s = .ok s') :
    Reach Initial Next s' ∧ s'.state = s.state ∧
      s'.calls = update s.calls t (some (.traversing p src interpOffset 0)) ∧ ∃ lists', Inv s' lists' ∧
        (lists' p).map s'.segment =
          (phs.flatMap (headerSegments src interpOffset)).reverse ++ (lists p).map s.segment := by
  induction phs generalizing s lists with
  | nil =>
    cases hok
    refine ⟨hreach, rfl, ?_, lists, h, rfl⟩
    exact (Function.update_eq_self_iff.mpr hcall.symm).symm
  | cons ph phs ih =>
    rw [List.map_cons, List.foldlM_cons] at hok
    obtain ⟨s₁, h₁, hok⟩ := Loop.bind_ok hok
    have he : Enabled s (.phdr t ph) := ⟨p, src, interpOffset, phs.length, hcall⟩
    have hreach₁ : Reach Initial Next s₁ := hreach.step ⟨_, he, h₁⟩
    have hlive : s.state p = .live := h.calls t _ hcall
    rw [perform, hcall] at h₁
    obtain ⟨s₂, hload, hx⟩ := Loop.map_ok h₁
    subst hx
    obtain ⟨lists₂, hgrew⟩ := (h.loadHeader hlive src interpOffset ph).of_ok hload
    have hlive₂ : s₂.state p = .live := (congrFun hgrew.state p).trans hlive
    have hinv : Inv (setCall s₂ t (some (.traversing p src interpOffset phs.length))) lists₂ :=
      hgrew.inv.setCall t fun c hc => by
        cases hc
        exact hlive₂
    obtain ⟨hreach', hstate, hcalls, lists', hinv', hmaps⟩ := ih hreach₁ hinv (update_self ..) hok
    refine ⟨hreach', hstate.trans hgrew.state, ?_, lists', hinv', ?_⟩
    · rw [hcalls]
      show update (update s₂.calls t _) t _ = _
      rw [update_idem, hgrew.calls]
    · rw [hmaps]
      show _ ++ (lists₂ p).map s₂.segment = _
      obtain ⟨new, rfl, hnew⟩ := hgrew.mine
      have hkept : (lists p).map s₂.segment = (lists p).map s.segment :=
        List.map_congr_left fun i hi => congrArg SegmentMap.toSegment (hgrew.kept p i hi)
      rw [update_self, List.map_append, hnew, hkept, List.flatMap_cons, List.reverse_append, List.append_assoc]

/-- **`exec`** that goes through without another thread of the process in `exec` leaves the maps of the headers, the
last one first. -/
theorem started_of_exec {t src interpOffset : Nat} {phs : List Phdr} {s₁ s₂ s₃ : World} (hreach : Reach Initial Next s)
    (he : Enabled s (.exec t p)) (halone : ∀ u c, u ≠ t → s.calls u = some c → c.process ≠ p)
    (h₁ : perform s (.exec t p) = .ok s₁) (h₂ : perform s₁ (.elf t src interpOffset phs.length) = .ok s₂)
    (h₃ : (phs.map (Event.phdr t)).foldlM perform s₂ = .ok s₃) (h₄ : perform s₃ (.done t) = .ok s') :
    Started (phs.flatMap (headerSegments src interpOffset)).reverse s' p := by
  obtain ⟨lists, hinv⟩ := inv_of_reach hreach
  have hreach₁ : Reach Initial Next s₁ := hreach.step ⟨_, he, h₁⟩
  obtain ⟨sf, hfree, hinvf, -, hstate, hcalls⟩ := hinv.free p
  rw [perform, hfree] at h₁
  cases h₁
  have hlive : sf.state p = .live := (congrFun hstate p).trans he.1
  have hopened : (setCall sf t (some (.opened p))).calls t = some (.opened p) := update_self ..
  have helf : Enabled (setCall sf t (some (.opened p))) (.elf t src interpOffset phs.length) := ⟨p, hopened⟩
  have hreach₂ : Reach Initial Next s₂ := hreach₁.step ⟨_, helf, h₂⟩
  rw [perform, hopened] at h₂
  cases h₂
  obtain ⟨s₂, hs₂⟩ : ∃ s₂, s₂ = setCall (setCall sf t (some (.opened p))) t
    (some (.traversing p src interpOffset phs.length)) := ⟨_, rfl⟩
  rw [← hs₂] at hreach₂ h₃
  have hcall₂ : s₂.calls = update s.calls t (some (.traversing p src interpOffset phs.length)) := by
    rw [hs₂]
    show update (update sf.calls t _) t _ = _
    rw [update_idem, hcalls]
  have hlive₂ : s₂.state p = .live := by
    rw [hs₂]
    exact hlive
  have hinv₂ : Inv s₂ (update lists p []) := by
    rw [hs₂]
    exact (hinvf.setCall t fun c hc => by cases hc; exact hlive).setCall t fun c hc => by cases hc; exact hlive
  obtain ⟨hreach₃, hstate₃, hcalls₃, lists₃, hinv₃, hmaps⟩ := traversed hreach₂ hinv₂
    (by rw [hcall₂]; exact update_self ..) h₃
  have hcall₃ : s₃.calls t = some (.traversing p src interpOffset 0) := by
    rw [hcalls₃]
    exact update_self ..
  have hdone : Enabled s₃ (.done t) := .inr ⟨p, src, interpOffset, hcall₃⟩
  have hreach₄ : Reach Initial Next s' := hreach₃.step ⟨_, hdone, h₄⟩
  cases h₄
  rw [update_self, List.map_nil, List.append_nil] at hmaps
  refine ⟨hreach₄, (congrFun hstate₃ p).trans hlive₂, fun u c hc => ?_, lists₃ p, hinv₃.cells p, hmaps⟩
  have hc : update s₃.calls t none u = some c := hc
  by_cases hu : u = t
  · rw [hu, update_self] at hc
    cases hc
  · rw [update_of_ne hu, hcalls₃, update_of_ne hu, hcall₂, update_of_ne hu] at hc
    exact halone u c hu hc

end Shared

end Exaros.Segments
