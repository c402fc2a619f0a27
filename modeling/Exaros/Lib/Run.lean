import Exaros.Lib.Loop

/-!
# Runs of a transition system

The states a step relation reaches from its initial states, and the invariant rule.
-/

namespace Run

variable {S : Type*}

/-- The states reached from `init` by steps of `step`. -/
inductive Reach (init : S → Prop) (step : S → S → Prop) : S → Prop
  | init {s : S} : init s → Reach init step s
  | step {s s' : S} : Reach init step s → step s s' → Reach init step s'

variable {init : S → Prop} {step : S → S → Prop} {inv : S → Prop} {s : S}

/-- What holds initially and is kept by every step holds of every reachable state. -/
theorem Reach.invariant (h : Reach init step s) (h₀ : ∀ s, init s → inv s)
    (hs : ∀ s s', inv s → step s s' → inv s') : inv s := by
  induction h with
  | init hi => exact h₀ _ hi
  | step _ hst ih => exact hs _ _ ih hst

/-- More initial states and more steps reach more. -/
theorem Reach.mono {init' : S → Prop} {step' : S → S → Prop} (h : Reach init step s) (h₀ : ∀ s, init s → init' s)
    (hs : ∀ s s', step s s' → step' s s') : Reach init' step' s := by
  induction h with
  | init hi => exact .init (h₀ _ hi)
  | step _ hst ih => exact .step ih (hs _ _ hst)

/-- A list of actions, each of them a step where it returns. -/
theorem Reach.foldlM {ε : Type*} {A : Type*} {f : A → S → Except ε S} {l : List A} {s' : S} (hr : Reach init step s)
    (hstep : ∀ a ∈ l, ∀ s s', f a s = .ok s' → step s s') (h : l.foldlM (fun s a => f a s) s = .ok s') :
    Reach init step s' := by
  induction l generalizing s with
  | nil =>
    cases h
    exact hr
  | cons a l ih =>
    rw [List.foldlM_cons] at h
    obtain ⟨s₁, hfirst, hrest⟩ := Loop.bind_ok h
    exact ih (hr.step (hstep a List.mem_cons_self _ _ hfirst)) (fun b hb => hstep b (List.mem_cons_of_mem _ hb)) hrest

end Run
