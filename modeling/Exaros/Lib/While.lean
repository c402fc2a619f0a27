import Mathlib.Tactic.TypeStar

/-!
# Loops without a bound

A loop whose body goes on with a state or ends with a result, run for so many turns. A loop that returns does so with
one result, whatever the number of turns it was given; what it keeps, its result has.
-/

namespace While

variable {σ β : Type*}

/-- `body` as long as it goes on; `none` when that is for more than `fuel` turns, or a turn does not return. -/
def run (body : σ → Option (σ ⊕ β)) : Nat → σ → Option β
  | 0, _ => none
  | fuel + 1, s =>
    match body s with
    | none => none
    | some (.inl s') => run body fuel s'
    | some (.inr b) => some b

variable {body : σ → Option (σ ⊕ β)} {fuel : Nat} {s s' : σ} {b : β}

theorem run_turn (h : body s = some (.inl s')) : run body (fuel + 1) s = run body fuel s' := by
  rw [run, h]

theorem run_stop (h : body s = some (.inr b)) : run body (fuel + 1) s = some b := by
  rw [run, h]

/-- How a run that returns begins. -/
theorem run_cases (h : run body fuel s = some b) :
    body s = some (.inr b) ∨ ∃ s' fuel', body s = some (.inl s') ∧ fuel = fuel' + 1 ∧ run body fuel' s' = some b := by
  cases fuel with
  | zero => cases h
  | succ fuel =>
    rw [run] at h
    cases hbody : body s with
    | none =>
      rw [hbody] at h
      cases h
    | some r =>
      rw [hbody] at h
      cases r with
      | inl s' => exact .inr ⟨s', fuel, rfl, rfl, h⟩
      | inr b' =>
        cases h
        exact .inl rfl

/-- The result does not depend on the number of turns. -/
theorem run_unique {fuel' : Nat} {b' : β} (h : run body fuel s = some b) (h' : run body fuel' s = some b') : b = b' := by
  induction fuel generalizing fuel' s with
  | zero => cases h
  | succ fuel ih =>
    rcases run_cases h with hstop | ⟨s₁, n, hturn, hn, hrest⟩
    · rcases run_cases h' with hstop' | ⟨_, _, hturn', _, _⟩
      · exact Sum.inr.inj (Option.some.inj (hstop.symm.trans hstop'))
      · cases hstop.symm.trans hturn'
    · rcases run_cases h' with hstop' | ⟨s₂, _, hturn', _, hrest'⟩
      · cases hturn.symm.trans hstop'
      · have hsame : s₁ = s₂ := Sum.inl.inj (Option.some.inj (hturn.symm.trans hturn'))
        cases hn
        exact ih hrest (hsame ▸ hrest')

/-- What every turn keeps, and the end turns into `Q`. -/
theorem run_kept {P : σ → Prop} {Q : β → Prop} (h : run body fuel s = some b) (hs : P s)
    (turn : ∀ s s', P s → body s = some (.inl s') → P s') (stop : ∀ s b, P s → body s = some (.inr b) → Q b) : Q b := by
  induction fuel generalizing s with
  | zero => cases h
  | succ fuel ih =>
    rcases run_cases h with hstop | ⟨s', n, hturn, hn, hrest⟩
    · exact stop s b hs hstop
    · cases hn
      exact ih hrest (turn s s' hs hturn)

/-- A loop whose turns bring a measure down returns within as many turns as the measure is, and one. -/
theorem run_returns (body : σ → Option (σ ⊕ β)) (P : σ → Prop) {Q : β → Prop} (measure : σ → Nat) (hs : P s)
    (turn : ∀ s, P s → (∃ s', body s = some (.inl s') ∧ P s' ∧ measure s' < measure s) ∨
      ∃ b, body s = some (.inr b) ∧ Q b) : ∃ b, Q b ∧ ∀ fuel, measure s < fuel → run body fuel s = some b := by
  induction hn : measure s using Nat.strongRecOn generalizing s with
  | _ n ih =>
    rcases turn s hs with ⟨s', hturn, hP, hlt⟩ | ⟨b, hstop, hQ⟩
    · obtain ⟨b, hQ, hrun⟩ := ih (measure s') (hn ▸ hlt) hP rfl
      refine ⟨b, hQ, fun fuel hfuel => ?_⟩
      cases fuel with
      | zero => cases hfuel
      | succ fuel =>
        rw [run_turn hturn]
        exact hrun fuel (by omega)
    · refine ⟨b, hQ, fun fuel hfuel => ?_⟩
      cases fuel with
      | zero => cases hfuel
      | succ fuel => exact run_stop hstop

end While
