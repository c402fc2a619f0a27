import Mathlib.Algebra.Group.Nat.Even

/-!
# Loops that count an unsigned number down

`do { body; n--; } while (n)` on a 64-bit `n`. The loop takes `n` turns, but from zero the count wraps and it
takes `2 ^ 64`. `run_invariant` carries an invariant of the number of turns through the loop; `run_first`
is for what the first turn does and no later one undoes.
-/

namespace Countdown

universe u v

variable {ε : Type u} {σ : Type v}

/-- The loop from turn `i` on, with `n` the count. -/
def loop (body : Nat → σ → Except ε σ) (stuck : ε) : Nat → Nat → Nat → σ → Except ε σ
  | 0, _, _, _ => .error stuck
  | fuel + 1, i, n, s =>
    match body i s with
    | .error e => .error e
    | .ok s => if (n + (2 ^ 64 - 1)) % 2 ^ 64 = 0 then .ok s else loop body stuck fuel (i + 1) ((n + (2 ^ 64 - 1)) % 2 ^ 64) s

/-- The loop. `2 ^ 64` turns are enough from any count, so it is never stuck. -/
def run (body : Nat → σ → Except ε σ) (stuck : ε) (n : Nat) (s : σ) : Except ε σ := loop body stuck (2 ^ 64) 0 n s

/-- How many turns the loop takes. -/
def turns (n : Nat) : Nat := if n = 0 then 2 ^ 64 else n

theorem turns_of_pos {n : Nat} (h : n ≠ 0) : turns n = n := if_neg h

section Invariant

variable (body : Nat → σ → Except ε σ) (stuck : ε) {P : Nat → σ → Prop} {t i n : Nat} {s : σ}

/-- With `t` turns to go. -/
theorem loop_invariant (fuel : Nat) (h : P i s) (ht : 0 < t) (hmax : t ≤ 2 ^ 64) (hfuel : t ≤ fuel)
    (hstep : ∀ j, i ≤ j → j < i + t → ∀ s, P j s → ∃ s', body j s = .ok s' ∧ P (j + 1) s') :
    ∃ s', loop body stuck fuel i (t % 2 ^ 64) s = .ok s' ∧ P (i + t) s' := by
  induction fuel generalizing t i s with
  | zero => omega
  | succ fuel ih =>
    obtain ⟨s₁, hbody, h₁⟩ := hstep i (Nat.le_refl i) (by omega) s h
    have hcount : (t % 2 ^ 64 + (2 ^ 64 - 1)) % 2 ^ 64 = t - 1 := by omega
    rw [loop, hbody]
    simp only
    rw [hcount]
    by_cases hlast : t - 1 = 0
    · rw [if_pos hlast]
      obtain rfl : t = 1 := by omega
      exact ⟨s₁, rfl, h₁⟩
    · rw [if_neg hlast]
      obtain ⟨s', hrest, h'⟩ := @ih (t - 1) (i + 1) s₁ h₁ (by omega) (by omega) (by omega) fun j hj hlt =>
        hstep j (by omega) (by omega)
      rw [Nat.mod_eq_of_lt (by omega)] at hrest
      rw [show i + 1 + (t - 1) = i + t by omega] at h'
      exact ⟨s', hrest, h'⟩

/-- **The invariant rule.** A body that is sure to return from every state of the invariant makes a loop that is. -/
theorem run_invariant (hn : n < 2 ^ 64) (h : P 0 s)
    (hstep : ∀ j, j < turns n → ∀ s, P j s → ∃ s', body j s = .ok s' ∧ P (j + 1) s') :
    ∃ s', run body stuck n s = .ok s' ∧ P (turns n) s' := by
  have hturns : turns n % 2 ^ 64 = n ∧ 0 < turns n ∧ turns n ≤ 2 ^ 64 := by
    unfold turns
    split <;> omega
  have hloop := loop_invariant body stuck (2 ^ 64) h hturns.2.1 hturns.2.2 hturns.2.2
    fun j _ hj => hstep j (by omega)
  rw [hturns.1, Nat.zero_add] at hloop
  exact hloop

end Invariant

section First

variable {body : Nat → σ → Except ε σ} {stuck : ε} {fuel i n : Nat} {s s' : σ}

/-- What holds of the state and no turn loses. -/
theorem loop_keeps {Q : σ → Prop} (hkeep : ∀ j s s', Q s → body j s = .ok s' → Q s') (h : Q s)
    (hloop : loop body stuck fuel i n s = .ok s') : Q s' := by
  induction fuel generalizing i n s with
  | zero => cases hloop
  | succ fuel ih =>
    rw [loop] at hloop
    split at hloop
    · cases hloop
    · rename_i s₁ hbody
      have h₁ := hkeep i s s₁ h hbody
      split at hloop
      · cases hloop
        exact h₁
      · exact ih h₁ hloop

/-- **The first turn** is taken whatever the count: what it leaves and no turn loses holds in the end. -/
theorem run_first {Q : σ → Prop} (hfirst : ∀ s₁, body 0 s = .ok s₁ → Q s₁)
    (hkeep : ∀ j s s', Q s → body j s = .ok s' → Q s') (hrun : run body stuck n s = .ok s') : Q s' := by
  unfold run at hrun
  rw [show 2 ^ 64 = 2 ^ 64 - 1 + 1 by omega, loop] at hrun
  split at hrun
  · cases hrun
  · rename_i s₁ hbody
    have h₁ := hfirst s₁ hbody
    split at hrun
    · cases hrun
      exact h₁
    · exact loop_keeps hkeep h₁ hrun

end First

end Countdown
