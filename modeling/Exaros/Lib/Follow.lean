import Mathlib.Tactic.TypeStar

/-!
# Following links

From an element on along `next`, as long as the elements are `live`; the links may run in circles. A walk that
erases each link after it has read it comes to the same elements.
-/

namespace Follow

variable {α : Type*}

/-- The elements a walk from the first comes to. -/
inductive Reaches (live : α → Prop) (next : α → α) : α → α → Prop
  | here {a : α} (h : live a) : Reaches live next a a
  | next {a b : α} (h : live a) (hr : Reaches live next (next a) b) : Reaches live next a b

section Reaches

variable {live : α → Prop} {next next' : α → α} {a b x : α}

theorem Reaches.live_start (h : Reaches live next a b) : live a := by
  cases h with
  | here h => exact h
  | next h _ => exact h

theorem reaches_iff (h : live a) : Reaches live next a b ↔ b = a ∨ Reaches live next (next a) b := by
  constructor
  · intro hr
    cases hr with
    | here _ => exact .inl rfl
    | next _ hr => exact .inr hr
  · rintro (rfl | hr)
    · exact .here h
    · exact .next h hr

/-- Without the link of `a` a walk comes to less. -/
theorem Reaches.of_erased (hdead : ¬ live (next' a)) (hsame : ∀ x, live x → x ≠ a → next' x = next x) (h : Reaches live next' x b) :
    Reaches live next x b := by
  induction h with
  | here h => exact .here h
  | @next x b h hr ih =>
    by_cases hx : x = a
    · rw [hx] at hr
      exact absurd hr.live_start hdead
    · rw [hsame x h hx] at ih
      exact .next h ih

/-- What lies behind the link of `a` is reached from where it led to. -/
theorem Reaches.erased (hsame : ∀ x, live x → x ≠ a → next' x = next x) (h : Reaches live next x b) :
    b = a ∨ Reaches live next' x b ∨ Reaches live next' (next a) b := by
  induction h with
  | here h => exact .inr (.inl (.here h))
  | @next x b h _ ih =>
    rcases ih with heq | hr | hr
    · exact .inl heq
    · by_cases hx : x = a
      · rw [hx] at hr
        exact .inr (.inr hr)
      · rw [← hsame x h hx] at hr
        exact .inr (.inl (.next h hr))
    · exact .inr (.inr hr)

/-- One turn of a walk that erases. -/
theorem reaches_erased (h : live a) (hdead : ¬ live (next' a)) (hsame : ∀ x, live x → x ≠ a → next' x = next x) :
    Reaches live next a b ↔ b = a ∨ Reaches live next' (next a) b := by
  rw [reaches_iff h]
  constructor
  · rintro (heq | hr)
    · exact .inl heq
    · rcases hr.erased hsame with heq | hr | hr
      · exact .inl heq
      · exact .inr hr
      · exact .inr hr
  · rintro (heq | hr)
    · exact .inl heq
    · exact .inr (hr.of_erased hdead hsame)

end Reaches

end Follow
