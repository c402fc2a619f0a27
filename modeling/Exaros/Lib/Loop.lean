import Mathlib.Data.List.Nodup

/-!
# Computations that may fail

How to take a computation in `Except` that returned apart, and the invariant rule for a loop over a list
whose body returns in `Except`: when the body is sure to return from every state of the invariant, so is
the loop.
-/

namespace Loop

section Sequence

universe u v

variable {ε : Type u} {α β : Type v} {x : Except ε α}

/-- What returns after another computation: that one returned too. -/
theorem bind_ok {f : α → Except ε β} {b : β} (h : (x >>= f) = .ok b) :
    ∃ a, x = .ok a ∧ f a = .ok b := by
  cases x with
  | error e => cases h
  | ok a => exact ⟨a, rfl, h⟩

theorem map_ok {f : α → β} {b : β} (h : x.map f = .ok b) : ∃ a, x = .ok a ∧ f a = b := by
  cases x with
  | error e => cases h
  | ok a => exact ⟨a, rfl, Except.ok.inj h⟩

theorem ok_bind (a : α) (f : α → Except ε β) : ((Except.ok a : Except ε α) >>= f) = f a := rfl

theorem ok_mapError {ε' : Type u} (f : ε → ε') {a : α} (h : x = .ok a) : x.mapError f = .ok a := by
  rw [h]
  rfl

theorem mapError_ok {ε' : Type u} {f : ε → ε'} {a : α} (h : x.mapError f = .ok a) : x = .ok a := by
  cases x with
  | error e => cases h
  | ok b =>
    cases h
    rfl

theorem ok_of_toOption {a : α} (h : x.toOption = some a) : x = .ok a := by
  cases x with
  | error e => cases h
  | ok b =>
    cases h
    rfl

/-- What a closed evaluation of a computation says of it. -/
theorem exists_of_toOption {f : α → β} {b : β} (h : x.toOption.map f = some b) :
    ∃ a, x = .ok a ∧ f a = b := by
  cases x with
  | error e => cases h
  | ok a => exact ⟨a, rfl, Option.some.inj h⟩

/-- How a computation may end: with an error that `E` allows, or with a result that `Q` holds of. -/
inductive Outcome (E : ε → Prop) (Q : α → Prop) : Except ε α → Prop
  | error {e : ε} : E e → Outcome E Q (.error e)
  | ok {a : α} : Q a → Outcome E Q (.ok a)

section Outcome

variable {E E' : ε → Prop} {Q Q' : α → Prop} {R : β → Prop} {x : Except ε α}

theorem Outcome.mono (h : Outcome E Q x) (hE : ∀ e, E e → E' e) (hQ : ∀ a, Q a → Q' a) : Outcome E' Q' x := by
  cases h with
  | error he => exact .error (hE _ he)
  | ok ha => exact .ok (hQ _ ha)

theorem Outcome.bind {f : α → Except ε β} (h : Outcome E Q x) (hf : ∀ a, Q a → Outcome E R (f a)) :
    Outcome E R (x >>= f) := by
  cases h with
  | error he => exact .error he
  | ok ha => exact hf _ ha

theorem Outcome.map {f : α → β} (h : Outcome E Q x) (hf : ∀ a, Q a → R (f a)) : Outcome E R (x.map f) := by
  cases h with
  | error he => exact .error he
  | ok ha => exact .ok (hf _ ha)

theorem Outcome.of_ok (h : Outcome E Q x) {a : α} (hx : x = .ok a) : Q a := by
  subst hx
  cases h with
  | ok ha => exact ha

theorem Outcome.of_error (h : Outcome E Q x) {e : ε} (hx : x = .error e) : E e := by
  subst hx
  cases h with
  | error he => exact he

/-- A loop ends as its turns may. -/
theorem outcome_foldlM {γ : Type*} {f : α → γ → Except ε α} (l : List γ) {a : α} (h : Q a)
    (step : ∀ a c, Q a → Outcome E Q (f a c)) : Outcome E Q (l.foldlM f a) := by
  induction l generalizing a with
  | nil => exact .ok h
  | cons c l ih =>
    rw [List.foldlM_cons]
    exact (step a c h).bind fun a' h' => ih h'

end Outcome

end Sequence

variable {ε α σ : Type*} {f : σ → α → Except ε σ} {P : List α → σ → Prop}

/-- The rule from the middle of the list on. -/
theorem foldlM_ok_from (l done : List α) (hl : (done ++ l).Nodup) {s : σ} (h : P done s)
    (step : ∀ done a s, a ∉ done → P done s → ∃ s', f s a = .ok s' ∧ P (done ++ [a]) s') :
    ∃ s', l.foldlM f s = .ok s' ∧ P (done ++ l) s' := by
  induction l generalizing done s with
  | nil => exact ⟨s, rfl, by simpa using h⟩
  | cons a l ih =>
    have ha : a ∉ done := fun ha => (List.nodup_append.mp hl).2.2 a ha a (List.mem_cons_self ..) rfl
    obtain ⟨s₁, h₁, hP⟩ := step done a s ha h
    obtain ⟨s', h', hP'⟩ := ih (done ++ [a]) (by simpa using hl) hP
    refine ⟨s', ?_, by simpa using hP'⟩
    rw [List.foldlM_cons, h₁]
    exact h'

/-- A loop over distinct elements keeps an invariant `P` of the elements done so far and the state. -/
theorem foldlM_ok {l : List α} (hl : l.Nodup) {s : σ} (h : P [] s)
    (step : ∀ done a s, a ∉ done → P done s → ∃ s', f s a = .ok s' ∧ P (done ++ [a]) s') :
    ∃ s', l.foldlM f s = .ok s' ∧ P l s' := by
  simpa using foldlM_ok_from l [] (by simpa using hl) h step

/-- What a loop over distinct elements keeps, of the elements done so far and the state, where its turns return. -/
theorem foldlM_kept {l done : List α} {s s' : σ} (h : l.foldlM f s = .ok s') (hl : (done ++ l).Nodup) (hP : P done s)
    (step : ∀ done a s s', a ∈ l → a ∉ done → P done s → f s a = .ok s' → P (done ++ [a]) s') : P (done ++ l) s' := by
  induction l generalizing done s with
  | nil =>
    cases h
    simpa using hP
  | cons a l ih =>
    have ha : a ∉ done := fun ha => (List.nodup_append.mp hl).2.2 a ha a (List.mem_cons_self ..) rfl
    rw [List.foldlM_cons] at h
    obtain ⟨s₁, hturn, hrest⟩ := bind_ok h
    have hend := ih hrest (by simpa using hl) (step done a s s₁ (List.mem_cons_self ..) ha hP hturn)
      fun done b s s' hb => step done b s s' (List.mem_cons_of_mem _ hb)
    simpa using hend

/-- The last turn of a counted loop. -/
theorem foldlM_range_succ {f : σ → Nat → Except ε σ} {n : Nat} {s s' : σ} (h : (List.range (n + 1)).foldlM f s = .ok s') :
    ∃ s₁, (List.range n).foldlM f s = .ok s₁ ∧ f s₁ n = .ok s' := by
  rw [List.range_succ, List.foldlM_append] at h
  obtain ⟨s₁, hfirst, hlast⟩ := bind_ok h
  refine ⟨s₁, hfirst, ?_⟩
  rw [List.foldlM_cons] at hlast
  obtain ⟨s₂, hstep, hnil⟩ := bind_ok hlast
  cases hnil
  exact hstep

/-- What a body keeps when it returns, the loop keeps. -/
theorem foldlM_inv {Q : σ → Prop} {l : List α} {s s' : σ} (h : l.foldlM f s = .ok s') (hs : Q s)
    (step : ∀ s a s', Q s → f s a = .ok s' → Q s') : Q s' := by
  induction l generalizing s with
  | nil =>
    cases h
    exact hs
  | cons a l ih =>
    rw [List.foldlM_cons] at h
    cases ha : f s a with
    | error e =>
      rw [ha] at h
      cases h
    | ok s₁ =>
      rw [ha] at h
      exact ih h (step s a s₁ hs ha)

end Loop
