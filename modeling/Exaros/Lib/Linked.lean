import Mathlib.Data.List.Nodup

/-!
# Singly linked lists

A list that lies in memory is a first cell and a function from each cell to the next. `Cells` reads it as
a Lean list; `find` is the loop that runs along it until a cell is the one looked for, and the two edits
of such a list are putting a cell in front and taking one out.
-/

namespace Linked

variable {α : Type*}

/-- The cells from a pointer on, in order. -/
inductive Cells (next : α → Option α) : Option α → List α → Prop
  | nil : Cells next none []
  | cons {a : α} {l : List α} (h : Cells next (next a) l) : Cells next (some a) (a :: l)

/-- The loop `for (; p; p = p->next) if (found p) break`, for `n` turns. The outer `none` is a loop that has
not ended by then. -/
def find (next : α → Option α) (found : α → Bool) : Nat → Option α → Option (Option α)
  | 0, _ => none
  | _ + 1, none => some none
  | n + 1, some a => if found a then some (some a) else find next found n (next a)

variable {next next' : α → Option α} {p : Option α} {a : α} {l l' l₁ l₂ : List α}

theorem Cells.unique (h : Cells next p l) (h' : Cells next p l') : l = l' := by
  induction h generalizing l' with
  | nil =>
    cases h'
    rfl
  | cons _ ih =>
    cases h' with
    | cons h' => rw [ih h']

theorem Cells.congr (h : Cells next p l) (hn : ∀ a ∈ l, next' a = next a) : Cells next' p l := by
  induction h with
  | nil => exact .nil
  | cons _ ih =>
    refine .cons ?_
    rw [hn _ (List.mem_cons_self ..)]
    exact ih fun a ha => hn a (List.mem_cons_of_mem _ ha)

/-- From a cell on, the list is the rest of the list. -/
theorem Cells.suffix (h : Cells next p (l₁ ++ a :: l₂)) : Cells next (next a) l₂ := by
  induction l₁ generalizing p with
  | nil =>
    cases h with
    | cons h => exact h
  | cons b l₁ ih =>
    cases h with
    | cons h => exact ih h

/-- A list that ends visits no cell twice: from equal cells on it would be equally long. -/
theorem Cells.nodup (h : Cells next p l) : l.Nodup := by
  induction h with
  | nil => exact List.nodup_nil
  | @cons a l h ih =>
    refine List.nodup_cons.mpr ⟨fun ha => ?_, ih⟩
    obtain ⟨l₁, l₂, rfl⟩ := List.append_of_mem ha
    have hlen := congrArg List.length (h.unique h.suffix)
    simp only [List.length_append, List.length_cons] at hlen
    omega

theorem Cells.find (h : Cells next p l) (found : α → Bool) {n : Nat} (hn : l.length < n) :
    Linked.find next found n p = some (l.find? found) := by
  induction h generalizing n with
  | nil =>
    cases n with
    | zero => cases hn
    | succ n => rfl
  | @cons a l h ih =>
    cases n with
    | zero => cases hn
    | succ n =>
      rw [List.length_cons] at hn
      cases hf : found a with
      | true => simp [Linked.find, hf]
      | false =>
        simp only [Linked.find, hf, List.find?_cons]
        exact ih (by omega)

/-- A new first cell. -/
theorem Cells.push (h : Cells next p l) (hn : ∀ b ∈ l, next' b = next b) (hna : next' a = p) :
    Cells next' (some a) (a :: l) := by
  refine .cons ?_
  rw [hna]
  exact h.congr hn

/-- The first cell taken out. -/
theorem Cells.pop (h : Cells next (some a) (a :: l)) : Cells next (next a) l := by
  cases h with
  | cons h => exact h

/-- The cell before an inner cell is the one cell that leads to it. -/
theorem Cells.find_pred [DecidableEq α] {b : α} (h : Cells next p (l₁ ++ b :: a :: l₂)) :
    (l₁ ++ b :: a :: l₂).find? (fun c => next c = some a) = some b := by
  have hb : next b = some a := by
    have hsuf : Cells next (next b) (a :: l₂) := h.suffix
    cases hnb : next b with
    | none =>
      rw [hnb] at hsuf
      cases hsuf
    | some c =>
      rw [hnb] at hsuf
      cases hsuf
      rfl
  have hno : ∀ c ∈ l₁, ¬ next c = some a := by
    intro c hc hca
    obtain ⟨m₁, m₂, rfl⟩ := List.append_of_mem hc
    have h₁ : Cells next (next c) (m₂ ++ b :: a :: l₂) := by
      rw [List.append_assoc] at h
      exact h.suffix
    rw [hca] at h₁
    have h₂ : Cells next (some a) (a :: l₂) := by
      rw [← hb]
      exact h.suffix
    have hlen := congrArg List.length (h₁.unique h₂)
    simp only [List.length_append, List.length_cons] at hlen
    omega
  rw [List.find?_append, List.find?_eq_none.mpr (by simpa using hno)]
  simp [hb]

/-- An inner cell taken out: the cell before it leads to the one after it. -/
theorem Cells.remove {b : α} (h : Cells next p (l₁ ++ b :: a :: l₂)) (hb : next' b = next a)
    (hn : ∀ c ∈ l₁ ++ b :: l₂, c ≠ b → next' c = next c) : Cells next' p (l₁ ++ b :: l₂) := by
  have hnodup := h.nodup
  induction l₁ generalizing p with
  | nil =>
    cases h with
    | cons h =>
      refine .cons ?_
      rw [hb]
      have hall : Cells next (some b) ([b] ++ a :: l₂) := .cons h
      have htail := hall.suffix
      have hb₂ : b ∉ l₂ := fun hm => (List.nodup_cons.mp hnodup).1 (List.mem_cons_of_mem _ hm)
      exact htail.congr fun c hc => hn c (List.mem_cons_of_mem _ hc) fun hcb => hb₂ (hcb ▸ hc)
  | cons d l₁ ih =>
    cases h with
    | cons h =>
      refine .cons ?_
      have hd : d ≠ b := fun hdb => (List.nodup_cons.mp hnodup).1 (by simp [hdb])
      rw [hn d (List.mem_cons_self ..) hd]
      exact ih h (fun c hc => hn c (List.mem_cons_of_mem _ hc)) (List.nodup_cons.mp hnodup).2

/-- A cursor stands at the start of `l₂`. When cells are put in front and others go, but not the one at the cursor, it
stands at what is left of `l₂`. -/
theorem Cells.cursor {cur q : Option α} {new kept : List α} (hcur : Cells next cur l₂) (hnodup : (l₁ ++ l₂).Nodup)
    (hsub : kept.Sublist (l₁ ++ l₂)) (hstays : ∀ a, cur = some a → a ∈ kept) (h : Cells next' q (new ++ kept)) :
    ∃ k₁ k₂, kept = k₁ ++ k₂ ∧ k₁.Sublist l₁ ∧ k₂.Sublist l₂ ∧ Cells next' cur k₂ := by
  obtain ⟨k₁, k₂, rfl, hk₁, hk₂⟩ := List.sublist_append_iff.mp hsub
  refine ⟨k₁, k₂, rfl, hk₁, hk₂, ?_⟩
  cases hcur with
  | nil =>
    obtain rfl := List.sublist_nil.mp hk₂
    exact .nil
  | @cons a l hl =>
    have hmem := (List.mem_append.mp (hstays a rfl)).resolve_left fun ha =>
      (List.nodup_append.mp hnodup).2.2 a (hk₁.subset ha) a (List.mem_cons_self ..) rfl
    cases hk₂ with
    | cons _ hk₂ => exact absurd (hk₂.subset hmem) (List.nodup_cons.mp (List.nodup_append.mp hnodup).2.1).1
    | cons_cons _ hk₂ =>
      rw [← List.append_assoc] at h
      exact .cons h.suffix

end Linked
