import Mathlib.Data.Fintype.Prod

/-!
# Counting the arguments of a value

How many arguments in a finite set a function sends to a given value, and how that number moves
when the function changes at one point.
-/

namespace Count

variable {α β : Type*} {S : Finset α} {γ : Type*}

/-- The pairs with first component in `S`. -/
def pairs (S : Finset α) (γ : Type*) [Fintype γ] : Finset (α × γ) := S ×ˢ Finset.univ

theorem mem_pairs [Fintype γ] {x : α × γ} : x ∈ pairs S γ ↔ x.1 ∈ S := by
  simp [pairs]

theorem card_pairs [Fintype γ] (S : Finset α) :
    (pairs S γ).card = S.card * Fintype.card γ := by
  rw [pairs, Finset.card_product, Finset.card_univ]

variable [DecidableEq β] {f : α → β}

/-- How many elements of `S` are sent to `b`. -/
def fiber (S : Finset α) (f : α → β) (b : β) : Nat := (S.filter fun x => f x = b).card

theorem fiber_congr {f g : α → β} (h : ∀ x ∈ S, g x = f x) (b : β) :
    fiber S g b = fiber S f b := by
  unfold fiber
  congr 1
  exact Finset.filter_congr fun x hx => by rw [h x hx]

/-- Arguments that miss the value do not count. -/
theorem fiber_subset {S T : Finset α} {b : β} (hST : S ⊆ T) (h : ∀ x ∈ T, x ∉ S → f x ≠ b) :
    fiber T f b = fiber S f b := by
  unfold fiber
  congr 1
  ext x
  simp only [Finset.mem_filter]
  constructor
  · rintro ⟨hx, hb⟩
    by_contra hn
    exact h x hx (fun hS => hn ⟨hS, hb⟩) hb
  · rintro ⟨hx, hb⟩
    exact ⟨hST hx, hb⟩

theorem fiber_eq_zero {b : β} :
    fiber S f b = 0 ↔ ∀ x ∈ S, f x ≠ b := by
  unfold fiber
  rw [Finset.card_eq_zero, Finset.filter_eq_empty_iff]

theorem fiber_pos {b : β} {a : α} (ha : a ∈ S) (h : f a = b) :
    0 < fiber S f b :=
  Finset.card_pos.mpr ⟨a, Finset.mem_filter.mpr ⟨ha, h⟩⟩

/-- A map that is injective on a fiber bounds its size. -/
theorem fiber_le_card {b : β} {T : Finset γ} (g : α → γ) (hmem : ∀ x ∈ S, f x = b → g x ∈ T)
    (hinj : ∀ x ∈ S, ∀ y ∈ S, f x = b → f y = b → g x = g y → x = y) : fiber S f b ≤ T.card := by
  refine Finset.card_le_card_of_injOn g ?_ ?_
  · intro x hx
    obtain ⟨hS, hb⟩ := Finset.mem_filter.mp hx
    exact hmem x hS hb
  · intro x hx y hy hxy
    obtain ⟨hSx, hbx⟩ := Finset.mem_filter.mp hx
    obtain ⟨hSy, hby⟩ := Finset.mem_filter.mp hy
    exact hinj x hSx y hSy hbx hby hxy

/-- Parts of a set are counted apart. -/
theorem fiber_union [DecidableEq α] {S T : Finset α} (hd : Disjoint S T) (f : α → β) (b : β) :
    fiber (S ∪ T) f b = fiber S f b + fiber T f b := by
  unfold fiber
  rw [Finset.filter_union]
  exact Finset.card_union_of_disjoint (Finset.disjoint_filter_filter hd)

/-- The pairs with one first component are counted apart. -/
theorem fiber_pairs_erase [DecidableEq α] [Fintype γ] [DecidableEq γ] {a : α} (ha : a ∈ S)
    (f : α × γ → β) (b : β) : fiber (pairs S γ) f b = fiber (pairs (S.erase a) γ) f b + fiber (pairs {a} γ) f b := by
  have hdisj : Disjoint (pairs (S.erase a) γ) (pairs {a} γ) := Finset.disjoint_left.mpr fun x hx hx' => by
    rw [mem_pairs] at hx hx'
    exact (Finset.mem_erase.mp hx).1 (Finset.mem_singleton.mp hx')
  have hunion : pairs S γ = pairs (S.erase a) γ ∪ pairs {a} γ := by
    ext x
    rw [Finset.mem_union, mem_pairs, mem_pairs, mem_pairs, Finset.mem_erase, Finset.mem_singleton]
    constructor
    · intro hx
      by_cases hxa : x.1 = a
      · exact .inr hxa
      · exact .inl ⟨hxa, hx⟩
    · rintro (hx | hx)
      · exact hx.2
      · exact hx ▸ ha
  rw [hunion]
  exact fiber_union hdisj f b

theorem fiber_insert [DecidableEq α] {a : α} (ha : a ∉ S) (f : α → β) (b : β) :
    fiber (insert a S) f b = fiber S f b + if f a = b then 1 else 0 := by
  unfold fiber
  rw [Finset.filter_insert]
  split
  · rw [Finset.card_insert_of_notMem fun h => ha (Finset.mem_filter.mp h).1]
  · rfl

/-- Changing a function at one point of the set. -/
theorem fiber_change [DecidableEq α] {f g : α → β} {a : α} (ha : a ∈ S) (h : ∀ x ∈ S, x ≠ a → g x = f x) (b : β) :
    fiber S g b + (if f a = b then 1 else 0) = fiber S f b + if g a = b then 1 else 0 := by
  have hS : insert a (S.erase a) = S := Finset.insert_erase ha
  have hna : a ∉ S.erase a := Finset.notMem_erase a S
  have hrest : fiber (S.erase a) g b = fiber (S.erase a) f b :=
    fiber_congr (fun x hx => h x (Finset.mem_of_mem_erase hx) (Finset.ne_of_mem_erase hx)) b
  rw [← hS, fiber_insert hna, fiber_insert hna, hrest]
  omega

end Count
