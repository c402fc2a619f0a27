import Mathlib.Data.List.Basic

/-!
# Slots named by generations

A table of slots that are taken from a free list and given back to it. Each taking counts up, and the slot is
named by the count and its own number, `g * stride + i`. `Names` is what the table keeps as long as the count is
not cut: names in use are found in their slot, and a name that has been given up is used by nobody.
-/

namespace Generations

structure Names (capacity stride : Nat) (free : List Nat) (live : Nat → Prop) (name : Nat → Nat) (count : Nat) (gone : List Nat) :
    Prop where
  nodup : free.Nodup
  free_lt : ∀ i ∈ free, i < capacity
  idle : ∀ i ∈ free, ¬ live i
  named : ∀ i < capacity, live i → ∃ g, 1 ≤ g ∧ g ≤ count ∧ name i = g * stride + i
  fresh : ∀ i < capacity, live i → name i ∉ gone
  past : ∀ x ∈ gone, stride ≤ x ∧ x < (count + 1) * stride

section Names

variable {capacity stride count i j : Nat} {free rest gone : List Nat} {live live' : Nat → Prop} {name name' : Nat → Nat}

/-- No slot is in use. -/
theorem names_init (hfree : free = List.range capacity) (hlive : ∀ i, ¬ live i) : Names capacity stride free live name 0 [] := by
  rw [hfree]
  exact ⟨List.nodup_range, fun i hi => List.mem_range.mp hi, fun i _ => hlive i, fun i _ hi => absurd hi (hlive i),
    fun i _ hi => absurd hi (hlive i), fun _ hx => absurd hx List.not_mem_nil⟩

/-- The name leads back to the slot. -/
theorem Names.slot (h : Names capacity stride free live name count gone) (hdvd : capacity ∣ stride) (hi : i < capacity) (hlive : live i) :
    name i % capacity = i := by
  obtain ⟨g, -, -, hname⟩ := h.named i hi hlive
  obtain ⟨k, rfl⟩ := hdvd
  rw [hname, Nat.mul_left_comm, Nat.mul_add_mod, Nat.mod_eq_of_lt hi]

theorem Names.ne (h : Names capacity stride free live name count gone) (hdvd : capacity ∣ stride) (hi : i < capacity) (hj : j < capacity)
    (hlive : live i) (hlive' : live j) (hne : j ≠ i) : name j ≠ name i := by
  intro heq
  have hj' := h.slot hdvd hj hlive'
  rw [heq, h.slot hdvd hi hlive] at hj'
  exact hne hj'.symm

/-- How large a name can be. -/
theorem Names.bounds (h : Names capacity stride free live name count gone) (hle : capacity ≤ stride) (hi : i < capacity) (hlive : live i) :
    stride ≤ name i ∧ name i < (count + 1) * stride := by
  obtain ⟨g, hg, hgc, hname⟩ := h.named i hi hlive
  have hlow : 1 * stride ≤ g * stride := Nat.mul_le_mul_right _ hg
  have hhigh : (g + 1) * stride ≤ (count + 1) * stride := Nat.mul_le_mul_right _ (Nat.succ_le_succ hgc)
  rw [Nat.succ_mul] at hhigh
  omega

theorem Names.congr (h : Names capacity stride free live name count gone) (hlive : ∀ i, live' i ↔ live i) (hname : ∀ i, name' i = name i) :
    Names capacity stride free live' name' count gone := by
  refine ⟨h.nodup, h.free_lt, fun i hi => ?_, fun i hi hl => ?_, fun i hi hl => ?_, h.past⟩
  · rw [hlive]
    exact h.idle i hi
  · rw [hname]
    exact h.named i hi ((hlive i).mp hl)
  · rw [hname]
    exact h.fresh i hi ((hlive i).mp hl)

/-- A slot is taken off the free list and left alone. -/
theorem Names.lose (h : Names capacity stride (i :: rest) live name count gone) : Names capacity stride rest live name count gone :=
  ⟨(List.nodup_cons.mp h.nodup).2, fun j hj => h.free_lt j (List.mem_cons_of_mem _ hj), fun j hj => h.idle j (List.mem_cons_of_mem _ hj),
    h.named, h.fresh, h.past⟩

/-- A slot is taken and named. -/
theorem Names.take (h : Names capacity stride (i :: rest) live name count gone) (hlive : ∀ j, live' j ↔ j = i ∨ live j)
    (hname : name' i = (count + 1) * stride + i) (hother : ∀ j, j ≠ i → name' j = name j) :
    Names capacity stride rest live' name' (count + 1) gone := by
  have hnodup := List.nodup_cons.mp h.nodup
  have hnext : (count + 1) * stride ≤ (count + 1 + 1) * stride := Nat.mul_le_mul_right _ (Nat.le_succ _)
  refine ⟨hnodup.2, fun j hj => h.free_lt j (List.mem_cons_of_mem _ hj), fun j hj hl => ?_, fun j hj hl => ?_, fun j hj hl hg => ?_,
    fun x hx => ⟨(h.past x hx).1, Nat.lt_of_lt_of_le (h.past x hx).2 hnext⟩⟩
  · rcases (hlive j).mp hl with rfl | hl
    · exact hnodup.1 hj
    · exact h.idle j (List.mem_cons_of_mem _ hj) hl
  · by_cases hji : j = i
    · rw [hji]
      exact ⟨count + 1, Nat.le_add_left .., Nat.le_refl _, hname⟩
    · obtain ⟨g, hg, hgc, heq⟩ := h.named j hj (((hlive j).mp hl).resolve_left hji)
      exact ⟨g, hg, Nat.le_succ_of_le hgc, (hother j hji).trans heq⟩
  · by_cases hji : j = i
    · rw [hji, hname] at hg
      have := (h.past _ hg).2
      omega
    · rw [hother j hji] at hg
      exact h.fresh j hj (((hlive j).mp hl).resolve_left hji) hg

/-- A slot is given back, and its name with it. -/
theorem Names.release (h : Names capacity stride free live name count gone) (hdvd : capacity ∣ stride) (hle : capacity ≤ stride)
    (hi : i < capacity) (hl : live i) (hlive : ∀ j, live' j ↔ live j ∧ j ≠ i) :
    Names capacity stride (i :: free) live' name count (name i :: gone) := by
  refine ⟨List.nodup_cons.mpr ⟨fun hmem => h.idle i hmem hl, h.nodup⟩, fun j hj => ?_, fun j hj hl' => ?_,
    fun j hj hl' => h.named j hj ((hlive j).mp hl').1, fun j hj hl' hg => ?_, fun x hx => ?_⟩
  · rcases List.mem_cons.mp hj with rfl | hj
    · exact hi
    · exact h.free_lt j hj
  · obtain ⟨hj', hne⟩ := (hlive j).mp hl'
    exact h.idle j ((List.mem_cons.mp hj).resolve_left hne) hj'
  · obtain ⟨hj', hne⟩ := (hlive j).mp hl'
    rcases List.mem_cons.mp hg with heq | hg
    · exact h.ne hdvd hi hj hl hj' hne heq
    · exact h.fresh j hj hj' hg
  · rcases List.mem_cons.mp hx with rfl | hx
    · exact h.bounds hle hi hl
    · exact h.past x hx

end Names

end Generations
