import Mathlib.Data.List.Nodup
import Mathlib.Data.List.Perm.Basic

/-!
# Lists that share no element

A pool of elements, each linked into one of several lists: `l h` is the list at `h`. The edits are taking an
element out of the list it is in and putting it into another; emptying lists only leaves elements out.
-/

namespace Lists

variable {H α : Type*}

/-- No element is in two lists, or twice in one. -/
structure Apart (l : H → List α) : Prop where
  nodup : ∀ h, (l h).Nodup
  home : ∀ h h' a, a ∈ l h → a ∈ l h' → h = h'

/-- The lists `l'` are `l` with `a` moved to the list at `h`. -/
structure Moved [DecidableEq α] (l l' : H → List α) (a : α) (h : H) : Prop where
  self : (l' h).Perm (a :: (l h).erase a)
  other : ∀ h', h' ≠ h → l' h' = (l h').erase a

/-- `a` taken out of its list and put in front of the one at `h`. -/
def toFront [DecidableEq H] [DecidableEq α] (l : H → List α) (a : α) (h : H) : H → List α :=
  Function.update (fun h' => (l h').erase a) h (a :: (l h).erase a)

/-- `a` taken out of its list and put at the end of the one at `h`. -/
def toBack [DecidableEq H] [DecidableEq α] (l : H → List α) (a : α) (h : H) : H → List α :=
  Function.update (fun h' => (l h').erase a) h ((l h).erase a ++ [a])

/-- The lists `l'` are `l` with the list at `h` emptied into the one at `f`. -/
structure Drained (l l' : H → List α) (h f : H) : Prop where
  empty : l' h = []
  other : ∀ h', h' ≠ h → h' ≠ f → l' h' = l h'
  mem : ∀ a, a ∈ l' f ↔ a ∈ l f ∨ a ∈ l h

variable {l l' l'' : H → List α} {h h' h₁ f : H} {a b : α}

/-- Lists with elements left out. -/
theorem Apart.sublist (hl : Apart l) (hsub : ∀ h, (l' h).Sublist (l h)) : Apart l' where
  nodup := fun h => (hl.nodup h).sublist (hsub h)
  home := fun h h' a ha ha' => hl.home h h' a ((hsub h).subset ha) ((hsub h').subset ha')

theorem Drained.refl (h₀ : l h = []) : Drained l l h f := ⟨h₀, fun _ _ _ => rfl, fun a => by simp [h₀]⟩

theorem Drained.exists_mem (hd : Drained l l' h f) : (∃ h', a ∈ l' h') ↔ ∃ h', a ∈ l h' := by
  constructor
  · rintro ⟨h', ha⟩
    by_cases hh' : h' = h
    · rw [hh', hd.empty] at ha
      cases ha
    · by_cases hf' : h' = f
      · rw [hf'] at ha
        rcases (hd.mem a).mp ha with ha | ha
        · exact ⟨f, ha⟩
        · exact ⟨h, ha⟩
      · rw [hd.other h' hh' hf'] at ha
        exact ⟨h', ha⟩
  · rintro ⟨h', ha⟩
    by_cases hh' : h' = h
    · exact ⟨f, (hd.mem a).mpr (.inr (hh' ▸ ha))⟩
    · by_cases hf' : h' = f
      · exact ⟨f, (hd.mem a).mpr (.inl (hf' ▸ ha))⟩
      · rw [← hd.other h' hh' hf'] at ha
        exact ⟨h', ha⟩

variable [DecidableEq α]

theorem Apart.mem_erase (hl : Apart l) : b ∈ (l h).erase a ↔ b ≠ a ∧ b ∈ l h := (hl.nodup h).mem_erase_iff

/-- The lists an element is not in stay as they are. -/
theorem Apart.erase_of_ne (hl : Apart l) (ha : a ∈ l h) (hne : h' ≠ h) : (l h').erase a = l h' := by
  apply List.erase_of_not_mem
  intro ha'
  exact hne (hl.home h' h a ha' ha)

theorem Moved.mem (hm : Moved l l' a h) (hl : Apart l) : b ∈ l' h' ↔ (b = a ∧ h' = h) ∨ (b ≠ a ∧ b ∈ l h') := by
  by_cases hh : h' = h
  · subst hh
    rw [hm.self.mem_iff, List.mem_cons, hl.mem_erase]
    simp
  · rw [hm.other h' hh, hl.mem_erase]
    simp [hh]

theorem Moved.apart (hm : Moved l l' a h) (hl : Apart l) : Apart l' where
  nodup := fun h' => by
    by_cases hh : h' = h
    · subst hh
      rw [hm.self.nodup_iff, List.nodup_cons]
      exact ⟨(hl.nodup h').not_mem_erase, (hl.nodup h').erase a⟩
    · rw [hm.other h' hh]
      exact (hl.nodup h').erase a
  home := fun h₁ h₂ b h₁b h₂b => by
    rw [hm.mem hl] at h₁b h₂b
    rcases h₁b with ⟨rfl, rfl⟩ | ⟨hne, h₁b⟩
    · rcases h₂b with ⟨-, rfl⟩ | ⟨hne, -⟩
      · rfl
      · exact absurd rfl hne
    · rcases h₂b with ⟨hba, -⟩ | ⟨-, h₂b⟩
      · exact absurd hba hne
      · exact hl.home h₁ h₂ b h₁b h₂b

/-- A list that neither held nor gets the element. -/
theorem Moved.same (hm : Moved l l' a h) (hl : Apart l) (ha : a ∈ l h₁) (h₁' : h' ≠ h₁) (hh : h' ≠ h) : l' h' = l h' := by
  rw [hm.other h' hh]
  exact hl.erase_of_ne ha h₁'

/-- What moves stays in some list. -/
theorem Moved.exists_mem (hm : Moved l l' a h) (hl : Apart l) (ha : a ∈ l h₁) : (∃ h', b ∈ l' h') ↔ ∃ h', b ∈ l h' := by
  constructor
  · rintro ⟨h', hb⟩
    rcases (hm.mem hl).mp hb with ⟨rfl, -⟩ | ⟨-, hb⟩
    · exact ⟨h₁, ha⟩
    · exact ⟨h', hb⟩
  · rintro ⟨h', hb⟩
    by_cases hba : b = a
    · exact ⟨h, (hm.mem hl).mpr (.inl ⟨hba, rfl⟩)⟩
    · exact ⟨h', (hm.mem hl).mpr (.inr ⟨hba, hb⟩)⟩

/-- One more element first. -/
theorem Drained.cons (hl : Apart l) (hm : Moved l l' a f) (ha : a ∈ l h) (hd : Drained l' l'' h f) :
    Drained l l'' h f where
  empty := hd.empty
  other := fun h' hh hf' => by
    rw [hd.other h' hh hf', hm.same hl ha hh hf']
  mem := fun b => by
    rw [hd.mem, hm.mem hl, hm.mem hl]
    by_cases hba : b = a
    · subst hba
      simp [ha]
    · simp [hba]

section Edits

variable [DecidableEq H]

theorem moved_toFront (l : H → List α) (a : α) (h : H) : Moved l (toFront l a h) a h where
  self := by
    rw [toFront, Function.update_self]
  other := fun h' hh => by
    rw [toFront, Function.update_of_ne hh]

theorem moved_toBack (l : H → List α) (a : α) (h : H) : Moved l (toBack l a h) a h where
  self := by
    rw [toBack, Function.update_self]
    exact List.perm_append_singleton a _
  other := fun h' hh => by
    rw [toBack, Function.update_of_ne hh]

theorem toFront_self (hl : Apart l) (ha : a ∈ l h₁) (hne : h ≠ h₁) : toFront l a h h = a :: l h := by
  rw [toFront, Function.update_self, hl.erase_of_ne ha hne]

end Edits

end Lists
