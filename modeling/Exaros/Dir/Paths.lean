import Exaros.Dir.Lookup
import Mathlib.Data.List.TakeWhile

/-!
# Paths as lists of elements

A path is looked up element by element, and `elements` is what `skipelem` finds in it. `walkElems` is the loop of
`lookupPath` over that list, so that two spellings of a path are compared through their elements.
-/

namespace Exaros.Dir.Tree

open Fat

/-- The elements of a path. -/
def elements (path : List Byte) : List (List Byte) :=
  ((path.splitOn slash).filter fun e => decide (e ≠ [])).map fun e => e.take FAT32_MAX_FILENAME

section Elements

variable {path name rest : List Byte}

theorem elements_nil : elements [] = [] := rfl

theorem elements_append (a b : List Byte) : elements (a ++ slash :: b) = elements a ++ elements b := by
  unfold elements
  rw [List.splitOn_append_cons_self, List.filter_append, List.map_append]

theorem elements_slash (b : List Byte) : elements (slash :: b) = elements b := elements_append [] b

theorem elements_slashes (k : Nat) (b : List Byte) : elements (List.replicate k slash ++ b) = elements b := by
  induction k with
  | zero => rfl
  | succ k ih =>
    rw [List.replicate_succ, List.cons_append, elements_slash]
    exact ih

theorem elements_trailing (path : List Byte) (k : Nat) : elements (path ++ List.replicate k slash) = elements path := by
  cases k with
  | zero => rw [List.replicate_zero, List.append_nil]
  | succ k =>
    have hrest : elements (List.replicate k slash) = [] := by
      have h := elements_slashes k []
      rw [List.append_nil] at h
      exact h
    rw [List.replicate_succ, elements_append, hrest, List.append_nil]

/-- A path without a separator is one element. -/
theorem elements_single (hne : name ≠ []) (hslash : slash ∉ name) : elements name = [name.take FAT32_MAX_FILENAME] := by
  unfold elements
  rw [List.splitOn_eq_singleton hslash, List.filter_cons_of_pos (by simpa using hne)]
  rfl

theorem elements_dropWhile (path : List Byte) : elements (path.dropWhile (· = slash)) = elements path := by
  induction path with
  | nil => rfl
  | cons ch path ih =>
    by_cases hch : ch = slash
    · rw [List.dropWhile_cons_of_pos (by simpa using hch), ih, hch, elements_slash]
    · rw [List.dropWhile_cons_of_neg (by simpa using hch)]

/-- `skipelem` finds nothing on a path without elements. -/
theorem elements_of_skipelem_none (h : skipelem path = none) : elements path = [] := by
  rw [← elements_dropWhile]
  unfold skipelem at h
  split at h
  · rename_i hnil
    rw [hnil]
    exact elements_nil
  · cases h

theorem elements_word (hne : name ≠ []) (hslash : slash ∉ name) (hrest : rest = [] ∨ ∃ b, rest = slash :: b) :
    elements (name ++ rest) = name.take FAT32_MAX_FILENAME :: elements rest := by
  rcases hrest with rfl | ⟨b, rfl⟩
  · rw [List.append_nil, elements_single hne hslash, elements_nil]
  · rw [elements_append, elements_single hne hslash, elements_slash]
    rfl

/-- What stands after the word is nothing, or a separator and more. -/
theorem dropWhile_word (path : List Byte) :
    path.dropWhile (· ≠ slash) = [] ∨ ∃ b, path.dropWhile (· ≠ slash) = slash :: b := by
  have hhead := List.head?_dropWhile_not (fun ch => decide (ch ≠ slash)) path
  cases hdrop : path.dropWhile (· ≠ slash) with
  | nil => exact .inl rfl
  | cons s rest =>
    rw [hdrop] at hhead
    have hs : s = slash := by simpa using hhead
    exact .inr ⟨rest, by rw [hs]⟩

theorem elements_cons {ch : Byte} (hch : ch ≠ slash) (path : List Byte) :
    elements (ch :: path) = ((ch :: path).takeWhile (· ≠ slash)).take FAT32_MAX_FILENAME ::
      elements (((ch :: path).dropWhile (· ≠ slash)).dropWhile (· = slash)) := by
  have hslash : slash ∉ (ch :: path).takeWhile (· ≠ slash) := fun hmem => by
    simpa using List.mem_takeWhile_imp hmem
  have hne : (ch :: path).takeWhile (· ≠ slash) ≠ [] := by
    rw [List.takeWhile_cons_of_pos (by simpa using hch)]
    exact List.cons_ne_nil _ _
  have hword := elements_word hne hslash (dropWhile_word (ch :: path))
  rw [List.takeWhile_append_dropWhile] at hword
  rw [elements_dropWhile]
  exact hword

theorem elements_ne_nil {ch : Byte} (hch : ch ≠ slash) (path : List Byte) : elements (ch :: path) ≠ [] := by
  rw [elements_cons hch]
  exact List.cons_ne_nil _ _

/-- The first character after separators is not one. -/
theorem elements_dropWhile_eq_nil (path : List Byte) : elements (path.dropWhile (· = slash)) = [] ↔ path.dropWhile (· = slash) = [] := by
  have hhead := List.head?_dropWhile_not (fun ch => decide (ch = slash)) path
  cases hdrop : path.dropWhile (· = slash) with
  | nil => exact iff_of_true elements_nil rfl
  | cons ch rest =>
    rw [hdrop] at hhead
    have hch : ch ≠ slash := by simpa using hhead
    exact iff_of_false (elements_ne_nil hch rest) (List.cons_ne_nil _ _)

/-- `skipelem` takes the first element, and stops where the next begins. -/
theorem elements_of_skipelem (h : skipelem path = some (name, rest)) :
    elements path = name :: elements rest ∧ rest.length < path.length ∧ (elements rest = [] ↔ rest = []) := by
  rw [← elements_dropWhile]
  have hlen : (path.dropWhile (· = slash)).length ≤ path.length := (List.dropWhile_sublist _).length_le
  unfold skipelem at h
  cases hdrop : path.dropWhile (· = slash) with
  | nil =>
    rw [hdrop] at h
    cases h
  | cons ch path' =>
    have hch : ch ≠ slash := by
      have hhead := List.head?_dropWhile_not (fun ch => decide (ch = slash)) path
      rw [hdrop] at hhead
      simpa using hhead
    rw [hdrop] at h hlen
    cases h
    refine ⟨elements_cons hch path', ?_, elements_dropWhile_eq_nil _⟩
    have hword : ((ch :: path').dropWhile (· ≠ slash)).length ≤ path'.length := by
      rw [List.dropWhile_cons_of_pos (by simpa using hch)]
      exact (List.dropWhile_sublist _).length_le
    exact Nat.lt_of_lt_of_le (Nat.lt_succ_of_le ((List.dropWhile_sublist _).length_le.trans hword)) hlen

end Elements

/-- The loop of `lookupPath` on the elements of the path. -/
def walkElems (link : Tree → Option Nat → Except Halt (Nat × Tree)) (parent jump : Bool) :
    Tree → Option Nat → List (List Byte) → List Byte → Except Halt (Option Nat × List Byte × Tree)
  | t, cur, [], name =>
    if jump then
      match link t cur with
      | .error e => .error e
      | .ok (d, t) => .ok (if parent then none else some d, name, t)
    else .ok (if parent then none else cur, name, t)
  | t, cur, name :: elems, _ =>
    match link t cur with
    | .error e => .error e
    | .ok (d, t) =>
      if ¬ t.isDir d then .ok (none, name, t)
      else if parent ∧ elems = [] then .ok (some (t.below d), name, t)
      else
        match t.dirlookup (t.below d) name with
        | .error e => .error e
        | .ok none => .ok (none, name, t)
        | .ok (some next) => walkElems link parent jump t (some next) elems name

/-- What the loop does in directory `base`, with `elems` left after element `name`. -/
def enter (link : Tree → Option Nat → Except Halt (Nat × Tree)) (parent jump : Bool) (t : Tree) (base : Nat) (name : List Byte)
    (elems : List (List Byte)) : Except Halt (Option Nat × List Byte × Tree) :=
  if parent ∧ elems = [] then .ok (some base, name, t)
  else
    match t.dirlookup base name with
    | .error e => .error e
    | .ok none => .ok (none, name, t)
    | .ok (some next) => walkElems link parent jump t (some next) elems name

section Walk

variable {link : Tree → Option Nat → Except Halt (Nat × Tree)} {parent jump : Bool} {t t' : Tree} {cur r : Option Nat}
  {path name name' : List Byte} {elems : List (List Byte)}

theorem walkElems_error {e : Halt} (hlink : link t cur = .error e) (elem : List Byte) :
    walkElems link parent jump t cur (elem :: elems) name = .error e := by
  rw [walkElems, hlink]

theorem walkElems_file {d : Nat} (hlink : link t cur = .ok (d, t')) (hfile : t'.isDir d = false) (elem : List Byte) :
    walkElems link parent jump t cur (elem :: elems) name = .ok (none, elem, t') := by
  rw [walkElems, hlink]
  dsimp only
  rw [if_pos (by simp [hfile])]

theorem walkElems_dir {d : Nat} (hlink : link t cur = .ok (d, t')) (hdir : t'.isDir d = true) (elem : List Byte) :
    walkElems link parent jump t cur (elem :: elems) name = enter link parent jump t' (t'.below d) elem elems := by
  rw [walkElems, hlink]
  dsimp only
  rw [if_neg (by simp [hdir])]
  rfl

/-- The loop sees the elements of the path only. -/
theorem walk_elements {n : Nat} (hn : path.length < n) :
    walk link parent jump n t cur path name = walkElems link parent jump t cur (elements path) name := by
  induction n generalizing t cur path name with
  | zero => cases hn
  | succ n ih =>
    rw [walk]
    cases hskip : skipelem path with
    | none =>
      rw [elements_of_skipelem_none hskip]
      rfl
    | some p =>
      obtain ⟨elem, rest⟩ := p
      obtain ⟨helems, hlen, hnil⟩ := elements_of_skipelem hskip
      rw [helems]
      cases hl : link t cur with
      | error e => rw [walkElems_error hl]
      | ok p =>
        obtain ⟨d, t₁⟩ := p
        dsimp only
        by_cases hdir : t₁.isDir d = true
        · rw [if_neg (by simp [hdir]), walkElems_dir hl hdir, enter]
          by_cases hlast : parent = true ∧ rest = []
          · rw [if_pos hlast, if_pos ⟨hlast.1, hnil.mpr hlast.2⟩]
          · rw [if_neg hlast, if_neg fun h => hlast ⟨h.1, hnil.mp h.2⟩]
            cases hlook : t₁.dirlookup (t₁.below d) elem with
            | error e => rfl
            | ok next =>
              cases next with
              | none => rfl
              | some next => exact ih (Nat.lt_of_lt_of_le hlen (Nat.le_of_lt_succ hn))
        · have hfile : t₁.isDir d = false := by simpa using hdir
          rw [if_pos hdir, walkElems_file hl hfile]

end Walk

end Exaros.Dir.Tree
