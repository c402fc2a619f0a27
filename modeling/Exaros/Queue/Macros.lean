import Exaros.Lib.Lists
import Exaros.Lib.Loop

/-!
# The list macros

`include/queue.h`: an element holds the element behind it, `le_next`, and the address of the pointer that points to it,
`le_prev`, which is the `lh_first` of a head or the `le_next` of the element before. `LIST_REMOVE` so needs no head, and
`LIST_INSERT_TAIL` uses the link of the element it inserts to walk to the end. `Represents` reads a heap of such elements
as lists, one a head; that no element is in two of them, or twice in one, follows from `le_prev`.

**What it does not establish.** Anything of two harts that change a list at once.
-/

namespace Exaros.Queue

open Function (update update_self update_of_ne update_idem update_apply)

/-- The address of a pointer: `&head->lh_first` or `&elm->field.le_next`. -/
inductive Link (H α : Type*) where
  | lh_first (head : H)
  | le_next (elm : α)
deriving DecidableEq

structure Heap (H α : Type*) where
  lh_first : H → Option α
  le_next : α → Option α
  le_prev : α → Option (Link H α)

/-- What stops a macro: an access through a null pointer, or a loop that has not ended. -/
inductive Halt where
  | null
  | spins
deriving DecidableEq, Repr

variable {H α : Type*}

theorem next_ne_first (a : α) (h : H) : Link.le_next a ≠ Link.lh_first h := fun heq => by cases heq

theorem first_ne_next (h : H) (a : α) : Link.lh_first h ≠ Link.le_next a := fun heq => by cases heq

namespace Heap

/-- `*p` -/
def load (s : Heap H α) : Link H α → Option α
  | .lh_first head => s.lh_first head
  | .le_next elm => s.le_next elm

section Fields

variable [DecidableEq α]

def setNext (s : Heap H α) (elm : α) (v : Option α) : Heap H α := { s with le_next := update s.le_next elm v }

def setPrev (s : Heap H α) (elm : α) (p : Option (Link H α)) : Heap H α := { s with le_prev := update s.le_prev elm p }

/-- `if (p) p->le_prev = link` -/
def backLink (s : Heap H α) (p : Option α) (link : Option (Link H α)) : Heap H α :=
  match p with
  | some x => s.setPrev x link
  | none => s

@[simp] theorem setNext_le_next (s : Heap H α) (e x : α) (v : Option α) :
    (s.setNext e v).le_next x = if x = e then v else s.le_next x := update_apply ..
@[simp] theorem setNext_le_prev (s : Heap H α) (e : α) (v : Option α) : (s.setNext e v).le_prev = s.le_prev := rfl
@[simp] theorem setNext_lh_first (s : Heap H α) (e : α) (v : Option α) : (s.setNext e v).lh_first = s.lh_first := rfl
@[simp] theorem setPrev_le_prev (s : Heap H α) (e x : α) (p : Option (Link H α)) :
    (s.setPrev e p).le_prev x = if x = e then p else s.le_prev x := update_apply ..
@[simp] theorem setPrev_le_next (s : Heap H α) (e : α) (p : Option (Link H α)) : (s.setPrev e p).le_next = s.le_next := rfl
@[simp] theorem setPrev_lh_first (s : Heap H α) (e : α) (p : Option (Link H α)) : (s.setPrev e p).lh_first = s.lh_first := rfl
@[simp] theorem setPrev_load (s : Heap H α) (e : α) (p : Option (Link H α)) (q : Link H α) : (s.setPrev e p).load q = s.load q := by
  cases q <;> rfl
@[simp] theorem backLink_le_next (s : Heap H α) (p : Option α) (link : Option (Link H α)) : (s.backLink p link).le_next = s.le_next := by
  cases p <;> rfl
@[simp] theorem backLink_load (s : Heap H α) (p : Option α) (link : Option (Link H α)) (q : Link H α) :
    (s.backLink p link).load q = s.load q := by
  cases p
  · rfl
  · exact setPrev_load ..
@[simp] theorem backLink_le_prev (s : Heap H α) (p : Option α) (link : Option (Link H α)) (x : α) :
    (s.backLink p link).le_prev x = if p = some x then link else s.le_prev x := by
  cases p with
  | none => rfl
  | some y =>
    rw [show s.backLink (some y) link = s.setPrev y link from rfl, setPrev_le_prev]
    simp only [Option.some.injEq, eq_comm]

end Fields

variable [DecidableEq H] [DecidableEq α]

/-- `*p = v` -/
def store (s : Heap H α) (p : Link H α) (v : Option α) : Heap H α :=
  match p with
  | .lh_first head => { s with lh_first := update s.lh_first head v }
  | .le_next elm => s.setNext elm v

/-- `LIST_INSERT_HEAD` -/
def listInsertHead (head : H) (elm : α) (s : Heap H α) : Heap H α :=
  let s := s.setNext elm (s.lh_first head)
  let s := s.backLink (s.lh_first head) (some (.le_next elm))
  let s := s.store (.lh_first head) (some elm)
  s.setPrev elm (some (.lh_first head))

/-- The loop of `LIST_INSERT_TAIL`, for `n` turns. -/
def tailLoop (elm : α) : Nat → Heap H α → Except Halt (Heap H α)
  | 0, _ => .error .spins
  | n + 1, s =>
    match s.le_next elm with
    | none => .error .null
    | some x =>
      match s.le_next x with
      | none => .ok s
      | some y => tailLoop elm n (s.setNext elm (some y))

/-- `LIST_INSERT_TAIL` -/
def listInsertTail (n : Nat) (head : H) (elm : α) (s : Heap H α) : Except Halt (Heap H α) :=
  match s.lh_first head with
  | some first => do
    let s ← tailLoop elm n (s.setNext elm (some first))
    match s.le_next elm with
    | none => .error .null
    | some last =>
      let s := s.setNext last (some elm)
      let s := s.setPrev elm (some (.le_next last))
      return s.setNext elm none
  | none => .ok (s.listInsertHead head elm)

/-- `LIST_REMOVE` -/
def listRemove (elm : α) (s : Heap H α) : Except Halt (Heap H α) :=
  match s.le_prev elm with
  | none => .error .null
  | some p =>
    let s := s.backLink (s.le_next elm) (some p)
    let s := s.store p (s.le_next elm)
    .ok ((s.setNext elm none).setPrev elm none)

@[simp] theorem store_load (s : Heap H α) (p q : Link H α) (v : Option α) : (s.store p v).load q = if q = p then v else s.load q := by
  cases p <;> cases q <;> simp [store, load, update_apply]
@[simp] theorem store_le_prev (s : Heap H α) (p : Link H α) (v : Option α) : (s.store p v).le_prev = s.le_prev := by
  cases p <;> rfl
@[simp] theorem setNext_load (s : Heap H α) (e : α) (q : Link H α) (v : Option α) :
    (s.setNext e v).load q = if q = .le_next e then v else s.load q := store_load s (.le_next e) q v
end Heap

/-! ## A heap read as lists -/

/-- The pointer behind the elements `l` that start at `p`. -/
def endLink (p : Link H α) : List α → Link H α
  | [] => p
  | a :: l => endLink (.le_next a) l

/-- The elements `l` are linked one behind the other, from `p` on. -/
def Linked (s : Heap H α) : Link H α → List α → Prop
  | _, [] => True
  | p, a :: l => s.load p = some a ∧ s.le_prev a = some p ∧ Linked s (.le_next a) l

/-- The lists of a heap. -/
structure Represents (s : Heap H α) (l : H → List α) : Prop where
  linked : ∀ h, Linked s (.lh_first h) (l h)
  ends : ∀ h, s.load (endLink (.lh_first h) (l h)) = none

section Linked

variable {s s' : Heap H α} {p : Link H α} {l : H → List α} {l₁ l₂ k : List α} {a b : α} {h h' : H} {i j : Nat}

theorem endLink_append (p : Link H α) (l₁ l₂ : List α) : endLink p (l₁ ++ l₂) = endLink (endLink p l₁) l₂ := by
  induction l₁ generalizing p with
  | nil => rfl
  | cons a l₁ ih => exact ih (.le_next a)

/-- Elements in a row are two parts and the seam. -/
theorem linked_append : Linked s p (l₁ ++ l₂) ↔ Linked s p l₁ ∧ Linked s (endLink p l₁) l₂ := by
  induction l₁ generalizing p with
  | nil => exact ⟨fun h => ⟨trivial, h⟩, fun h => h.2⟩
  | cons a l₁ ih =>
    show s.load p = some a ∧ s.le_prev a = some p ∧ Linked s (.le_next a) (l₁ ++ l₂) ↔ _
    rw [ih, ← and_assoc, ← and_assoc, and_assoc (b := s.le_prev a = some p)]
    rfl

/-- A row depends on the pointers before its elements. -/
theorem Linked.congr (hl : Linked s p k) (hp : k ≠ [] → s'.load p = s.load p) (hnext : ∀ x ∈ k.dropLast, s'.load (.le_next x) = s.load (.le_next x))
    (hprev : ∀ x ∈ k, s'.le_prev x = s.le_prev x) : Linked s' p k := by
  induction k generalizing p with
  | nil => trivial
  | cons a k ih =>
    obtain ⟨hload, hback, hrest⟩ := hl
    refine ⟨(hp (List.cons_ne_nil a k)).trans hload, (hprev a List.mem_cons_self).trans hback, ?_⟩
    refine ih hrest (fun hne => ?_) (fun x hx => ?_) fun x hx => hprev x (List.mem_cons_of_mem a hx)
    · rw [List.dropLast_cons_of_ne_nil hne] at hnext
      exact hnext a List.mem_cons_self
    · have hne : k ≠ [] := fun h => by
        rw [h] at hx
        cases hx
      rw [List.dropLast_cons_of_ne_nil hne] at hnext
      exact hnext x (List.mem_cons_of_mem a hx)

/-- A row ends at its start, or behind one of its elements. -/
theorem endLink_cases (p : Link H α) (k : List α) : (k = [] ∧ endLink p k = p) ∨ ∃ x ∈ k, endLink p k = .le_next x := by
  induction k generalizing p with
  | nil => exact .inl ⟨rfl, rfl⟩
  | cons a k ih =>
    rcases ih (.le_next a) with ⟨-, heq⟩ | ⟨x, hx, heq⟩
    · exact .inr ⟨a, List.mem_cons_self, heq⟩
    · exact .inr ⟨x, List.mem_cons_of_mem a hx, heq⟩

theorem Linked.prev (hl : Linked s p k) (hi : k[i]? = some a) : s.le_prev a = some (endLink p (k.take i)) := by
  induction k generalizing p i with
  | nil => cases hi
  | cons b k ih =>
    obtain ⟨-, hprev, hrest⟩ := hl
    cases i with
    | zero =>
      obtain rfl : b = a := Option.some.inj hi
      exact hprev
    | succ i => exact ih hrest hi

/-- The last pointer before the end is the `le_next` of the last element. -/
theorem endLink_take (hi : k[i]? = some a) : endLink p (k.take (i + 1)) = .le_next a := by
  rw [List.take_add_one, hi, endLink_append]
  rfl

/-- **`le_prev` leads back to one place**: no element has two. -/
theorem Represents.place (hr : Represents s l) (hi : (l h)[i]? = some a) (hj : (l h')[j]? = some a) : h = h' ∧ i = j := by
  induction i generalizing a j with
  | zero =>
    have hprev := ((hr.linked h).prev hi).symm.trans ((hr.linked h').prev hj)
    cases j with
    | zero =>
      cases hprev
      exact ⟨rfl, rfl⟩
    | succ j =>
      have hlt := (List.getElem?_eq_some_iff.mp hj).1
      rw [endLink_take (List.getElem?_eq_getElem (Nat.lt_of_succ_lt hlt))] at hprev
      cases hprev
  | succ i ih =>
    have hlt := (List.getElem?_eq_some_iff.mp hi).1
    have hget := List.getElem?_eq_getElem (Nat.lt_of_succ_lt hlt)
    have hprev := ((hr.linked h).prev hi).symm.trans ((hr.linked h').prev hj)
    rw [endLink_take hget] at hprev
    cases j with
    | zero => cases hprev
    | succ j =>
      have hlt' := (List.getElem?_eq_some_iff.mp hj).1
      have hget' := List.getElem?_eq_getElem (Nat.lt_of_succ_lt hlt')
      rw [endLink_take hget'] at hprev
      have heq : (l h)[i] = (l h')[j] := Link.le_next.inj (Option.some.inj hprev)
      rw [← heq] at hget'
      obtain ⟨hh, hij⟩ := ih hget hget'
      exact ⟨hh, congrArg (· + 1) hij⟩

/-- The lists are apart. -/
theorem Represents.apart (hr : Represents s l) : Lists.Apart l where
  nodup h := by
    rw [List.nodup_iff_getElem?_ne_getElem?]
    intro i j hij hj heq
    obtain ⟨-, rfl⟩ := hr.place (heq.trans (List.getElem?_eq_getElem hj)) (List.getElem?_eq_getElem hj)
    exact Nat.lt_irrefl _ hij
  home h h' a ha ha' := by
    obtain ⟨i, hi⟩ := List.mem_iff_getElem?.mp ha
    obtain ⟨j, hj⟩ := List.mem_iff_getElem?.mp ha'
    exact (hr.place hi hj).1

/-- The pointer before a part of a row. -/
theorem Linked.head (hl : Linked s p k) (hend : s.load (endLink p k) = none) : s.load p = k.head? := by
  cases k with
  | nil => exact hend
  | cons a k => exact hl.1

theorem Represents.first (hr : Represents s l) (h : H) : s.lh_first h = (l h).head? := (hr.linked h).head (hr.ends h)

theorem Represents.first_mem (hr : Represents s l) (ha : s.lh_first h = some a) : a ∈ l h :=
  List.mem_of_mem_head? ((hr.first h).symm.trans ha)

/-- A list that neither the pointers nor the elements of which change. -/
theorem Represents.keep (hr : Represents s l) (hload : s'.load (.lh_first h) = s.load (.lh_first h))
    (hnext : ∀ x ∈ l h, s'.load (.le_next x) = s.load (.le_next x)) (hprev : ∀ x ∈ l h, s'.le_prev x = s.le_prev x) :
    Linked s' (.lh_first h) (l h) ∧ s'.load (endLink (.lh_first h) (l h)) = none := by
  refine ⟨(hr.linked h).congr (fun _ => hload) (fun x hx => hnext x (List.dropLast_subset _ hx)) hprev, ?_⟩
  rw [← hr.ends h]
  rcases endLink_cases (.lh_first h) (l h) with ⟨-, heq⟩ | ⟨x, hx, heq⟩
  · rw [heq]
    exact hload
  · rw [heq]
    exact hnext x hx

end Linked

/-! ## The macros on lists -/

section Macros

variable {s s' : Heap H α} {l : H → List α} {a : α} {h : H}

/-- The loop of `LIST_INSERT_TAIL` comes to the last element, and ends there. -/
theorem tailLoop_eq [DecidableEq α] {x z : α} {k : List α} (hl : Linked s (.le_next x) k) (hend : s.load (endLink (.le_next x) k) = none)
    (hlast : (x :: k).getLast? = some z) (hne : ∀ y ∈ x :: k, y ≠ a) {n : Nat} (hn : k.length < n) :
    Heap.tailLoop a n (s.setNext a (some x)) = .ok (s.setNext a (some z)) := by
  induction k generalizing x n with
  | nil =>
    obtain rfl : x = z := Option.some.inj hlast
    cases n with
    | zero => cases hn
    | succ n =>
      have hx : x ≠ a := hne x List.mem_cons_self
      have hnone : s.le_next x = none := hend
      rw [Heap.tailLoop]
      simp [hx, hnone]
  | cons y k ih =>
    cases n with
    | zero => cases hn
    | succ n =>
      have hx : x ≠ a := hne x List.mem_cons_self
      have hy : s.le_next x = some y := hl.1
      have hstep : Heap.tailLoop a (n + 1) (s.setNext a (some x)) = Heap.tailLoop a n ((s.setNext a (some x)).setNext a (some y)) := by
        rw [Heap.tailLoop]
        simp [hx, hy]
      have htwice : (s.setNext a (some x)).setNext a (some y) = s.setNext a (some y) := by
        unfold Heap.setNext
        simp only [update_idem]
      rw [hstep, htwice]
      refine ih hl.2.2 hend ?_ (fun w hw => hne w (List.mem_cons_of_mem x hw)) (Nat.lt_of_succ_lt_succ hn)
      rwa [List.getLast?_cons_cons] at hlast

variable [DecidableEq H]

theorem update_represents {l' : List α} (hself : Linked s' (.lh_first h) l' ∧ s'.load (endLink (.lh_first h) l') = none)
    (hother : ∀ g, g ≠ h → Linked s' (.lh_first g) (l g) ∧ s'.load (endLink (.lh_first g) (l g)) = none) :
    Represents s' (update l h l') := by
  have hall : ∀ g, Linked s' (.lh_first g) (update l h l' g) ∧
      s'.load (endLink (.lh_first g) (update l h l' g)) = none := fun g => by
    by_cases hg : g = h
    · subst hg
      rw [update_self]
      exact hself
    · rw [update_of_ne hg]
      exact hother g hg
  exact ⟨fun g => (hall g).1, fun g => (hall g).2⟩

variable [DecidableEq α]

/-- **`LIST_INSERT_HEAD`** puts the element in front. -/
theorem Represents.listInsertHead (hr : Represents s l) (ha : ∀ g, a ∉ l g) (h : H) :
    Represents (s.listInsertHead h a) (update l h (a :: l h)) := by
  have hload : ∀ q, (s.listInsertHead h a).load q =
      if q = .lh_first h then some a else if q = .le_next a then s.lh_first h else s.load q := fun q => by
    simp [Heap.listInsertHead]
  have hprev : ∀ x, (s.listInsertHead h a).le_prev x =
      if x = a then some (.lh_first h) else if s.lh_first h = some x then some (.le_next a) else s.le_prev x := fun x => by
    simp [Heap.listInsertHead]
  have hnext : ∀ x, x ≠ a → (s.listInsertHead h a).load (.le_next x) = s.load (.le_next x) := fun x hx => by
    rw [hload, if_neg (next_ne_first x h), if_neg fun heq => hx (Link.le_next.inj heq)]
  have hfirst := hr.first h
  have hends := hr.ends h
  have hnodup := hr.apart.nodup h
  refine update_represents ?_ fun g hg => ?_
  · have hself : (s.listInsertHead h a).load (.lh_first h) = some a := by rw [hload, if_pos rfl]
    have hback : (s.listInsertHead h a).le_prev a = some (.lh_first h) := by rw [hprev, if_pos rfl]
    have hseam : (s.listInsertHead h a).load (.le_next a) = s.lh_first h := by
      rw [hload, if_neg (next_ne_first a h), if_pos rfl]
    cases hl : l h with
    | nil =>
      rw [hl] at hfirst
      exact ⟨⟨hself, hback, trivial⟩, hseam.trans hfirst⟩
    | cons b k =>
      have hne : ∀ x ∈ b :: k, x ≠ a := fun x hx hxa => ha h (by rw [hl, ← hxa]; exact hx)
      rw [hl] at hfirst hends hnodup
      rw [List.head?_cons] at hfirst
      have hlinked := hr.linked h
      rw [hl] at hlinked
      have hb : (s.listInsertHead h a).le_prev b = some (.le_next a) := by
        rw [hprev, if_neg (hne b List.mem_cons_self), if_pos hfirst]
      have hrest : Linked (s.listInsertHead h a) (.le_next b) k := by
        refine hlinked.2.2.congr (fun _ => hnext b (hne b List.mem_cons_self))
          (fun x hx => hnext x (hne x (List.mem_cons_of_mem b (List.dropLast_subset k hx)))) fun x hx => ?_
        have hxb : b ≠ x := fun heq => (List.nodup_cons.mp hnodup).1 (heq ▸ hx)
        rw [hprev, if_neg (hne x (List.mem_cons_of_mem b hx)), hfirst, if_neg fun heq => hxb (Option.some.inj heq)]
      refine ⟨⟨hself, hback, hseam.trans hfirst, hb, hrest⟩, ?_⟩
      show (s.listInsertHead h a).load (endLink (.le_next b) k) = none
      have hlast : s.load (endLink (.le_next b) k) = none := hends
      rw [← hlast]
      rcases endLink_cases (.le_next b) k with ⟨-, heq⟩ | ⟨x, hx, heq⟩
      · rw [heq]
        exact hnext b (hne b List.mem_cons_self)
      · rw [heq]
        exact hnext x (hne x (List.mem_cons_of_mem b hx))
  · have hne : ∀ x ∈ l g, x ≠ a := fun x hx hxa => ha g (hxa ▸ hx)
    refine hr.keep ?_ (fun x hx => hnext x (hne x hx)) fun x hx => ?_
    · rw [hload, if_neg fun heq => hg (Link.lh_first.inj heq), if_neg (first_ne_next g a)]
    · rw [hprev, if_neg (hne x hx), if_neg fun heq => hg (hr.apart.home g h x hx (hr.first_mem heq))]

/-- **`LIST_INSERT_TAIL`** ends, and puts the element behind the last. -/
theorem Represents.listInsertTail (hr : Represents s l) (ha : ∀ g, a ∉ l g) (h : H) :
    ∃ s', (∀ n, (l h).length ≤ n → s.listInsertTail n h a = .ok s') ∧ Represents s' (update l h (l h ++ [a])) := by
  have hfirst := hr.first h
  have hlinked := hr.linked h
  have hends := hr.ends h
  rcases List.eq_nil_or_concat (l h) with hl | ⟨k, z, hl⟩
  · -- an empty list
    rw [hl] at hfirst
    refine ⟨s.listInsertHead h a, fun n _ => ?_, ?_⟩
    · unfold Heap.listInsertTail
      rw [hfirst]
      rfl
    · have hhead := hr.listInsertHead ha h
      rw [hl] at hhead ⊢
      exact hhead
  · rw [List.concat_eq_append] at hl
    have hne : ∀ g, ∀ x ∈ l g, x ≠ a := fun g x hx hxa => ha g (hxa ▸ hx)
    have hz : z ∈ l h := by
      rw [hl]
      exact List.mem_append_right k List.mem_cons_self
    have hza : z ≠ a := hne h z hz
    have hnodup := hr.apart.nodup h
    obtain ⟨x, k', hcons⟩ := List.exists_cons_of_ne_nil (List.ne_nil_of_mem hz)
    rw [hcons, List.head?_cons] at hfirst
    rw [hcons] at hlinked hends
    have hlast : (x :: k').getLast? = some z := by
      rw [← hcons, hl]
      exact List.getLast?_concat
    have hloop : ∀ n, (x :: k').length ≤ n → Heap.tailLoop a n (s.setNext a (some x)) = .ok (s.setNext a (some z)) := fun n hn =>
      tailLoop_eq hlinked.2.2 hends hlast (fun y hy => hne h y (hcons ▸ hy)) hn
    let s' := (((s.setNext a (some z)).setNext z (some a)).setPrev a (some (.le_next z))).setNext a none
    have hload : ∀ q, s'.load q = if q = .le_next a then none else if q = .le_next z then some a else s.load q := fun q => by
      by_cases hqa : q = .le_next a
      · simp [s', hqa]
      · simp [s', hqa]
    have hprev : ∀ y, s'.le_prev y = if y = a then some (.le_next z) else s.le_prev y := fun y => by
      simp [s']
    refine ⟨s', fun n hn => ?_, update_represents ?_ fun g hg => ?_⟩
    · rw [hcons] at hn
      unfold Heap.listInsertTail
      rw [hfirst]
      dsimp only
      rw [hloop n hn, Loop.ok_bind]
      simp [s']
      rfl
    · -- the elements before stay linked, and the last now points to the new one
      have hold : Linked s' (.lh_first h) (k ++ [z]) := by
        have hrow := hr.linked h
        rw [hl] at hrow hnodup
        refine hrow.congr (fun _ => ?_) (fun y hy => ?_) fun y hy => ?_
        · rw [hload, if_neg (first_ne_next h a), if_neg (first_ne_next h z)]
        · rw [List.dropLast_concat] at hy
          have hyz : y ≠ z := fun heq => (List.nodup_append.mp hnodup).2.2 y hy z List.mem_cons_self heq
          have hya := hne h y (by rw [hl]; exact List.mem_append_left _ hy)
          rw [hload, if_neg fun heq => hya (Link.le_next.inj heq), if_neg fun heq => hyz (Link.le_next.inj heq)]
        · rw [hprev, if_neg (hne h y (by rw [hl]; exact hy))]
      have hseam : endLink (.lh_first h) (k ++ [z]) = .le_next z := endLink_append ..
      rw [hl]
      refine ⟨linked_append.mpr ⟨hold, ?_⟩, ?_⟩
      · rw [hseam]
        refine ⟨?_, ?_, trivial⟩
        · rw [hload, if_neg fun heq => hza (Link.le_next.inj heq), if_pos rfl]
        · rw [hprev, if_pos rfl]
      · rw [endLink_append]
        show s'.load (.le_next a) = none
        rw [hload, if_pos rfl]
    · refine hr.keep ?_ (fun y hy => ?_) fun y hy => ?_
      · rw [hload, if_neg (first_ne_next g a), if_neg (first_ne_next g z)]
      · have hyz : y ≠ z := fun heq => hg (hr.apart.home g h z (heq ▸ hy) hz)
        rw [hload, if_neg fun heq => hne g y hy (Link.le_next.inj heq), if_neg fun heq => hyz (Link.le_next.inj heq)]
      · rw [hprev, if_neg (hne g y hy)]

/-- **`LIST_REMOVE`** takes the element out of the list it is in, whichever it is. -/
theorem Represents.listRemove (hr : Represents s l) (ha : a ∈ l h) :
    ∃ s', s.listRemove a = .ok s' ∧ Represents s' (fun g => (l g).erase a) := by
  obtain ⟨k₁, k₂, hl⟩ := List.append_of_mem ha
  have hnodup := hr.apart.nodup h
  have hlinked := hr.linked h
  have hends := hr.ends h
  rw [hl] at hnodup hlinked hends
  rw [endLink_append] at hends
  obtain ⟨hbefore, hat, hprev, hafter⟩ := linked_append.mp hlinked
  obtain ⟨p, hp⟩ : ∃ p, endLink (.lh_first h) k₁ = p := ⟨_, rfl⟩
  rw [hp] at hat hprev hends
  have hv : s.le_next a = k₂.head? := hafter.head hends
  obtain ⟨hnd₁, hnd₂, hsep⟩ := List.nodup_append.mp hnodup
  have ha₁ : ∀ x ∈ k₁, x ≠ a := fun x hx => hsep x hx a List.mem_cons_self
  have ha₂ : ∀ x ∈ k₂, x ≠ a := fun x hx heq => (List.nodup_cons.mp hnd₂).1 (heq ▸ hx)
  have hpa : p ≠ .le_next a := fun heq => by
    rcases endLink_cases (.lh_first h) k₁ with ⟨-, hcase⟩ | ⟨x, hx, hcase⟩
    · exact first_ne_next h a (hcase.symm.trans (hp.trans heq))
    · exact ha₁ x hx (Link.le_next.inj (hcase.symm.trans (hp.trans heq)))
  let s' := (((s.backLink (s.le_next a) (some p)).store p (s.le_next a)).setNext a none).setPrev a none
  have hload : ∀ q, s'.load q = if q = .le_next a then none else if q = p then s.le_next a else s.load q := fun q => by
    simp [s']
  have hback : ∀ x, s'.le_prev x = if x = a then none else if s.le_next a = some x then some p else s.le_prev x := fun x => by
    simp [s']
  have hrun : s.listRemove a = .ok s' := by
    unfold Heap.listRemove
    rw [hprev]
    dsimp only
    rw [Heap.backLink_le_next]
  -- what does not touch the two pointers and the element behind stays
  have hnext : ∀ x, x ≠ a → p ≠ .le_next x → s'.load (.le_next x) = s.load (.le_next x) := fun x hxa hxp => by
    rw [hload, if_neg fun heq => hxa (Link.le_next.inj heq), if_neg fun heq => hxp heq.symm]
  have hkept : ∀ x, x ≠ a → x ∉ k₂.head? → s'.le_prev x = s.le_prev x := fun x hxa hx => by
    rw [hback, if_neg hxa, if_neg fun heq => hx (Option.mem_def.mpr (hv.symm.trans heq))]
  have hprow : ∀ x, p = .le_next x → x ∈ k₁ := fun x heq => by
    rcases endLink_cases (.lh_first h) k₁ with ⟨-, hcase⟩ | ⟨y, hy, hcase⟩
    · exact absurd (hcase.symm.trans (hp.trans heq)) (first_ne_next h x)
    · exact Link.le_next.inj (hcase.symm.trans (hp.trans heq)) ▸ hy
  refine ⟨s', hrun, ?_⟩
  have herase : (fun g => (l g).erase a) = update l h (k₁ ++ k₂) := funext fun g => by
    by_cases hg : g = h
    · subst hg
      rw [update_self, hl, List.erase_append_right _ fun hmem => ha₁ a hmem rfl, List.erase_cons_head]
    · rw [update_of_ne hg]
      exact List.erase_of_not_mem fun hmem => hg (hr.apart.home g h a hmem ha)
  rw [herase]
  refine update_represents ?_ fun g hg => ?_
  · have hfront : Linked s' (.lh_first h) k₁ := by
      refine hbefore.congr (fun hne => ?_) (fun x hx => ?_) fun x hx => ?_
      · have hph : Link.lh_first h ≠ p := fun heq => by
          rcases endLink_cases (.lh_first h) k₁ with ⟨hnil, -⟩ | ⟨x, -, hcase⟩
          · exact hne hnil
          · exact first_ne_next h x (heq.trans (hp.symm.trans hcase))
        rw [hload, if_neg (first_ne_next h a), if_neg hph]
      · refine hnext x (ha₁ x (List.dropLast_subset _ hx)) fun heq => ?_
        -- the last of the part is the one before `a`
        rcases List.eq_nil_or_concat k₁ with hnil | ⟨k, c, hk⟩
        · rw [hnil] at hx
          cases hx
        · rw [List.concat_eq_append] at hk
          rw [hk, endLink_append] at hp
          obtain rfl : c = x := Link.le_next.inj (hp.trans heq)
          rw [hk, List.dropLast_concat] at hx
          rw [hk] at hnd₁
          exact (List.nodup_append.mp hnd₁).2.2 c hx c List.mem_cons_self rfl
      · refine hkept x (ha₁ x hx) fun hmem => ?_
        exact hsep x hx x (List.mem_cons_of_mem a (List.mem_of_mem_head? hmem)) rfl
    have hrest : ∀ x ∈ k₂, s'.load (.le_next x) = s.load (.le_next x) := fun x hx =>
      hnext x (ha₂ x hx) fun heq => hsep x (hprow x heq) x (List.mem_cons_of_mem a hx) rfl
    have hseam : s'.load p = k₂.head? := by rw [hload, if_neg hpa, if_pos rfl, hv]
    rw [endLink_append, linked_append, hp]
    cases k₂ with
    | nil => exact ⟨⟨hfront, trivial⟩, hseam⟩
    | cons b k =>
      have hb : s'.le_prev b = some p := by rw [hback, if_neg (ha₂ b List.mem_cons_self), if_pos (hv.trans List.head?_cons)]
      have hnb := (List.nodup_cons.mp (List.nodup_cons.mp hnd₂).2).1
      have hrow : Linked s' (.le_next b) k := by
        refine hafter.2.2.congr (fun _ => hrest b List.mem_cons_self)
          (fun x hx => hrest x (List.mem_cons_of_mem b (List.dropLast_subset _ hx))) fun x hx => ?_
        refine hkept x (ha₂ x (List.mem_cons_of_mem b hx)) fun hmem => ?_
        exact hnb (Option.some.inj hmem ▸ hx)
      refine ⟨⟨hfront, hseam, hb, hrow⟩, ?_⟩
      show s'.load (endLink (.le_next b) k) = none
      have hlast : s.load (endLink (.le_next b) k) = none := hends
      rw [← hlast]
      rcases endLink_cases (.le_next b) k with ⟨-, heq⟩ | ⟨x, hx, heq⟩
      · rw [heq]
        exact hrest b List.mem_cons_self
      · rw [heq]
        exact hrest x (List.mem_cons_of_mem b hx)
  · have hout : ∀ x ∈ l g, ∀ y ∈ l h, x ≠ y := fun x hx y hy heq => hg (hr.apart.home g h x hx (heq ▸ hy))
    have hmem₁ : ∀ x ∈ k₁, x ∈ l h := fun x hx => by
      rw [hl]
      exact List.mem_append_left _ hx
    have hmem₂ : ∀ x ∈ k₂, x ∈ l h := fun x hx => by
      rw [hl]
      exact List.mem_append_right _ (List.mem_cons_of_mem a hx)
    refine hr.keep ?_ (fun x hx => hnext x (hout x hx a ha) fun heq => hout x hx x (hmem₁ x (hprow x heq)) rfl)
      fun x hx => hkept x (hout x hx a ha) fun hmem => hout x hx x (hmem₂ x (List.mem_of_mem_head? hmem)) rfl
    have hph : Link.lh_first g ≠ p := fun heq => by
      rcases endLink_cases (.lh_first h) k₁ with ⟨-, hcase⟩ | ⟨x, -, hcase⟩
      · exact hg (Link.lh_first.inj (heq.trans (hp.symm.trans hcase)))
      · exact first_ne_next g x (heq.trans (hp.symm.trans hcase))
    rw [hload, if_neg (first_ne_next g a), if_neg hph]

end Macros

/-! ## Runs -/

/-- A use of one of the macros. -/
inductive Op (H α : Type*) where
  | insertHead (head : H) (elm : α)
  | insertTail (head : H) (elm : α)
  | remove (elm : α)

section Runs

variable [DecidableEq H] [DecidableEq α]

/-- The macro, with at most `n` turns of its loop. -/
def Op.run (n : Nat) (s : Heap H α) : Op H α → Except Halt (Heap H α)
  | .insertHead head elm => .ok (s.listInsertHead head elm)
  | .insertTail head elm => s.listInsertTail n head elm
  | .remove elm => s.listRemove elm

/-- What it is to do to the lists: an element more in front or at the end, or one less. -/
def Op.apply (l : H → List α) : Op H α → H → List α
  | .insertHead head elm => update l head (elm :: l head)
  | .insertTail head elm => update l head (l head ++ [elm])
  | .remove elm => fun h => (l h).erase elm

/-- Elements are inserted that no list has, and removed when one has them. -/
def Op.Enabled (l : H → List α) : Op H α → Prop
  | .insertHead _ elm => ∀ h, elm ∉ l h
  | .insertTail _ elm => ∀ h, elm ∉ l h
  | .remove elm => ∃ h, elm ∈ l h

/-- Every use is enabled when its turn comes. -/
def Legal : (H → List α) → List (Op H α) → Prop
  | _, [] => True
  | l, op :: ops => op.Enabled l ∧ Legal (op.apply l) ops

def runAll (n : Nat) (ops : List (Op H α)) (s : Heap H α) : Except Halt (Heap H α) := ops.foldlM (Op.run n) s

def applyAll (ops : List (Op H α)) (l : H → List α) : H → List α := ops.foldl Op.apply l

variable {s : Heap H α} {l : H → List α}

/-- One use. -/
theorem Represents.step (hr : Represents s l) {op : Op H α} (hen : op.Enabled l) :
    ∃ s' N, (∀ n, N ≤ n → op.run n s = .ok s') ∧ Represents s' (op.apply l) := by
  cases op with
  | insertHead head elm => exact ⟨_, 0, fun _ _ => rfl, hr.listInsertHead hen head⟩
  | insertTail head elm =>
    obtain ⟨s', hrun, hrep⟩ := hr.listInsertTail hen head
    exact ⟨s', (l head).length, hrun, hrep⟩
  | remove elm =>
    obtain ⟨h, ha⟩ := hen
    obtain ⟨s', hrun, hrep⟩ := hr.listRemove ha
    exact ⟨s', 0, fun _ _ => hrun, hrep⟩

/-- **The macros are the operations on sequences**: from a heap that holds some lists, any uses of them end and leave a heap
that holds the lists with the elements put in front, at the end and taken out, no element in two of them. -/
theorem runAll_represents (hr : Represents s l) (ops : List (Op H α)) (hlegal : Legal l ops) :
    ∃ s' N, (∀ n, N ≤ n → runAll n ops s = .ok s') ∧ Represents s' (applyAll ops l) ∧ Lists.Apart (applyAll ops l) := by
  induction ops generalizing s l with
  | nil => exact ⟨s, 0, fun _ _ => rfl, hr, hr.apart⟩
  | cons op ops ih =>
    obtain ⟨hen, hrest⟩ := hlegal
    obtain ⟨s₁, N₁, hrun₁, hr₁⟩ := hr.step hen
    obtain ⟨s', N', hrun', hr', hapart⟩ := ih hr₁ hrest
    refine ⟨s', max N₁ N', fun n hn => ?_, hr', hapart⟩
    unfold runAll
    rw [List.foldlM_cons, hrun₁ n (Nat.le_trans (Nat.le_max_left _ _) hn), Loop.ok_bind]
    exact hrun' n (Nat.le_trans (Nat.le_max_right _ _) hn)

end Runs

/-- No element is in a list. -/
def emptyHeap (H α : Type*) : Heap H α := ⟨fun _ => none, fun _ => none, fun _ => none⟩

theorem represents_empty (H α : Type*) : Represents (emptyHeap H α) fun _ => [] := ⟨fun _ => trivial, fun _ => rfl⟩

/-- Four insertions into two lists, and a removal. -/
theorem runAll_represents_two : ∃ s' N, (∀ n, N ≤ n →
    runAll n [.insertHead false 1, .insertTail false 2, .insertTail true 3, .insertHead false 4, .remove 1] (emptyHeap Bool Nat) = .ok s') ∧
      Represents s' (applyAll [.insertHead false 1, .insertTail false 2, .insertTail true 3, .insertHead false 4, .remove 1] fun _ => []) ∧
      Lists.Apart (applyAll [.insertHead false 1, .insertTail false 2, .insertTail true 3, .insertHead false 4, .remove 1]
        fun _ : Bool => ([] : List Nat)) := by
  refine runAll_represents (represents_empty Bool Nat) _ ⟨?_, ?_, ?_, ?_, ?_, trivial⟩
  · intro h
    cases h <;> decide
  · intro h
    cases h <;> decide
  · intro h
    cases h <;> decide
  · intro h
    cases h <;> decide
  · exact ⟨false, by decide⟩

end Exaros.Queue
