import Mathlib.Data.List.Chain
import Mathlib.Data.List.Nodup

/-!
# Rings of links

Circular doubly linked lists with a sentinel, as two link functions. `Ring s h l` says that `l` is
the list of nodes after the sentinel `h`. The edits are the two an intrusive list has: taking a node
out (`Ring.unlink`) and putting one in behind the sentinel (`Ring.pushFront`); a search along `next`
is a search of `l` and one along `prev` a search of its reverse (`Ring.scan_next`, `Ring.scan_prev`).
-/

namespace Linked

variable {P : Type*} {l : List P} {h : P}

structure Links (P : Type*) where
  next : P → P
  prev : P → P

/-- `b` stands right after `a`, seen from both sides. -/
def Links.Adj (s : Links P) (a b : P) : Prop := s.next a = b ∧ s.prev b = a

/-- The ring of the sentinel `h` with members `l`, in `next` order. -/
structure Ring (s : Links P) (h : P) (l : List P) : Prop where
  chain : List.IsChain s.Adj (h :: (l ++ [h]))
  nodup : (h :: l).Nodup

/-- A chain reads `next` of all its nodes but the last and `prev` of all but the first. -/
theorem chain_congr {s s' : Links P} {a : P} (hc : List.IsChain s.Adj (a :: l))
    (hn : ∀ x ∈ (a :: l).dropLast, s'.next x = s.next x) (hp : ∀ x ∈ l, s'.prev x = s.prev x) :
    List.IsChain s'.Adj (a :: l) := by
  induction l generalizing a with
  | nil => exact List.isChain_singleton _
  | cons b l ih =>
    rw [List.isChain_cons_cons] at hc ⊢
    refine ⟨⟨?_, ?_⟩, ih hc.2 ?_ ?_⟩
    · rw [hn a (by simp)]
      exact hc.1.1
    · rw [hp b (by simp)]
      exact hc.1.2
    · intro x hx
      refine hn x ?_
      rw [List.dropLast_cons_of_ne_nil (by simp)]
      exact List.mem_cons_of_mem _ hx
    · intro x hx
      exact hp x (List.mem_cons_of_mem _ hx)

theorem Ring.congr {s s' : Links P} (hr : Ring s h l)
    (hn : ∀ x ∈ h :: l, s'.next x = s.next x) (hp : ∀ x ∈ h :: l, s'.prev x = s.prev x) : Ring s' h l := by
  refine ⟨chain_congr hr.chain ?_ ?_, hr.nodup⟩
  · intro x hx
    rw [← List.cons_append, List.dropLast_concat] at hx
    exact hn x hx
  · intro x hx
    refine hp x ?_
    rw [List.mem_append, List.mem_singleton] at hx
    rcases hx with hx | hx
    · exact List.mem_cons_of_mem _ hx
    · rw [hx]
      exact List.mem_cons_self

variable {s : Links P}

/-- The links of a ring stay in it. -/
theorem Ring.next_mem {h x : P} (hr : Ring s h l) (hx : x ∈ h :: l) :
    s.next x ∈ h :: l := by
  obtain ⟨A, B, hAB⟩ := List.append_of_mem hx
  obtain ⟨c, C, hC⟩ : ∃ c C, B ++ [h] = c :: C := List.exists_cons_of_ne_nil (by simp)
  have hchain := hr.chain
  rw [← List.cons_append, hAB, List.append_assoc, List.cons_append, hC, List.isChain_split,
    List.isChain_cons_cons] at hchain
  have hc : c ∈ B ++ [h] := by simp [hC]
  rw [hchain.2.1.1]
  rcases List.mem_append.mp hc with hB | hh
  · rw [hAB]
    simp [hB]
  · rw [List.mem_singleton.mp hh]
    exact List.mem_cons_self

/-- No member is its own neighbour. -/
theorem Ring.next_ne {h x : P} (hr : Ring s h l) (hx : x ∈ l) : s.next x ≠ x := by
  obtain ⟨A, B, rfl⟩ := List.append_of_mem hx
  obtain ⟨c, C, hC⟩ : ∃ c C, B ++ [h] = c :: C := List.exists_cons_of_ne_nil (by simp)
  have hchain := hr.chain
  rw [List.append_assoc, List.cons_append, hC, ← List.cons_append, List.isChain_split,
    List.isChain_cons_cons] at hchain
  have hc : c ∈ B ++ [h] := by simp [hC]
  have hnodup := hr.nodup
  simp only [List.nodup_cons, List.nodup_middle, List.mem_append, List.mem_cons, not_or] at hnodup
  rw [hchain.2.1.1]
  rcases List.mem_append.mp hc with hB | hh
  · exact fun e => hnodup.2.1.2 (e ▸ hB)
  · rw [List.mem_singleton.mp hh]
    exact hnodup.1.2.1

theorem Ring.prev_mem {h x : P} (hr : Ring s h l) (hx : x ∈ h :: l) :
    s.prev x ∈ h :: l := by
  have hx' : x ∈ l ++ [h] := by simpa [or_comm] using hx
  obtain ⟨A, B, hAB⟩ := List.append_of_mem hx'
  obtain ⟨C, c, hC⟩ : ∃ C c, h :: A = C ++ [c] :=
    ⟨_, _, (List.dropLast_append_getLast (List.cons_ne_nil h A)).symm⟩
  have hchain := hr.chain
  rw [hAB, ← List.cons_append, hC, List.append_assoc, List.singleton_append, List.isChain_split,
    List.isChain_cons_cons] at hchain
  have hc : c ∈ h :: A := by simp [hC]
  rw [hchain.2.1.2]
  rcases List.mem_cons.mp hc with hh | hA
  · rw [hh]
    exact List.mem_cons_self
  · have : c ∈ l ++ [h] := by simp [hAB, hA]
    simpa [or_comm] using this

/-! ## Searching -/

/-- `for (p = step(h); p != h; p = step(p)) if (test(p)) return p;`, with `none` when the loop is
not over after `fuel` nodes. -/
def scan [DecidableEq P] (step : P → P) (h : P) (test : P → Bool) : Nat → P → Option (Option P)
  | 0, _ => none
  | n + 1, p => if p = h then some none else if test p then some (some p) else scan step h test n (step p)

variable [DecidableEq P]

theorem scan_chain {step : P → P} (test : P → Bool) {a : P}
    (hc : List.IsChain (fun x y => step x = y) (a :: (l ++ [h]))) (hh : h ∉ l) {n : Nat} (hn : l.length < n) :
    scan step h test n (step a) = some (l.find? test) := by
  induction l generalizing a n with
  | nil =>
    obtain ⟨k, rfl⟩ : ∃ k, n = k + 1 := ⟨n - 1, by simp at hn; omega⟩
    have ha : step a = h := by simpa using hc
    simp [scan, ha]
  | cons b l ih =>
    obtain ⟨k, rfl⟩ : ∃ k, n = k + 1 := ⟨n - 1, by simp at hn; omega⟩
    rw [List.cons_append, List.isChain_cons_cons] at hc
    have hb : b ≠ h := fun e => hh (by simp [e])
    rw [hc.1, scan, if_neg hb, List.find?_cons]
    cases test b with
    | true => rfl
    | false => exact ih hc.2 (fun hm => hh (List.mem_cons_of_mem _ hm)) (by simpa using hn)

theorem Ring.scan_next (hr : Ring s h l) (test : P → Bool) {n : Nat}
    (hn : l.length < n) : scan s.next h test n (s.next h) = some (l.find? test) :=
  scan_chain test (hr.chain.imp fun _ _ hab => hab.1) (List.nodup_cons.mp hr.nodup).1 hn

theorem Ring.scan_prev (hr : Ring s h l) (test : P → Bool) {n : Nat}
    (hn : l.length < n) : scan s.prev h test n (s.prev h) = some (l.reverse.find? test) := by
  refine scan_chain test ?_ ?_ (by simpa using hn)
  · have hrev := List.isChain_reverse.mpr (hr.chain.imp (S := fun x y => s.prev y = x) fun _ _ hab => hab.2)
    simpa using hrev
  · simpa using (List.nodup_cons.mp hr.nodup).1

/-! ## Edits -/

/-- `p->next = q` -/
def Links.setNext (s : Links P) (p q : P) : Links P := { s with next := Function.update s.next p q }

/-- `p->prev = q` -/
def Links.setPrev (s : Links P) (p q : P) : Links P := { s with prev := Function.update s.prev p q }

/-- `b->next->prev = b->prev; b->prev->next = b->next;` -/
def Links.unlink (s : Links P) (b : P) : Links P :=
  let s := s.setPrev (s.next b) (s.prev b)
  s.setNext (s.prev b) (s.next b)

/-- `b->next = h->next; b->prev = h; h->next->prev = b; h->next = b;` -/
def Links.pushFront (s : Links P) (h b : P) : Links P :=
  let s := s.setNext b (s.next h)
  let s := s.setPrev b h
  let s := s.setPrev (s.next h) b
  s.setNext h b

omit [DecidableEq P] in
/-- The ring of a sentinel alone. -/
theorem ring_self (hn : s.next h = h) (hp : s.prev h = h) : Ring s h [] :=
  ⟨by simpa [Links.Adj] using ⟨hn, hp⟩, by simp⟩

omit [DecidableEq P] in
/-- The members and the sentinel that closes them are distinct. -/
theorem Ring.nodup_close (hr : Ring s h l) : (l ++ [h]).Nodup := by
  have hmem := List.nodup_cons.mp hr.nodup
  rw [List.nodup_append]
  refine ⟨hmem.2, by simp, fun x hx y hy => ?_⟩
  rw [List.mem_singleton.mp hy]
  exact fun e => hmem.1 (e ▸ hx)

/-- A cell taken out of a ring. -/
theorem Ring.unlink {h b : P} {l₁ l₂ : List P} (hr : Ring s h (l₁ ++ b :: l₂)) :
    Ring (s.unlink b) h (l₁ ++ l₂) := by
  -- `a` is the node before `b` and `c` the one after it
  obtain ⟨A, a, hA⟩ : ∃ A a, h :: l₁ = A ++ [a] :=
    ⟨_, _, (List.dropLast_append_getLast (List.cons_ne_nil h l₁)).symm⟩
  obtain ⟨c, C, hC⟩ : ∃ c C, l₂ ++ [h] = c :: C := List.exists_cons_of_ne_nil (by simp)
  have hall : ∀ x, h :: (l₁ ++ x ++ (l₂ ++ [h])) = A ++ a :: (x ++ c :: C) := fun x => by
    rw [← hC, List.append_assoc, ← List.cons_append, hA]
    simp
  have hchain := hr.chain
  rw [show h :: (l₁ ++ b :: l₂ ++ [h]) = h :: (l₁ ++ [b] ++ (l₂ ++ [h])) by simp, hall,
    List.isChain_split, List.singleton_append, List.isChain_cons_cons, List.isChain_cons_cons] at hchain
  obtain ⟨hAa, ⟨hab, hbc, hcC⟩⟩ := hchain
  have hback : (l₁ ++ b :: c :: C).Nodup := by
    have := hr.nodup_close
    rw [List.append_assoc, List.cons_append, hC] at this
    exact this
  have hfront : (A ++ a :: b :: l₂).Nodup := by
    have := hr.nodup
    rw [← List.cons_append, hA] at this
    simpa using this
  have hbc' : b ≠ c := by
    have := (List.nodup_append.mp hback).2.1
    simp only [List.nodup_cons, List.mem_cons, not_or] at this
    exact this.1.1
  have hnext : (s.unlink b).next = Function.update s.next a c := by
    simp [Links.unlink, Links.setNext, Links.setPrev, hab.2, hbc.1, hbc']
  have hprev : (s.unlink b).prev = Function.update s.prev c a := by
    simp [Links.unlink, Links.setNext, Links.setPrev, hab.2, hbc.1]
  refine ⟨?_, hr.nodup.sublist (by simp)⟩
  rw [show h :: (l₁ ++ l₂ ++ [h]) = h :: (l₁ ++ [] ++ (l₂ ++ [h])) by simp, hall, List.isChain_split,
    List.nil_append, List.isChain_cons_cons]
  refine ⟨?_, ⟨by simp [hnext], by simp [hprev]⟩, chain_congr hcC ?_ ?_⟩
  · rw [← hA] at hAa ⊢
    refine chain_congr hAa ?_ ?_
    · intro x hx
      rw [hA, List.dropLast_concat] at hx
      have hxa : x ≠ a := fun e => (List.nodup_append.mp hfront).2.2 x hx a (by simp) e
      rw [hnext, Function.update_of_ne hxa]
    · intro x hx
      have hxc : x ≠ c := (List.nodup_append.mp hback).2.2 x hx c (by simp)
      rw [hprev, Function.update_of_ne hxc]
  · intro x hx
    rw [← hC, List.dropLast_concat] at hx
    have hxa : x ≠ a := by
      have := (List.nodup_append.mp hfront).2.1
      simp only [List.nodup_cons, List.mem_cons, not_or] at this
      exact fun e => this.1.2 (e ▸ hx)
    rw [hnext, Function.update_of_ne hxa]
  · intro x hx
    have hxc : x ≠ c := by
      have := (List.nodup_append.mp hback).2.1
      simp only [List.nodup_cons, List.mem_cons] at this
      exact fun e => this.2.1 (e ▸ hx)
    rw [hprev, Function.update_of_ne hxc]

/-- A cell put behind the head of a ring. -/
theorem Ring.pushFront {h b : P} (hr : Ring s h l) (hb : b ∉ h :: l) :
    Ring (s.pushFront h b) h (b :: l) := by
  obtain ⟨c, C, hC⟩ : ∃ c C, l ++ [h] = c :: C := List.exists_cons_of_ne_nil (by simp)
  have hchain := hr.chain
  have hnodup := hr.nodup_close
  have hbC : b ∉ c :: C := by rw [← hC]; simpa [or_comm] using hb
  have hbh : b ≠ h := fun e => hb (by simp [e])
  have hdrop : (c :: C).dropLast = l := by rw [← hC, List.dropLast_concat]
  rw [hC, List.isChain_cons_cons] at hchain
  rw [hC] at hnodup
  have hbl : b ∉ l := fun e => hb (List.mem_cons_of_mem _ e)
  refine ⟨?_, by simpa [hbl, hbh.symm] using hr.nodup⟩
  have hbc : b ≠ c := fun e => hbC (by simp [e])
  rw [List.cons_append, hC, List.isChain_cons_cons, List.isChain_cons_cons]
  refine ⟨⟨?_, ?_⟩, ⟨?_, ?_⟩, chain_congr hchain.2 ?_ ?_⟩
  · simp [Links.pushFront, Links.setNext, Links.setPrev]
  · simp [Links.pushFront, Links.setNext, Links.setPrev, hbh.symm, hchain.1.1, hbc]
  · simp [Links.pushFront, Links.setNext, Links.setPrev, hbh, hchain.1.1]
  · simp [Links.pushFront, Links.setNext, Links.setPrev, hbh.symm, hchain.1.1]
  · intro x hx
    rw [hdrop] at hx
    have hxh : x ≠ h := fun e => (List.nodup_cons.mp hr.nodup).1 (e ▸ hx)
    have hxb : x ≠ b := fun e => hb (List.mem_cons_of_mem _ (e ▸ hx))
    simp [Links.pushFront, Links.setNext, Links.setPrev, hxh, hxb]
  · intro x hx
    have hxc : x ≠ c := fun e => (List.nodup_cons.mp hnodup).1 (e ▸ hx)
    have hxb : x ≠ b := fun e => hbC (List.mem_cons_of_mem _ (e ▸ hx))
    simp [Links.pushFront, Links.setNext, Links.setPrev, hbh.symm, hchain.1.1, hxc, hxb]

end Linked
