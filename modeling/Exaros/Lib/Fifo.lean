import Mathlib.Data.List.Range
import Mathlib.Data.UInt

/-!
# Ring buffers with wrapping counters

A queue of at most `size` elements in an array, with 64-bit counts of the elements ever taken out
(`head`) and put in (`tail`). The counts wrap at `2^64`; as `size` divides `2^64`, the cell of a count is
its remainder by `size` on both sides of the wrap. `contents` is the queue as a list.
-/

namespace Fifo

variable {α : Type*} {size : Nat} {cells cells' : Nat → α} {head tail : UInt64} {k : Nat}

/-- The number of elements in the queue. -/
def count (head tail : UInt64) : Nat := (tail - head).toNat

/-- The elements in the queue, the oldest first. -/
def contents (size : Nat) (cells : Nat → α) (head tail : UInt64) : List α :=
  (List.range (count head tail)).map fun j => cells ((head.toNat + j) % size)

/-- The `n` elements from a count on. -/
def window (size : Nat) (cells : Nat → α) (start n : Nat) : List α := (List.range n).map fun j => cells ((start + j) % size)

@[simp] theorem length_contents : (contents size cells head tail).length = count head tail := by
  simp [contents]

theorem count_eq (head tail : UInt64) : count head tail = (2 ^ 64 - head.toNat + tail.toNat) % 2 ^ 64 :=
  UInt64.toNat_sub ..

theorem count_eq_zero : count head tail = 0 ↔ head = tail := by
  have hh := head.toNat_lt
  have ht := tail.toNat_lt
  rw [count_eq, ← UInt64.toNat_inj]
  omega

theorem count_eq_size (hsize : size < 2 ^ 64) : count head tail = size ↔ tail = head + UInt64.ofNat size := by
  have hh := head.toNat_lt
  have ht := tail.toNat_lt
  rw [count_eq, ← UInt64.toNat_inj, UInt64.toNat_add,
    show (UInt64.ofNat size).toNat = size from UInt64.toNat_ofNat_of_lt hsize]
  omega

theorem count_push (h : count head tail < size) (hsize : size < 2 ^ 64) :
    count head (tail + 1) = count head tail + 1 := by
  rw [count_eq] at h ⊢
  rw [count_eq, UInt64.toNat_add, UInt64.toNat_one]
  omega

theorem count_pop (h : count head tail ≠ 0) : count head tail = count (head + 1) tail + 1 := by
  have hh := head.toNat_lt
  rw [count_eq] at h ⊢
  rw [count_eq, UInt64.toNat_add, UInt64.toNat_one]
  omega

/-- The cell of a count `j` steps ahead of `head`. -/
theorem cell_add (hdvd : size ∣ 2 ^ 64) {x : UInt64} {j : Nat} (h : x.toNat = (head.toNat + j) % 2 ^ 64) :
    x.toNat % size = (head.toNat + j) % size := by
  rw [h, Nat.mod_mod_of_dvd _ hdvd]

theorem cell_tail (head tail : UInt64) (hdvd : size ∣ 2 ^ 64) : tail.toNat % size = (head.toNat + count head tail) % size := by
  refine cell_add hdvd ?_
  have hh := head.toNat_lt
  have ht := tail.toNat_lt
  rw [count_eq]
  omega

theorem contents_eq_nil (h : count head tail = 0) : contents size cells head tail = [] := by
  simp [contents, h]

/-- Cells fewer than `size` steps apart are different. -/
theorem cell_ne {k j : Nat} (hjk : j < k) (hk : k < size) (a : Nat) : (a + j) % size ≠ (a + k) % size := by
  intro h
  have hmod : a + j ≡ a + k [MOD size] := h
  have := (Nat.ModEq.add_left_cancel' a hmod).eq_of_lt_of_lt (hjk.trans hk) hk
  omega

/-- Putting an element in. -/
theorem contents_push (hdvd : size ∣ 2 ^ 64) (hsize : size < 2 ^ 64) (h : count head tail < size) (x : α) :
    contents size (Function.update cells (tail.toNat % size) x) head (tail + 1) = contents size cells head tail ++ [x] := by
  rw [contents, count_push h hsize, List.range_succ, List.map_append, cell_tail head tail hdvd]
  refine congrArg₂ _ (List.map_congr_left fun j hj => ?_) (by simp)
  exact Function.update_of_ne (cell_ne (List.mem_range.mp hj) h _) _ _

/-- Taking the oldest element out. -/
theorem contents_pop (hdvd : size ∣ 2 ^ 64) (h : count head tail ≠ 0) :
    contents size cells head tail = cells (head.toNat % size) :: contents size cells (head + 1) tail := by
  rw [contents, count_pop h, List.range_succ_eq_map, List.map_cons, List.map_map, Nat.add_zero]
  refine congrArg _ (List.map_congr_left fun j _ => ?_)
  show cells ((head.toNat + (j + 1)) % size) = cells (((head + 1).toNat + j) % size)
  rw [UInt64.toNat_add, UInt64.toNat_one, Nat.add_comm j 1, ← Nat.add_assoc, Nat.add_mod,
    Nat.add_mod ((head.toNat + 1) % 2 ^ 64), Nat.mod_mod_of_dvd _ hdvd]

/-! ## Several elements at once -/

theorem contents_eq_window (size : Nat) (cells : Nat → α) (head tail : UInt64) :
    contents size cells head tail = window size cells head.toNat (count head tail) := rfl

@[simp] theorem length_window (start n : Nat) : (window size cells start n).length = n := by simp [window]

theorem window_split (size : Nat) (cells : Nat → α) (start k n : Nat) :
    window size cells start (k + n) = window size cells start k ++ window size cells (start + k) n := by
  unfold window
  rw [List.range_add, List.map_append, List.map_map]
  refine congrArg₂ _ rfl (List.map_congr_left fun j _ => ?_)
  show cells ((start + (k + j)) % size) = cells ((start + k + j) % size)
  rw [Nat.add_assoc]

theorem window_congr {start n : Nat} (h : ∀ j < n, cells' ((start + j) % size) = cells ((start + j) % size)) :
    window size cells' start n = window size cells start n :=
  List.map_congr_left fun j hj => h j (List.mem_range.mp hj)

/-- Only the cell of the first count matters. -/
theorem window_start {start start' : Nat} (h : start % size = start' % size) (n : Nat) :
    window size cells start n = window size cells start' n := by
  refine List.map_congr_left fun j _ => congrArg cells ?_
  rw [Nat.add_mod, h, ← Nat.add_mod]

/-- Putting `k` elements behind `n` others. -/
theorem window_append (cells : Nat → α) {start n k : Nat} (h : n + k ≤ size)
    (hold : ∀ i, (∀ j < k, i ≠ (start + n + j) % size) → cells' i = cells i) :
    window size cells' start (n + k) = window size cells start n ++ window size cells' (start + n) k := by
  rw [window_split]
  refine congrArg₂ _ (window_congr fun j hj => hold _ fun i hi => ?_) rfl
  rw [Nat.add_assoc]
  exact cell_ne (Nat.lt_add_right i hj) (Nat.lt_of_lt_of_le (Nat.add_lt_add_left hi n) h) start

theorem toNat_ofNat (h : k < 2 ^ 64) : (UInt64.ofNat k).toNat = k := UInt64.toNat_ofNat_of_lt' h

theorem count_add (h : count head tail + k ≤ size) (hsize : size < 2 ^ 64) :
    count head (tail + UInt64.ofNat k) = count head tail + k := by
  have hk : (UInt64.ofNat k).toNat = k := toNat_ofNat (by omega)
  rw [count_eq] at h ⊢
  rw [count_eq, UInt64.toNat_add, hk]
  omega

theorem count_sub (h : k ≤ count head tail) : count (head + UInt64.ofNat k) tail = count head tail - k := by
  have hh := head.toNat_lt
  rw [count_eq] at h ⊢
  have hk : (UInt64.ofNat k).toNat = k := toNat_ofNat (by omega)
  rw [count_eq, UInt64.toNat_add, hk]
  omega

/-- Putting `k` elements in. -/
theorem contents_append (cells : Nat → α) (hdvd : size ∣ 2 ^ 64) (hsize : size < 2 ^ 64)
    (h : count head tail + k ≤ size) (hold : ∀ i, (∀ j < k, i ≠ (tail.toNat + j) % size) → cells' i = cells i) :
    contents size cells' head (tail + UInt64.ofNat k) = contents size cells head tail ++ window size cells' tail.toNat k := by
  have htail := cell_tail head tail hdvd
  rw [contents_eq_window, contents_eq_window, count_add h hsize, window_append cells h fun i hi => hold i fun j hj => ?_]
  · rw [window_start htail]
  · rw [Nat.add_mod, htail, ← Nat.add_mod]
    exact hi j hj

/-- Taking the `k` oldest elements out. -/
theorem contents_split (hdvd : size ∣ 2 ^ 64) (h : k ≤ count head tail) :
    contents size cells head tail = window size cells head.toNat k ++ contents size cells (head + UInt64.ofNat k) tail := by
  have hlt : k < 2 ^ 64 := by
    have := (tail - head).toNat_lt
    unfold count at h
    omega
  rw [contents_eq_window, contents_eq_window, count_sub h]
  conv_lhs => rw [← Nat.add_sub_cancel' h, window_split]
  refine congrArg₂ _ rfl (window_start ?_ _)
  rw [UInt64.toNat_add, toNat_ofNat hlt, Nat.mod_mod_of_dvd _ hdvd]

/-! ## Counts of another width -/

section Queue

variable {modulus start stop : Nat} {l : List α} {x : α}

/-- The elements `l` are in the cells from the count `start` to the count `stop`, both kept modulo
`modulus`. -/
structure Queue (modulus size : Nat) (cells : Nat → α) (start stop : Nat) (l : List α) : Prop where
  start_lt : start < modulus
  stop : stop = (start + l.length) % modulus
  cells : window size cells start l.length = l

theorem Queue.nil (h : start < modulus) : Queue modulus size cells start start [] where
  start_lt := h
  stop := (Nat.mod_eq_of_lt h).symm
  cells := rfl

theorem Queue.stop_mod (h : Queue modulus size cells start stop l) (hdvd : size ∣ modulus) :
    stop % size = (start + l.length) % size := by
  rw [h.stop, Nat.mod_mod_of_dvd _ hdvd]

/-- The cell at the stop may be written before the count moves. -/
theorem Queue.write (h : Queue modulus size cells start stop l) (hdvd : size ∣ modulus) (hl : l.length < size) (x : α) :
    Queue modulus size (Function.update cells (stop % size) x) start stop l where
  start_lt := h.start_lt
  stop := h.stop
  cells := by
    refine Eq.trans (window_congr fun j hj => ?_) h.cells
    rw [h.stop_mod hdvd]
    exact Function.update_of_ne (cell_ne hj hl start) ..

/-- Moving the stop over a cell. -/
theorem Queue.extend (h : Queue modulus size cells start stop l) (hdvd : size ∣ modulus) (hx : cells (stop % size) = x) :
    Queue modulus size cells start ((stop + 1) % modulus) (l ++ [x]) where
  start_lt := h.start_lt
  stop := by
    rw [h.stop, Nat.mod_add_mod, List.length_append, List.length_singleton, Nat.add_assoc]
  cells := by
    rw [List.length_append, List.length_singleton, window_split, h.cells]
    refine congrArg _ ?_
    rw [h.stop_mod hdvd] at hx
    simp [window, hx]

theorem Queue.pop (h : Queue modulus size cells start stop (x :: l)) (hdvd : size ∣ modulus) :
    cells (start % size) = x ∧ Queue modulus size cells ((start + 1) % modulus) stop l := by
  have hpos : 0 < modulus := Nat.lt_of_le_of_lt (Nat.zero_le _) h.start_lt
  have hcells := h.cells
  rw [List.length_cons, Nat.add_comm, window_split] at hcells
  have hfirst : window size cells start 1 = [cells (start % size)] := by simp [window]
  rw [hfirst, List.singleton_append, List.cons.injEq] at hcells
  refine ⟨hcells.1, Nat.mod_lt _ hpos, ?_, ?_⟩
  · rw [h.stop, Nat.mod_add_mod, List.length_cons, Nat.add_assoc, Nat.add_comm 1]
  · rw [window_start (Nat.mod_mod_of_dvd _ hdvd)]
    exact hcells.2

theorem Queue.eq_nil_iff (h : Queue modulus size cells start stop l) (hl : l.length < modulus) :
    start = stop ↔ l = [] := by
  have hlt := h.start_lt
  rw [h.stop, ← List.length_eq_zero_iff]
  constructor
  · intro e
    by_cases hwrap : start + l.length < modulus
    · rw [Nat.mod_eq_of_lt hwrap] at e
      omega
    · rw [Nat.mod_eq_sub_mod (Nat.le_of_not_lt hwrap), Nat.mod_eq_of_lt (by omega)] at e
      omega
  · intro e
    rw [e, Nat.add_zero, Nat.mod_eq_of_lt hlt]

/-- Whether a queue of less than `size` elements is empty shows in the cells of its counts. -/
theorem Queue.cell_eq_iff (h : Queue modulus size cells start stop l) (hdvd : size ∣ modulus) (hl : l.length < size) :
    start % size = stop % size ↔ l = [] := by
  rw [h.stop_mod hdvd, ← List.length_eq_zero_iff]
  constructor
  · intro e
    by_contra hne
    exact cell_ne (Nat.pos_of_ne_zero hne) hl start (by simpa using e)
  · intro e
    rw [e, Nat.add_zero]

end Queue

end Fifo
