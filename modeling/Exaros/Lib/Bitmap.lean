import Mathlib.Data.Nat.Bitwise
import Mathlib.Data.BitVec
import Mathlib.Order.Interval.Finset.Nat

/-!
# Bitmaps of 64-bit words

A bitmap as an array of words, with the allocation scan: the first word that is not full, and in
it the lowest clear bit, found by halving. `findClear_eq_some` and `exists_findClear` say the scan
returns the least clear index below its bound and fails only when there is none.
-/

namespace Bitmap

abbrev Words := Nat → BitVec 64

/-- Bit `c`. -/
def get (bm : Words) (c : Nat) : Bool := (bm (c / 64)).getLsbD (c % 64)

/-- `bm[c >> 6] |= 1 << (c & 63)`. -/
def set (bm : Words) (c : Nat) : Words := fun i =>
  if i = c / 64 then bm i ||| (1#64 <<< (c % 64)) else bm i

/-- `bm[c >> 6] &= ~(1 << (c & 63))`. -/
def clear (bm : Words) (c : Nat) : Words := fun i =>
  if i = c / 64 then bm i &&& ~~~ (1#64 <<< (c % 64)) else bm i

/-! ## The lowest set bit of a word -/

/-- One halving: drop the low `w` bits if they are all zero. -/
def halve (w : Nat) (s : BitVec 64 × Nat) : BitVec 64 × Nat :=
  if s.1 &&& ((1#64 <<< w) - 1#64) = 0 then (s.1 >>> w, s.2 + w) else s

/-- The index of the lowest set bit; `none` for the zero word. -/
def lowBit64 (x : BitVec 64) : Option Nat :=
  let s := halve 1 (halve 2 (halve 4 (halve 8 (halve 16 (halve 32 (x, 0))))))
  if s.1 = 0 then none else some s.2

theorem getLsbD_mask {w : Nat} (hw : w < 64) (i : Nat) :
    ((1#64 <<< w) - 1#64).getLsbD i = decide (i < w) := by
  have hpow : 2 ^ w < 2 ^ 64 := Nat.pow_lt_pow_right (by decide) hw
  have hpos : 0 < 2 ^ w := Nat.two_pow_pos w
  have hshift : (1#64 <<< w).toNat = 2 ^ w := by
    rw [BitVec.toNat_shiftLeft, Nat.shiftLeft_eq, BitVec.toNat_ofNat, Nat.mod_eq_of_lt (by decide : 1 < 2 ^ 64),
      Nat.one_mul, Nat.mod_eq_of_lt hpow]
  have hnat : ((1#64 <<< w) - 1#64).toNat = 2 ^ w - 1 := by
    rw [BitVec.toNat_sub, hshift, BitVec.toNat_ofNat]
    omega
  rw [BitVec.getLsbD, hnat, Nat.testBit_two_pow_sub_one]

theorem and_mask_eq_zero {w : Nat} (hw : w < 64) (x : BitVec 64) :
    x &&& ((1#64 <<< w) - 1#64) = 0 ↔ ∀ j < w, x.getLsbD j = false := by
  constructor
  · intro h j hj
    have hbit : (x &&& ((1#64 <<< w) - 1#64)).getLsbD j = false := by
      rw [h]
      exact BitVec.getLsbD_zero
    rw [BitVec.getLsbD_and, getLsbD_mask hw, decide_eq_true hj, Bool.and_true] at hbit
    exact hbit
  · intro h
    apply BitVec.eq_of_getLsbD_eq
    intro j _
    rw [BitVec.getLsbD_and, getLsbD_mask hw]
    by_cases hj : j < w
    · rw [h j hj]
      simp
    · simp [hj]

/-- What the halving keeps: `r` low bits of `x` are gone and were zero, and the next `w` are not all
zero. -/
structure Window (x : BitVec 64) (w : Nat) (s : BitVec 64 × Nat) : Prop where
  bound : s.2 + w ≤ 64
  word : s.1 = x >>> s.2
  below : ∀ j < s.2, x.getLsbD j = false
  some : ∃ j < w, x.getLsbD (s.2 + j) = true

/-- One step of the search for the lowest bit halves the window. -/
theorem Window.halve {x : BitVec 64} {w : Nat} {s : BitVec 64 × Nat} (h : Window x (2 * w) s) (hw : w < 64) :
    Window x w (halve w s) := by
  have hbit : ∀ j, s.1.getLsbD j = x.getLsbD (s.2 + j) := fun j => by
    rw [h.word, BitVec.getLsbD_ushiftRight]
  have hbound := h.bound
  unfold Bitmap.halve
  split
  · rename_i hz
    rw [and_mask_eq_zero hw] at hz
    refine ⟨by simp only; omega, ?_, ?_, ?_⟩
    · simp only [h.word, BitVec.shiftRight_add]
    · intro j hj
      by_cases hlt : j < s.2
      · exact h.below j hlt
      · have := hz (j - s.2) (by simp only at hj; omega)
        rw [hbit] at this
        rwa [show s.2 + (j - s.2) = j by omega] at this
    · obtain ⟨j, hj, hx⟩ := h.some
      have hjw : w ≤ j := by
        by_contra hlt
        have := hz j (by omega)
        rw [hbit, hx] at this
        exact Bool.noConfusion this
      refine ⟨j - w, by omega, ?_⟩
      rw [show s.2 + w + (j - w) = s.2 + j by omega]
      exact hx
  · rename_i hz
    rw [and_mask_eq_zero hw] at hz
    refine ⟨by omega, h.word, h.below, ?_⟩
    by_contra hno
    refine hz fun j hj => ?_
    rw [hbit]
    cases hx : x.getLsbD (s.2 + j) with
    | false => rfl
    | true => exact absurd ⟨j, hj, hx⟩ hno

/-- The lowest set bit of a non-zero word. -/
theorem lowBit64_eq_some {x : BitVec 64} (hx : x ≠ 0) :
    ∃ b, lowBit64 x = some b ∧ b < 64 ∧ x.getLsbD b = true ∧ ∀ j < b, x.getLsbD j = false := by
  have h₀ : Window x (2 * 32) (x, 0) := by
    refine ⟨by simp, by simp, fun j hj => absurd hj (Nat.not_lt_zero j), ?_⟩
    by_contra hno
    refine hx (BitVec.eq_of_getLsbD_eq fun j hj => ?_)
    cases hb : x.getLsbD j with
    | false => exact BitVec.getLsbD_zero.symm
    | true => exact absurd ⟨j, hj, by simpa using hb⟩ hno
  have h₁ := ((((((h₀.halve (by omega)).halve (w := 16) (by omega)).halve (w := 8) (by omega)).halve
    (w := 4) (by omega)).halve (w := 2) (by omega)).halve (w := 1) (by omega))
  obtain ⟨j, hj, hbit⟩ := h₁.some
  obtain rfl : j = 0 := by omega
  rw [Nat.add_zero] at hbit
  refine ⟨_, ?_, ?_, hbit, h₁.below⟩
  · unfold lowBit64
    refine if_neg fun hz => ?_
    have hzero := BitVec.getLsbD_ushiftRight x (halve 1 (halve 2 (halve 4 (halve 8 (halve 16 (halve 32 (x, 0))))))).2 0
    rw [← h₁.word, hz, Nat.add_zero, hbit] at hzero
    exact absurd (BitVec.getLsbD_zero.symm.trans hzero) (by decide)
  · have := h₁.bound
    omega

/-! ## The scan -/

/-- Scan `n` words from word `i` on for a clear bit. -/
def findClear (bm : Words) : Nat → Nat → Option Nat
  | 0, _ => none
  | n + 1, i =>
    if ~~~ bm i ≠ 0 then (lowBit64 (~~~ bm i)).map fun b => (i <<< 6) ||| b else findClear bm n (i + 1)

theorem shiftLeft_or {i b : Nat} (hb : b < 64) : (i <<< 6) ||| b = i * 64 + b := by
  rw [← Nat.shiftLeft_add_eq_or_of_lt (by simpa using hb), Nat.shiftLeft_eq]

/-- A word is full iff all its bits are set. -/
theorem not_word_eq_zero {bm : Words} {i : Nat} :
    ~~~ bm i = 0 ↔ ∀ c, c / 64 = i → get bm c = true := by
  constructor
  · rintro h c rfl
    have hlt : c % 64 < 64 := Nat.mod_lt _ (by decide)
    have hbit : (~~~ bm (c / 64)).getLsbD (c % 64) = false := by
      rw [h]
      exact BitVec.getLsbD_zero
    rw [BitVec.getLsbD_not, decide_eq_true hlt, Bool.true_and] at hbit
    unfold get
    simpa using hbit
  · intro h
    apply BitVec.eq_of_getLsbD_eq
    intro j hj
    have := h (i * 64 + j) (by omega)
    unfold get at this
    rw [show (i * 64 + j) / 64 = i by omega, show (i * 64 + j) % 64 = j by omega] at this
    rw [BitVec.getLsbD_not, this, decide_eq_true hj]
    simp

/-- The scan returns the least clear index from its start on. -/
theorem findClear_eq_some {bm : Words} {n i c : Nat} (h : findClear bm n i = some c) :
    i * 64 ≤ c ∧ c < (i + n) * 64 ∧ get bm c = false ∧ ∀ j, i * 64 ≤ j → j < c → get bm j = true := by
  induction n generalizing i with
  | zero => cases h
  | succ n ih =>
    unfold findClear at h
    split at h
    · rename_i hne
      obtain ⟨b, hb, hlt, hset, hbelow⟩ := lowBit64_eq_some hne
      rw [hb, Option.map_some, shiftLeft_or hlt] at h
      obtain rfl := Option.some.inj h
      have hdiv : (i * 64 + b) / 64 = i := by omega
      have hmod : (i * 64 + b) % 64 = b := by omega
      refine ⟨by omega, by omega, ?_, fun j hj hjc => ?_⟩
      · unfold get
        rw [hdiv, hmod]
        rw [BitVec.getLsbD_not, decide_eq_true hlt, Bool.true_and] at hset
        simpa using hset
      · have hjb := hbelow (j - i * 64) (by omega)
        rw [BitVec.getLsbD_not, decide_eq_true (by omega : j - i * 64 < 64), Bool.true_and] at hjb
        unfold get
        rw [show j / 64 = i by omega, show j % 64 = j - i * 64 by omega]
        simpa using hjb
    · rename_i hfull
      obtain ⟨h1, h2, h3, h4⟩ := ih h
      refine ⟨by omega, by omega, h3, fun j hj hjc => ?_⟩
      by_cases hji : j / 64 = i
      · exact not_word_eq_zero.mp (not_not.mp hfull) j hji
      · exact h4 j (by omega) hjc

/-- The scan succeeds where there is a clear bit. -/
theorem exists_findClear {bm : Words} {n i c : Nat} (hi : i * 64 ≤ c) (hc : c < (i + n) * 64)
    (h : get bm c = false) : ∃ c', findClear bm n i = some c' := by
  induction n generalizing i with
  | zero => omega
  | succ n ih =>
    unfold findClear
    split
    · rename_i hne
      obtain ⟨b, hb, -⟩ := lowBit64_eq_some hne
      exact ⟨_, by rw [hb, Option.map_some]⟩
    · rename_i hfull
      have hci : c / 64 ≠ i := fun hci => by
        have := not_word_eq_zero.mp (not_not.mp hfull) c hci
        rw [h] at this
        exact Bool.noConfusion this
      exact ih (by omega) (by omega)

/-! ## Reading after an edit -/

theorem getLsbD_one_shiftLeft {b : Nat} (hb : b < 64) (j : Nat) : (1#64 <<< b).getLsbD j = decide (j = b) := by
  rw [BitVec.getLsbD_shiftLeft, BitVec.getLsbD_one]
  by_cases hjb : j = b
  · subst hjb
    simp [hb]
  · by_cases hlt : j < b
    · simp [hlt, hjb]
    · have : j - b ≠ 0 := by omega
      simp [this, hjb]

theorem get_set (bm : Words) (c j : Nat) : get (set bm c) j = (decide (j = c) || get bm j) := by
  have hc : c % 64 < 64 := Nat.mod_lt _ (by decide)
  unfold get set
  by_cases hw : j / 64 = c / 64
  · rw [if_pos hw, BitVec.getLsbD_or, getLsbD_one_shiftLeft hc, Bool.or_comm]
    have : (j % 64 = c % 64) ↔ j = c := by omega
    simp only [this]
  · have : j ≠ c := fun h => hw (h ▸ rfl)
    rw [if_neg hw]
    simp [this]

theorem get_clear (bm : Words) (c j : Nat) : get (clear bm c) j = (!decide (j = c) && get bm j) := by
  have hc : c % 64 < 64 := Nat.mod_lt _ (by decide)
  have hj : j % 64 < 64 := Nat.mod_lt _ (by decide)
  unfold get clear
  by_cases hw : j / 64 = c / 64
  · rw [if_pos hw, BitVec.getLsbD_and, BitVec.getLsbD_not, getLsbD_one_shiftLeft hc, decide_eq_true hj,
      Bool.true_and, Bool.and_comm]
    have : (j % 64 = c % 64) ↔ j = c := by omega
    simp only [this]
  · have : j ≠ c := fun h => hw (h ▸ rfl)
    rw [if_neg hw]
    simp [this]

/-! ## Counting clear bits -/

/-- How many of the bits `lo` to `hi - 1` are clear. -/
def freeCount (bm : Words) (lo hi : Nat) : Nat := ((Finset.Ico lo hi).filter fun c => get bm c = false).card

variable {bm : Words} {lo hi c : Nat}

theorem exists_clear (h : 0 < freeCount bm lo hi) : ∃ c, lo ≤ c ∧ c < hi ∧ get bm c = false := by
  obtain ⟨c, hc⟩ := Finset.card_pos.mp h
  obtain ⟨hr, hf⟩ := Finset.mem_filter.mp hc
  exact ⟨c, (Finset.mem_Ico.mp hr).1, (Finset.mem_Ico.mp hr).2, hf⟩

theorem freeCount_set (hlo : lo ≤ c) (hhi : c < hi) (hc : get bm c = false) :
    freeCount (set bm c) lo hi + 1 = freeCount bm lo hi := by
  have hmem : c ∈ (Finset.Ico lo hi).filter fun c => get bm c = false :=
    Finset.mem_filter.mpr ⟨Finset.mem_Ico.mpr ⟨hlo, hhi⟩, hc⟩
  have hset : ((Finset.Ico lo hi).filter fun j => get (set bm c) j = false) =
      ((Finset.Ico lo hi).filter fun j => get bm j = false).erase c := by
    ext j
    simp only [Finset.mem_filter, Finset.mem_erase, get_set, Bool.or_eq_false_iff, decide_eq_false_iff_not]
    tauto
  unfold freeCount
  rw [hset, Finset.card_erase_of_mem hmem]
  have := Finset.card_pos.mpr ⟨c, hmem⟩
  omega

end Bitmap
