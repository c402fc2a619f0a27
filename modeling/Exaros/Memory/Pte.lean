import Exaros.Memory.Layout
import Mathlib.Data.BitVec

/-!
# Page table entries

The bit macros of `include/memory.h` over 64-bit words, and the few facts the page tables need
of them: what `mkPte` builds decodes to the page and the permissions it was built from, and an
edit of the low ten bits leaves the page alone. Bits are read with `getLsbD`; `pteHas_bit` turns
the source's `pte & PTE_X_BIT` into it.
-/

namespace Exaros

abbrev Pte := BitVec 64

/-- `1 << k`. -/
def bit (k : Nat) : Pte := 1#64 <<< k

def PTE_VALID_BIT : Pte := bit 0
def PTE_READ_BIT : Pte := bit 1
def PTE_WRITE_BIT : Pte := bit 2
def PTE_EXECUTE_BIT : Pte := bit 3
def PTE_USER_BIT : Pte := bit 4
def PTE_ACCESSED_BIT : Pte := bit 6
def PTE_DIRTY_BIT : Pte := bit 7
def PTE_COW_BIT : Pte := bit 8
def PTE_SHM_BIT : Pte := bit 9

/-- `pte & b` as a condition. -/
def pteHas (pte b : Pte) : Bool := pte &&& b != 0

/-- `PTE2PPN(pte)`. -/
def pte2Ppn (pte : Pte) : Ppn := ((pte >>> 10) &&& (BitVec.ofNat 64 (2 ^ 44 - 1))).toNat

/-- `PTE2PERM(pte)`: everything but the page number. -/
def pte2Perm (pte : Pte) : Pte := pte &&& ~~~ (bit 54 - bit 10)

/-- `page2Pte(page)`, the page number in place. -/
def page2Pte (p : Ppn) : Pte := BitVec.ofNat 64 p <<< 10

/-- `page2Pte(pp) | perm | PTE_VALID_BIT`. -/
def mkPte (p : Ppn) (perm : Pte) : Pte := page2Pte p ||| perm ||| PTE_VALID_BIT

/-- A permission argument: no bit of it lies in the page number field. Every caller passes
`PTE_*_BIT` combinations or a `PTE2PERM`. -/
def PermOk (perm : Pte) : Prop := pte2Perm perm = perm

instance (perm : Pte) : Decidable (PermOk perm) := inferInstanceAs (Decidable (_ = _))

/-! ## Bits -/

@[simp] theorem getLsbD_bit (k i : Nat) (hk : k < 64) : (bit k).getLsbD i = decide (i = k) := by
  unfold bit
  rw [BitVec.getLsbD_shiftLeft, BitVec.getLsbD_one]
  by_cases h : i = k
  · subst h
    simp [hk]
  · have : ¬ (i - k = 0 ∧ ¬ i < k) := by omega
    by_cases hik : i < k
    · simp [hik, h]
    · have : i - k ≠ 0 := by omega
      simp [this, h]

@[simp] theorem pteHas_bit (pte : Pte) (k : Nat) (hk : k < 64) : pteHas pte (bit k) = pte.getLsbD k := by
  unfold pteHas
  cases h : pte.getLsbD k with
  | true =>
    have hne : pte &&& bit k ≠ 0 := by
      intro h0
      have hk0 : (pte &&& bit k).getLsbD k = false := by rw [h0]; exact BitVec.getLsbD_zero
      rw [BitVec.getLsbD_and, h, getLsbD_bit k k hk, decide_eq_true rfl] at hk0
      exact Bool.noConfusion hk0
    exact bne_iff_ne.mpr hne
  | false =>
    have h0 : pte &&& bit k = 0 := by
      apply BitVec.eq_of_getLsbD_eq
      intro i _
      by_cases hik : i = k
      · subst hik; simp [h]
      · simp [hk, hik]
    simp [h0]

theorem getLsbD_ppnField (i : Nat) : (bit 54 - bit 10).getLsbD i = decide (10 ≤ i ∧ i < 54) := by
  have hval : bit 54 - bit 10 = BitVec.ofNat 64 ((2 ^ 44 - 1) * 2 ^ 10) := by decide
  rw [hval, BitVec.getLsbD_ofNat, Nat.testBit_mul_two_pow, Nat.testBit_two_pow_sub_one]
  by_cases h1 : 10 ≤ i
  · by_cases h2 : i < 54
    · have h3 : i < 64 := by omega
      have h4 : i - 10 < 44 := by omega
      simp [h1, h2, h3, h4]
    · have h4 : ¬ i - 10 < 44 := by omega
      simp [h1, h2, h4]
  · simp [h1]

theorem getLsbD_pte2Perm (pte : Pte) (i : Nat) :
    (pte2Perm pte).getLsbD i = (pte.getLsbD i && !decide (10 ≤ i ∧ i < 54)) := by
  unfold pte2Perm
  rw [BitVec.getLsbD_and, BitVec.getLsbD_not, getLsbD_ppnField]
  by_cases h : i < 64
  · simp [h]
  · have : pte.getLsbD i = false := BitVec.getLsbD_of_ge _ _ (by omega)
    simp [this]

theorem permOk_iff (perm : Pte) : PermOk perm ↔ ∀ i, 10 ≤ i → i < 54 → perm.getLsbD i = false := by
  constructor
  · intro h i h1 h2
    have := congrArg (fun x => x.getLsbD i) h
    simp only [getLsbD_pte2Perm, h1, h2, and_self, decide_true, Bool.not_true, Bool.and_false] at this
    exact this.symm
  · intro h
    apply BitVec.eq_of_getLsbD_eq
    intro i _
    rw [getLsbD_pte2Perm]
    by_cases hi : 10 ≤ i ∧ i < 54
    · rw [h i hi.1 hi.2]; rfl
    · simp [hi]

theorem permOk_pte2Perm (pte : Pte) : PermOk (pte2Perm pte) := by
  rw [permOk_iff]
  intro i h1 h2
  rw [getLsbD_pte2Perm]
  simp [h1, h2]

theorem PermOk.or {a b : Pte} (ha : PermOk a) (hb : PermOk b) : PermOk (a ||| b) := by
  rw [permOk_iff] at *
  intro i h1 h2
  rw [BitVec.getLsbD_or, ha i h1 h2, hb i h1 h2]; rfl

theorem PermOk.and {a : Pte} (ha : PermOk a) (b : Pte) : PermOk (a &&& b) := by
  rw [permOk_iff] at *
  intro i h1 h2
  rw [BitVec.getLsbD_and, ha i h1 h2]; rfl

theorem permOk_bit {k : Nat} (hk : k < 10) : PermOk (bit k) := by
  rw [permOk_iff]
  intro i h1 _
  rw [getLsbD_bit k i (by omega)]
  exact decide_eq_false (by omega)

/-! ## The page an entry names -/

theorem testBit_pte2Ppn (pte : Pte) (i : Nat) :
    (pte2Ppn pte).testBit i = (decide (i < 44) && pte.getLsbD (i + 10)) := by
  unfold pte2Ppn
  rw [← BitVec.getLsbD.eq_def, BitVec.getLsbD_and, BitVec.getLsbD_ushiftRight, BitVec.getLsbD_ofNat,
    Nat.testBit_two_pow_sub_one]
  by_cases h : i < 44
  · have : i < 64 := by omega
    simp [h, this, Nat.add_comm]
  · simp [h]

/-- The page depends on bits 10 to 53 only. -/
theorem pte2Ppn_congr {a b : Pte} (h : ∀ i, 10 ≤ i → i < 54 → a.getLsbD i = b.getLsbD i) :
    pte2Ppn a = pte2Ppn b := by
  apply Nat.eq_of_testBit_eq
  intro i
  rw [testBit_pte2Ppn, testBit_pte2Ppn]
  by_cases hi : i < 44
  · rw [h (i + 10) (by omega) (by omega)]
  · simp [hi]

theorem getLsbD_page2Pte (p : Ppn) (i : Nat) :
    (page2Pte p).getLsbD i = (decide (i < 64) && (!decide (i < 10) && p.testBit (i - 10))) := by
  unfold page2Pte
  rw [BitVec.getLsbD_shiftLeft, BitVec.getLsbD_ofNat]
  by_cases h : i < 64
  · have : i - 10 < 64 := by omega
    simp [h, this]
  · simp [h]

theorem getLsbD_mkPte (p : Ppn) (perm : Pte) (i : Nat) :
    (mkPte p perm).getLsbD i =
      ((decide (i < 64) && (!decide (i < 10) && p.testBit (i - 10))) || perm.getLsbD i || decide (i = 0)) := by
  unfold mkPte PTE_VALID_BIT
  rw [BitVec.getLsbD_or, BitVec.getLsbD_or, getLsbD_page2Pte, getLsbD_bit 0 i (by omega)]

/-- The low ten bits of a built entry are those of its permissions. -/
theorem getLsbD_mkPte_low (p : Ppn) (perm : Pte) {i : Nat} (hi : i < 10) :
    (mkPte p perm).getLsbD i = (perm.getLsbD i || decide (i = 0)) := by
  rw [getLsbD_mkPte]
  simp [hi]

@[simp] theorem pte2Ppn_mkPte {p : Ppn} {perm : Pte} (hp : p < 2 ^ 44) (hperm : PermOk perm) :
    pte2Ppn (mkPte p perm) = p := by
  apply Nat.eq_of_testBit_eq
  intro i
  rw [testBit_pte2Ppn, getLsbD_mkPte]
  by_cases hi : i < 44
  · have h1 := (permOk_iff perm).mp hperm (i + 10) (by omega) (by omega)
    have h2 : i + 10 < 64 := by omega
    have h3 : ¬ i + 10 < 10 := by omega
    have h4 : i + 10 ≠ 0 := by omega
    simp only [hi, h1, h2, h3, h4, decide_true, decide_false, Bool.true_and, Bool.not_false,
      Nat.add_sub_cancel, Bool.or_false]
  · have : p.testBit i = false :=
      Nat.testBit_lt_two_pow (Nat.lt_of_lt_of_le hp (Nat.pow_le_pow_right (by decide) (by omega)))
    simp [hi, this]

/-! ## Decoding -/

/-- `PTE_VALID(pte)`. -/
def pteValid (pte : Pte) : Bool := pteHas pte PTE_VALID_BIT

/-- The page an entry points to, when it is valid. -/
def decodePte (pte : Pte) : Option Ppn := if pteValid pte then some (pte2Ppn pte) else none

@[simp] theorem pteValid_eq (pte : Pte) : pteValid pte = pte.getLsbD 0 := pteHas_bit pte 0 (by omega)

@[simp] theorem pteValid_mkPte (p : Ppn) (perm : Pte) : pteValid (mkPte p perm) = true := by
  rw [pteValid_eq, getLsbD_mkPte_low p perm (by omega)]
  simp

@[simp] theorem decodePte_zero : decodePte 0 = none := rfl

theorem decodePte_mkPte {p : Ppn} {perm : Pte} (hp : p < 2 ^ 44) (hperm : PermOk perm) :
    decodePte (mkPte p perm) = some p := by
  rw [decodePte, if_pos (pteValid_mkPte p perm), pte2Ppn_mkPte hp hperm]

theorem decodePte_isSome (pte : Pte) : (decodePte pte).isSome = pteValid pte := by
  unfold decodePte
  cases pteValid pte <;> rfl

/-- An entry is rebuilt from its page and permissions. -/
theorem mkPte_pte2Ppn_pte2Perm {pte : Pte} (hv : pteValid pte = true) :
    mkPte (pte2Ppn pte) (pte2Perm pte) = pte := by
  apply BitVec.eq_of_getLsbD_eq
  intro i hi
  rw [getLsbD_mkPte, testBit_pte2Ppn, getLsbD_pte2Perm]
  rw [pteValid_eq] at hv
  by_cases h0 : i = 0
  · subst h0; simp [hv]
  · by_cases h10 : i < 10
    · have : ¬ 10 ≤ i := by omega
      simp [h0, h10]
    · have hsub : i - 10 + 10 = i := by omega
      by_cases h54 : i < 54
      · have h44 : i - 10 < 44 := by omega
        have hge : 10 ≤ i := by omega
        simp [hi, h0, h10, hsub, h44, hge, h54]
      · have h44 : ¬ i - 10 < 44 := by omega
        simp [h0, h44, h54]

end Exaros
