import Exaros.Memory.Space

/-!
# Bytes of memory

The kernel maps all of physical memory at its own address, so it reads and writes a byte at its physical
address. `copyin` and `copyout` of `kernel/memory/memory.c` move a buffer page by page; `data` holds the
contents a page brought in on demand starts with.
-/

namespace Exaros

/-- `*((char *)pa)` -/
def loadByte (m : Mem) (pa : Nat) : UInt8 :=
  UInt8.ofNat ((m.ram (pa / PAGE_SIZE) (Fin.ofNat 512 (pa % PAGE_SIZE / 8)) >>> (8 * (pa % 8))).toNat)

/-- The byte at an offset of a page. -/
def pageByte (f : Idx → BitVec 64) (off : Nat) : UInt8 :=
  UInt8.ofNat ((f (Fin.ofNat 512 (off % PAGE_SIZE / 8)) >>> (8 * (off % 8))).toNat)

/-- `*((char *)pa) = ch` -/
def storeByte (m : Mem) (pa : Nat) (ch : UInt8) : Mem :=
  let slot : Slot := (pa / PAGE_SIZE, Fin.ofNat 512 (pa % PAGE_SIZE / 8))
  let shift := 8 * (pa % 8)
  m.write slot (m.read slot &&& ~~~ (0xff#64 <<< shift) ||| BitVec.ofNat 64 ch.toNat <<< shift)

/-- `memmove` out of `n` bytes at `pa`. -/
def loadBytes (m : Mem) (pa n : Nat) : List UInt8 := (List.range n).map fun i => loadByte m (pa + i)

/-- `memmove` to `pa`. -/
def storeBytes (pa : Nat) : List UInt8 → Mem → Mem
  | [], m => m
  | ch :: src, m => storeBytes (pa + 1) src (storeByte m pa ch)

/-- The loop of `copyout`. A page still missing after `passiveAlloc` sends the bytes to address zero. -/
def copyoutLoop (segs : List SegmentMap) (data : Nat → Idx → BitVec 64) (pgdir : Ppn) :
    Nat → Nat → List UInt8 → Mem → Except Panic Mem
  | _, _, [], m => .ok m
  | 0, _, _ :: _, _ => .error .endless
  | fuel + 1, va, ch :: src, m => do
    let m ← copyPage segs (data (alignDown va)) pgdir va m
    match va2PA pgdir va m with
    | none => throw .nullDeref
    | some (pa, _) =>
      let n := min (PAGE_SIZE - pa % PAGE_SIZE) (ch :: src).length
      copyoutLoop segs data pgdir fuel (u64 (va + n)) ((ch :: src).drop n)
        (storeBytes pa ((ch :: src).take n) m)

/-- `copyout`: each turn moves a byte at least. -/
def copyout (segs : List SegmentMap) (data : Nat → Idx → BitVec 64) (pgdir : Ppn) (va : Nat) (src : List UInt8)
    (m : Mem) : Except Panic Mem :=
  copyoutLoop segs data pgdir src.length va src m

/-- The loop of `copyin`, on the bytes still to come. -/
def copyinLoop (segs : List SegmentMap) (data : Nat → Idx → BitVec 64) (pgdir : Ppn) :
    Nat → Nat → Nat → Mem → Except Panic (List UInt8 × Mem)
  | _, _, 0, m => .ok ([], m)
  | 0, _, _ + 1, _ => .error .endless
  | fuel + 1, va, len + 1, m => do
    let m ← copyPage segs (data (alignDown va)) pgdir va m
    match va2PA pgdir va m with
    | none => throw .nullDeref
    | some (pa, _) =>
      let n := min (PAGE_SIZE - pa % PAGE_SIZE) (len + 1)
      let (rest, m') ← copyinLoop segs data pgdir fuel (u64 (va + n)) (len + 1 - n) m
      return (loadBytes m pa n ++ rest, m')

/-- `copyin`: the bytes delivered and the memory. -/
def copyin (segs : List SegmentMap) (data : Nat → Idx → BitVec 64) (pgdir : Ppn) (va len : Nat) (m : Mem) :
    Except Panic (List UInt8 × Mem) :=
  copyinLoop segs data pgdir len va len m

/-! ## A byte and the word it lies in -/

theorem ofNat_toNat_eq (x : BitVec 64) (c : UInt8) (h : ∀ i < 8, x.getLsbD i = c.toBitVec.getLsbD i) :
    UInt8.ofNat x.toNat = c := by
  apply UInt8.toBitVec_inj.mp
  apply BitVec.eq_of_getLsbD_eq
  intro i hi
  rw [← h i hi]
  show (BitVec.ofNat 8 x.toNat).getLsbD i = _
  rw [BitVec.getLsbD_ofNat]
  simp [hi, BitVec.testBit_toNat]

theorem getLsbD_byteMask (s i : Nat) : (0xff#64 <<< s).getLsbD i = (decide (i < 64) && decide (s ≤ i ∧ i < s + 8)) := by
  rw [BitVec.getLsbD_shiftLeft]
  have h255 : ∀ j, (0xff#64).getLsbD j = decide (j < 8) := by
    intro j
    have : (0xff#64) = BitVec.ofNat 64 (2 ^ 8 - 1) := by decide
    rw [this, BitVec.getLsbD_ofNat, Nat.testBit_two_pow_sub_one]
    by_cases hj : j < 8
    · have : j < 64 := by omega
      simp [hj, this]
    · simp [hj]
  rw [h255]
  by_cases h1 : i < 64 <;> by_cases h2 : i < s <;> by_cases h3 : i - s < 8
  all_goals simp [h1, h2, h3]
  all_goals omega

theorem loadByte_storeByte_self (m : Mem) (pa : Nat) (ch : UInt8) : loadByte (storeByte m pa ch) pa = ch := by
  unfold loadByte storeByte
  apply ofNat_toNat_eq
  intro i hi
  rw [BitVec.getLsbD_ushiftRight]
  simp only [Mem.write, Mem.read, and_self, if_true]
  rw [BitVec.getLsbD_or, BitVec.getLsbD_and, BitVec.getLsbD_not, getLsbD_byteMask, BitVec.getLsbD_shiftLeft]
  have h1 : 8 * (pa % 8) + i < 64 := by omega
  have h2 : ¬ 8 * (pa % 8) + i < 8 * (pa % 8) := by omega
  have h3 : 8 * (pa % 8) + i < 8 * (pa % 8) + 8 := by omega
  simp only [h1, h2, h3, decide_true, decide_false, Bool.not_false, Bool.true_and, Nat.add_sub_cancel_left, BitVec.getLsbD_ofNat]
  have h4 : i < 64 := by omega
  simp only [Nat.le_add_right, and_self, decide_true, Bool.not_true, Bool.and_false, Bool.false_or, h4, Bool.true_and]
  exact (BitVec.testBit_toNat ch.toBitVec).symm ▸ rfl

theorem ofNat_toNat_congr (x y : BitVec 64) (h : ∀ i < 8, x.getLsbD i = y.getLsbD i) :
    UInt8.ofNat x.toNat = UInt8.ofNat y.toNat := by
  apply ofNat_toNat_eq
  intro i hi
  rw [h i hi]
  show _ = (BitVec.ofNat 8 y.toNat).getLsbD i
  rw [BitVec.getLsbD_ofNat]
  simp [hi, BitVec.testBit_toNat]

/-- A byte elsewhere, in the same word or not. -/
theorem loadByte_storeByte_ne (m : Mem) {pa pa' : Nat} (ch : UInt8) (h : pa' ≠ pa) :
    loadByte (storeByte m pa ch) pa' = loadByte m pa' := by
  unfold loadByte storeByte
  by_cases hslot : pa' / PAGE_SIZE = pa / PAGE_SIZE ∧
      Fin.ofNat 512 (pa' % PAGE_SIZE / 8) = Fin.ofNat 512 (pa % PAGE_SIZE / 8)
  · obtain ⟨hpage, hidx⟩ := hslot
    have hoff : pa' % 8 ≠ pa % 8 := by
      have hword : pa' % PAGE_SIZE / 8 % 512 = pa % PAGE_SIZE / 8 % 512 := congrArg Fin.val hidx
      unfold PAGE_SIZE at hpage hword
      omega
    rw [hpage, hidx]
    apply ofNat_toNat_congr
    intro i hi
    rw [BitVec.getLsbD_ushiftRight, BitVec.getLsbD_ushiftRight]
    simp only [Mem.write, Mem.read, and_self, if_true]
    rw [BitVec.getLsbD_or, BitVec.getLsbD_and, BitVec.getLsbD_not, getLsbD_byteMask, BitVec.getLsbD_shiftLeft]
    have h1 : 8 * (pa' % 8) + i < 64 := by omega
    have h2 : ¬ (8 * (pa % 8) ≤ 8 * (pa' % 8) + i ∧ 8 * (pa' % 8) + i < 8 * (pa % 8) + 8) := by omega
    rw [decide_eq_false h2, decide_eq_true h1]
    -- the byte stored has bits below its eighth only
    have hhigh : (!decide (8 * (pa' % 8) + i < 8 * (pa % 8)) &&
        (BitVec.ofNat 64 ch.toNat).getLsbD (8 * (pa' % 8) + i - 8 * (pa % 8))) = false := by
      by_cases hlt : 8 * (pa' % 8) + i < 8 * (pa % 8)
      · rw [decide_eq_true hlt]
        rfl
      · have hge : 8 ≤ 8 * (pa' % 8) + i - 8 * (pa % 8) := by omega
        have hbit : ch.toNat.testBit (8 * (pa' % 8) + i - 8 * (pa % 8)) = false :=
          Nat.testBit_lt_two_pow (Nat.lt_of_lt_of_le ch.toNat_lt (Nat.pow_le_pow_right (by omega) hge))
        rw [BitVec.getLsbD_ofNat, hbit, Bool.and_false, Bool.and_false]
    rw [Bool.and_assoc, hhigh]
    simp
  · simp only [Mem.write, if_neg hslot]

end Exaros
