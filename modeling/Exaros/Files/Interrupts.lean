import Exaros.Files.TmpBytes

/-!
# The interrupt counters as a file

`updateInterruptsString` writes the counters of the interrupts in decimal to `interruptsString`, a line for each,
and `interpfileRead` gives the bytes from the offset on to the process. The text never leaves its buffer, whatever
the counters. The offset is the process's to choose: a read from behind the end of the text takes what is left,
which is negative, for a length, so it goes on behind the text, and one whose end wraps goes on before it.
-/

namespace Exaros.Interpfile

open TmpBytes

/-- `sizeof(interruptsString)` -/
def INTERRUPTS_STRING : Int := 512

/-- The memory from `interruptsString` on, and where it has been stored to. -/
structure Text where
  byte : Int → UInt8
  stores : List Int

def Text.put (t : Text) (x : Int) (c : UInt8) : Text :=
  ⟨fun y => if y = x then c else t.byte y, t.stores ++ [x]⟩

/-! ## The text -/

theorem natAbs_tdiv_lt {i : Int} (h : i ≠ 0) : (i.tdiv 10).natAbs < i.natAbs := by
  rw [Int.natAbs_tdiv]
  exact Nat.div_lt_self (Int.natAbs_pos.mpr h) (by decide)

/-- `while (tmpi) { tmpi /= 10; length++; }` -/
def numLength (i : Int) : Nat := if i = 0 then 0 else numLength (i.tdiv 10) + 1
termination_by i.natAbs
decreasing_by exact natAbs_tdiv_lt ‹_›

/-- The second loop of `printNum`, which stores the digits from the last on. -/
def putDigits (i l buf : Int) (t : Text) : Text :=
  if i = 0 then t else putDigits (i.tdiv 10) (l - 1) buf (t.put (buf + (l - 1)) (UInt8.ofNat (i.tmod 10 + 48).toNat))
termination_by i.natAbs
decreasing_by exact natAbs_tdiv_lt ‹_›

/-- `printNum`: the length and what is stored. -/
def printNum (i buf : Int) (t : Text) : Int × Text :=
  if i = 0 then (1, t.put buf 48) else (numLength i, putDigits i (numLength i) buf (t.put (buf + numLength i) 0))

/-- A turn of `updateInterruptsString`: the line of counter `i`, at `buf`. -/
def updateLine (interruptRecoder : Nat → BitVec 32) (s : Int × Text) (i : Nat) : Int × Text :=
  if interruptRecoder i ≠ 0 ∨ i = 5 ∨ i = 8 then
    let number := printNum i s.1 s.2
    let t := (number.2.put (s.1 + number.1) 58).put (s.1 + number.1 + 1) 32
    let buf := s.1 + (number.1 + 2)
    let count := printNum (interruptRecoder i).toInt buf t
    (buf + (count.1 + 1), count.2.put (buf + count.1) 10)
  else s

/-- `updateInterruptsString`: the size it returns, and the text. -/
def updateInterruptsString (interruptRecoder : Nat → BitVec 32) (byte : Int → UInt8) : Int × Text :=
  let s := (List.range 20).foldl (updateLine interruptRecoder) (0, ⟨byte, []⟩)
  (s.1 + 1, s.2.put s.1 0)

theorem numLength_le {i : Int} {k : Nat} (h : i.natAbs < 10 ^ k) : numLength i ≤ k := by
  induction k generalizing i with
  | zero =>
    have hzero : i = 0 := by
      rw [Nat.pow_zero] at h
      omega
    rw [numLength, if_pos hzero]
  | succ k ih =>
    rw [numLength]
    split
    · exact Nat.zero_le _
    · have hdiv : (i.tdiv 10).natAbs < 10 ^ k := by
        rw [Int.natAbs_tdiv]
        apply Nat.div_lt_of_lt_mul
        rw [Nat.pow_succ, Nat.mul_comm] at h
        exact h
      exact Nat.succ_le_succ (ih hdiv)

/-- The digits are stored one before the other, and are as many as were counted. -/
theorem putDigits_stores {i l buf x : Int} {t : Text} (h : x ∈ (putDigits i l buf t).stores) :
    x ∈ t.stores ∨ buf + l - numLength i ≤ x ∧ x < buf + l := by
  fun_induction putDigits i l buf t with
  | case1 => exact .inl h
  | case2 i l t hne ih =>
    rw [numLength, if_neg hne]
    rcases ih h with hold | hnew
    · rcases List.mem_append.mp hold with hold | hnew
      · exact .inl hold
      · right
        rw [List.mem_singleton.mp hnew]
        omega
    · right
      omega

/-- `printNum` stores no further than its length, which is at most the number of digits. -/
theorem printNum_spec {i : Int} (buf : Int) (t : Text) {k : Nat} (h : i.natAbs < 10 ^ k) (hk : 0 < k) :
    0 < (printNum i buf t).1 ∧ (printNum i buf t).1 ≤ k ∧
      ∀ x ∈ (printNum i buf t).2.stores, x ∈ t.stores ∨ buf ≤ x ∧ x ≤ buf + (printNum i buf t).1 := by
  unfold printNum
  by_cases hi : i = 0
  · rw [if_pos hi]
    refine ⟨Int.one_pos, by simp only; omega, fun x hx => ?_⟩
    rcases List.mem_append.mp hx with hx | hx
    · exact .inl hx
    · right
      rw [List.mem_singleton.mp hx]
      omega
  · rw [if_neg hi]
    have hle := numLength_le h
    have hpos : 0 < numLength i := by
      rw [numLength, if_neg hi]
      exact Nat.succ_pos _
    refine ⟨by simp only; omega, by simp only; omega, fun x hx => ?_⟩
    simp only at hx ⊢
    rcases putDigits_stores hx with hx | hx
    · rcases List.mem_append.mp hx with hx | hx
      · exact .inl hx
      · right
        rw [List.mem_singleton.mp hx]
        omega
    · right
      omega

/-- The first `n` lines are in the first `15 n` bytes. -/
structure Lines (n : Nat) (s : Int × Text) : Prop where
  low : 0 ≤ s.1
  high : s.1 ≤ 15 * n
  stores : ∀ x ∈ s.2.stores, 0 ≤ x ∧ x ≤ 15 * n

/-- The line of one interrupt more. -/
theorem Lines.next {n i : Nat} {s : Int × Text} (interruptRecoder : Nat → BitVec 32) (h : Lines n s) (hi : i < 20) :
    Lines (n + 1) (updateLine interruptRecoder s i) := by
  have hlow := h.low
  have hhigh := h.high
  unfold updateLine
  split
  · -- at most two digits, a colon and a space, ten digits and the end of the line
    have hcount : ((interruptRecoder i).toInt).natAbs < 10 ^ 10 := by
      have := (interruptRecoder i).isLt
      rw [BitVec.toInt_eq_toNat_cond]
      split <;> omega
    have hnumber : (i : Int).natAbs < 10 ^ 2 := by
      rw [Int.natAbs_natCast]
      omega
    obtain ⟨hpos, hle, hstores⟩ := printNum_spec s.1 s.2 hnumber (by decide)
    obtain ⟨hpos', hle', hstores'⟩ := printNum_spec (s.1 + ((printNum i s.1 s.2).1 + 2))
      (((printNum i s.1 s.2).2.put (s.1 + (printNum i s.1 s.2).1) 58).put (s.1 + (printNum i s.1 s.2).1 + 1) 32)
      hcount (by decide)
    refine ⟨by simp only; omega, by simp only; omega, fun x hx => ?_⟩
    rcases List.mem_append.mp hx with hx | hx
    · rcases hstores' x hx with hx | hx
      · rcases List.mem_append.mp hx with hx | hx
        · rcases List.mem_append.mp hx with hx | hx
          · rcases hstores x hx with hx | hx
            · have := h.stores x hx
              omega
            · omega
          · rw [List.mem_singleton.mp hx]
            omega
        · rw [List.mem_singleton.mp hx]
          omega
      · omega
    · rw [List.mem_singleton.mp hx]
      omega
  · refine ⟨hlow, by omega, fun x hx => ?_⟩
    have := h.stores x hx
    omega

theorem lines (interruptRecoder : Nat → BitVec 32) (byte : Int → UInt8) {n : Nat} (hn : n ≤ 20) :
    Lines n ((List.range n).foldl (updateLine interruptRecoder) (0, ⟨byte, []⟩)) := by
  induction n with
  | zero => exact ⟨Int.le_refl 0, Int.le_refl 0, List.forall_mem_nil _⟩
  | succ n ih =>
    rw [List.range_succ, List.foldl_append]
    exact (ih (by omega)).next interruptRecoder (by omega)

/-- **The text** stays in the first 301 bytes of its buffer. -/
theorem updateInterruptsString_spec (interruptRecoder : Nat → BitVec 32) (byte : Int → UInt8) :
    0 < (updateInterruptsString interruptRecoder byte).1 ∧ (updateInterruptsString interruptRecoder byte).1 ≤ 301 ∧
      ∀ x ∈ (updateInterruptsString interruptRecoder byte).2.stores, 0 ≤ x ∧ x < INTERRUPTS_STRING := by
  have h := lines interruptRecoder byte (Nat.le_refl 20)
  have hlow := h.low
  have hhigh := h.high
  unfold updateInterruptsString INTERRUPTS_STRING
  refine ⟨by simp only; omega, by simp only; omega, fun x hx => ?_⟩
  rcases List.mem_append.mp hx with hx | hx
  · have := h.stores x hx
    omega
  · rw [List.mem_singleton.mp hx]
    omega

/-! ## The file -/

/-- The one `interpfile`, the counters and the memory of the text. -/
structure World where
  offset : UInt64
  fileSize : UInt64
  interruptRecoder : Nat → BitVec 32
  byte : Int → UInt8

/-- What a call does to memory: where it stores the text, the size it finds, and the indices of
`interruptsString` it hands to `copyout`. -/
structure Effect where
  stores : List Int
  fileSize : UInt64
  copied : List UInt64

/-- The size `interpfileRead` computes. -/
def World.size (w : World) : UInt64 := UInt64.ofInt (updateInterruptsString w.interruptRecoder w.byte).1

/-- How many bytes `interpfileRead` copies. -/
def World.length (w : World) (n : UInt32) : UInt32 :=
  if w.offset + n.toUInt64 > w.size then (w.size - w.offset).toUInt32 else n

/-- `interpfileRead` -/
def interpfileRead (n : UInt32) (w : World) : World × Effect :=
  let text := (updateInterruptsString w.interruptRecoder w.byte).2
  ({ w with fileSize := w.size, offset := w.offset + (w.length n).toUInt64, byte := text.byte },
    ⟨text.stores, w.size, (List.range (w.length n).toNat).map fun i => w.offset + UInt64.ofNat i⟩)

/-- `interpfileOpenAt`: both `interpfileAlloc` and `interpfileName` reset the file; `append` is `O_APPEND`, and `given`
says that there was a file and a descriptor for it. -/
def interpfileOpenAt (append given : Bool) (w : World) : World :=
  let w := { w with fileSize := 0, offset := 0 }
  if given then { w with offset := if append then w.fileSize else 0 } else w

/-- The file after a seek of a descriptor for it. -/
def World.seek (w : World) (file : OpenFile) : World :=
  match file.object with
  | .interpfile offset fileSize => { w with offset, fileSize }
  | _ => w

inductive Op where
  | openAt (append given : Bool)
  /-- `off` is the offset of the descriptor, which other types of file use -/
  | lseek (off offset : UInt64) (mode : Int)
  | read (n : UInt32)
  /-- interrupts are counted -/
  | count (interruptRecoder : Nat → BitVec 32)

def World.step (w : World) : Op → World
  | .openAt append given => interpfileOpenAt append given w
  | .lseek off offset mode =>
    match syscallLseek offset mode ⟨.interpfile w.offset w.fileSize, off⟩ with
    | .ok (_, file) => w.seek file
    | .error _ => w
  | .read n => (interpfileRead n w).1
  | .count interruptRecoder => { w with interruptRecoder }

/-- The calls of a history, each with the state it is made in. -/
def history : World → List Op → List (World × Op)
  | _, [] => []
  | w, op :: ops => (w, op) :: history (w.step op) ops

/-- The text is stored inside its buffer. -/
def KeepsBuffer (call : World × Op) : Prop :=
  match call.2 with
  | .read n => ∀ x ∈ (interpfileRead n call.1).2.stores, 0 ≤ x ∧ x < INTERRUPTS_STRING
  | _ => True

/-- What is copied to the process is text. -/
def Discloses (call : World × Op) : Prop :=
  match call.2 with
  | .read n => ∀ x ∈ (interpfileRead n call.1).2.copied, x < (interpfileRead n call.1).2.fileSize
  | _ => True

/-- A read starts in the text or at its end; or so far behind it that the length left, of 32 bits, is zero, and its
end does not wrap. -/
def Placed (call : World × Op) : Prop :=
  match call.2 with
  | .read n => call.1.offset ≤ call.1.size ∨
      call.1.offset + n.toUInt64 > call.1.size ∧ (call.1.size - call.1.offset).toUInt32 = 0
  | _ => True

section Read

variable {w : World}

/-- The size is small. -/
theorem size_toNat (w : World) : w.size.toNat ≤ 301 := by
  obtain ⟨hpos, hle, -⟩ := updateInterruptsString_spec w.interruptRecoder w.byte
  unfold World.size UInt64.ofInt
  rw [UInt64.toNat_ofNat']
  omega

/-- The indices a read copies from. -/
theorem mem_copied {n : UInt32} {x : UInt64} : x ∈ (interpfileRead n w).2.copied ↔
    ∃ i < (w.length n).toNat, x = w.offset + UInt64.ofNat i := by
  show x ∈ (List.range (w.length n).toNat).map _ ↔ _
  rw [List.mem_map]
  constructor
  · rintro ⟨i, hi, rfl⟩
    exact ⟨i, List.mem_range.mp hi, rfl⟩
  · rintro ⟨i, hi, rfl⟩
    exact ⟨i, List.mem_range.mpr hi, rfl⟩

/-- From within the text, a read stops at its end. -/
theorem discloses_of_le {n : UInt32} (h : w.offset ≤ w.size) : Discloses (w, .read n) := by
  have hsize := size_toNat w
  have hn := n.toNat_lt
  rw [UInt64.le_iff_toNat_le] at h
  have hsum : (w.offset + n.toUInt64).toNat = w.offset.toNat + n.toNat := by
    rw [UInt64.toNat_add, UInt32.toNat_toUInt64]
    exact Nat.mod_eq_of_lt (by omega)
  have hlen : w.offset.toNat + (w.length n).toNat ≤ w.size.toNat := by
    unfold World.length
    split
    · rw [UInt64.toNat_toUInt32, UInt64.toNat_sub_of_le _ _ (UInt64.le_iff_toNat_le.mpr h)]
      omega
    · rename_i hle
      rw [gt_iff_lt, UInt64.lt_iff_toNat_lt, hsum] at hle
      omega
  intro x hx
  obtain ⟨i, hi, rfl⟩ := (mem_copied (w := w) (n := n)).mp hx
  have hmod : (w.offset.toNat + i % 2 ^ 64) % 2 ^ 64 = w.offset.toNat + i := by omega
  show w.offset + UInt64.ofNat i < w.size
  rw [UInt64.lt_iff_toNat_lt, UInt64.toNat_add, UInt64.toNat_ofNat', hmod]
  omega

/-- **One read.** -/
theorem discloses_iff (n : UInt32) : Discloses (w, .read n) ↔ Placed (w, .read n) := by
  by_cases h : w.offset ≤ w.size
  · exact ⟨fun _ => .inl h, fun _ => discloses_of_le h⟩
  · constructor
    · intro hread
      -- the first byte copied is behind the text, so there is none
      have hnone : (w.length n).toNat = 0 := by
        by_contra hne
        have hfirst := hread w.offset (mem_copied.mpr ⟨0, Nat.pos_of_ne_zero hne, (UInt64.add_zero _).symm⟩)
        exact h (UInt64.le_of_lt hfirst)
      have hlen : w.length n = 0 := UInt32.toNat_inj.mp hnone
      unfold World.length at hlen
      split at hlen
      · rename_i hlong
        exact .inr ⟨hlong, hlen⟩
      · rename_i hshort
        have hend : w.offset + (0 : UInt32).toUInt64 = w.offset := UInt64.add_zero _
        rw [hlen, hend] at hshort
        exact absurd (UInt64.not_lt.mp hshort) h
    · intro hplaced
      obtain ⟨hlong, hzero⟩ := hplaced.resolve_left h
      intro x hx
      obtain ⟨i, hi, -⟩ := mem_copied.mp hx
      have hlen : w.length n = 0 := (if_pos hlong).trans hzero
      rw [hlen] at hi
      exact absurd hi (Nat.not_lt_zero i)

end Read

/-- **Histories of the file.** Whatever is opened, sought, read and counted, the text is stored inside its buffer; and the
reads copy nothing but text exactly if each starts at a place where it does. -/
theorem interrupts_disclosed (w : World) (ops : List Op) :
    (∀ call ∈ history w ops, KeepsBuffer call) ∧
      ((∀ call ∈ history w ops, Discloses call) ↔ ∀ call ∈ history w ops, Placed call) := by
  have hcall : ∀ call : World × Op, Discloses call ↔ Placed call := by
    rintro ⟨w, op⟩
    cases op with
    | read n => exact discloses_iff n
    | openAt append given => exact Iff.rfl
    | lseek off offset mode => exact Iff.rfl
    | count interruptRecoder => exact Iff.rfl
  refine ⟨fun call _ => ?_, forall₂_congr fun call _ => hcall call⟩
  obtain ⟨w, op⟩ := call
  cases op with
  | read n => exact (updateInterruptsString_spec w.interruptRecoder w.byte).2.2
  | openAt append given => trivial
  | lseek off offset mode => trivial
  | count interruptRecoder => trivial

/-- Nothing counted and nothing read. -/
def idle : World := ⟨0, 0, fun _ => 0, fun _ => 0⟩

/-- A seek to -1 and a read of one byte: the byte before the text. -/
theorem interrupts_leaked : ¬ ∀ call ∈ history idle [.openAt false true, .lseek 0 (0 - 1) SEEK_SET, .read 1],
    Discloses call := by
  intro h
  have hread := h (_, .read 1) (List.mem_cons_of_mem _ (List.mem_cons_of_mem _ (List.mem_singleton_self _)))
  have hsize := size_toNat ((idle.step (.openAt false true)).step (.lseek 0 (0 - 1) SEEK_SET))
  rcases (discloses_iff 1).mp hread with hle | ⟨hlong, -⟩
  · have hoff : ((idle.step (.openAt false true)).step (.lseek 0 (0 - 1) SEEK_SET)).offset.toNat = 2 ^ 64 - 1 := by decide
    have hle' := UInt64.le_iff_toNat_le.mp hle
    rw [hoff] at hle'
    exact absurd (Nat.le_trans hle' hsize) (by decide)
  · have hzero : ((idle.step (.openAt false true)).step (.lseek 0 (0 - 1) SEEK_SET)).offset + (1 : UInt32).toUInt64 = 0 := by
      decide
    rw [hzero] at hlong
    exact absurd hlong (UInt64.not_lt.mpr UInt64.zero_le)

end Exaros.Interpfile
