import Exaros.Driver.Sd
import Exaros.Net.Socket

/-!
# `select`

`syscallSelect` copies two sets of descriptors in, drops from the first the open descriptors that are not ready, counts
what is left to it of either, and copies two sets out. A descriptor that is asked for and not open is not counted and
not dropped. What goes out for the second set is not the set but the sixteen bytes from the variable with its address
on.
-/

namespace Exaros.Files

open Sd (Access)

/-- `FdSet`, its two `bits` -/
structure FdSet where
  bits0 : BitVec 64
  bits1 : BitVec 64
deriving DecidableEq

namespace FdSet

/-- Whether bit `i` is in the set. -/
def has (s : FdSet) (i : Nat) : Bool := if i < 64 then s.bits0.getLsbD i else s.bits1.getLsbD (i - 64)

/-- `i < 64 ? bits[0] & (1UL << i) : bits[1] & (1UL << (i - 64))` -/
def cur (s : FdSet) (i : Nat) : BitVec 64 :=
  if i < 64 then s.bits0 &&& 1#64 <<< i else s.bits1 &&& 1#64 <<< (i - 64)

/-- `bits[0] &= ~cur`, or of `bits[1]`. -/
def drop (s : FdSet) (i : Nat) (cur : BitVec 64) : FdSet :=
  if i < 64 then { s with bits0 := s.bits0 &&& ~~~cur } else { s with bits1 := s.bits1 &&& ~~~cur }

/-- Byte `j` of a word in memory. -/
def wordByte (x : BitVec 64) (j : Nat) : UInt8 := UInt8.ofBitVec (x.extractLsb' (8 * j) 8)

/-- The set in memory. -/
def bytes (s : FdSet) : List UInt8 := (List.range 16).map fun j =>
  if j < 8 then wordByte s.bits0 j else wordByte s.bits1 (j - 8)

/-- The word that eight bytes of memory are. -/
def word (l : List UInt8) (j : Nat) : BitVec 64 :=
  (List.range 8).foldl (fun x k => x ||| (l.getD (j + k) 0).toBitVec.setWidth 64 <<< (8 * k)) 0#64

/-- How many descriptors below `n` are in the set. -/
def count (s : FdSet) (n : Nat) : Nat := (List.range n).countP s.has

end FdSet

/-- What the answer depends on: the descriptors of the process and what is behind them. `hasChar` is what the function
of that name says when descriptor `i` is looked at. -/
structure Watched where
  ofile : Nat → Option File
  pipes : Nat → Pipes.Pipe
  sockets : Nat → Net.Socket
  hasChar : Nat → Bool

/-- The `switch` on the type of the file. -/
def Watched.readyToRead (w : Watched) (i : Nat) (file : File) : Bool :=
  match file.type with
  | .pipe => !((w.pipes file.pipe).nread = (w.pipes file.pipe).nwrite)
  | .socket =>
    let s := w.sockets file.socket
    !(s.used ∧ s.head = s.tail ∧ (¬s.listening ∨ s.listening ∧ s.pending_h = s.pending_t))
  | .device => w.hasChar i
  | _ => true

/-- A turn of the loop over the first set: the set that goes back and the count. -/
def Watched.readTurn (w : Watched) (readSet : FdSet) (r : FdSet × Nat) (i : Nat) : FdSet × Nat :=
  if readSet.cur i = 0 then r
  else
    match w.ofile i with
    | none => r
    | some file => if w.readyToRead i file then (r.1, r.2 + 1) else (r.1.drop i (readSet.cur i), r.2)

/-- A turn of the loop over the second set. -/
def writeTurn (writeSet : FdSet) (cnt i : Nat) : Nat :=
  if i ≥ 64 then cnt + (if 1#64 <<< (i - 64) &&& writeSet.bits1 = 0 then 0 else 1)
  else cnt + (if 1#64 <<< i &&& writeSet.bits0 = 0 then 0 else 1)

/-- A set that came in and the one that went back. -/
structure Back where
  requested : FdSet
  stored : FdSet
deriving DecidableEq

/-- What the call leaves: its result, the sets copied in and out, and the memory of the process. -/
structure Selected (M : Type) where
  a0 : Nat
  read : Option Back
  write : Option Back
  user : M

section Call

variable {M E Addr : Type} (A : Access M E Addr)

end Call

/-! ## Bits -/

theorem and_shift_eq_zero {x : BitVec 64} {i : Nat} (hi : i < 64) : x &&& 1#64 <<< i = 0 ↔ x.getLsbD i = false := by
  constructor
  · intro h
    have hbit := congrArg (BitVec.getLsbD · i) h
    simpa [Bitmap.getLsbD_one_shiftLeft hi] using hbit
  · intro h
    apply BitVec.eq_of_getLsbD_eq
    intro j _
    rw [BitVec.getLsbD_and, Bitmap.getLsbD_one_shiftLeft hi]
    by_cases hj : j = i
    · simp [hj, h]
    · simp [hj]

theorem getLsbD_clear {x y : BitVec 64} {i j : Nat} (hi : i < 64) (hj : j < 64) :
    (x &&& ~~~(y &&& 1#64 <<< i)).getLsbD j = (x.getLsbD j && !(decide (j = i) && y.getLsbD i)) := by
  rw [BitVec.getLsbD_and, BitVec.getLsbD_not, BitVec.getLsbD_and, Bitmap.getLsbD_one_shiftLeft hi]
  by_cases h : j = i
  · simp [h, hi]
  · simp [h, hj]

namespace FdSet

variable {s t : FdSet} {i j : Nat}

theorem cur_eq_zero (hi : i < 128) : s.cur i = 0 ↔ s.has i = false := by
  unfold cur has
  split
  case isTrue h => exact and_shift_eq_zero h
  case isFalse h => exact and_shift_eq_zero (by omega)

theorem has_drop (hi : i < 128) (hj : j < 128) (h : s.has i = true) :
    (t.drop i (s.cur i)).has j = (t.has j && !decide (j = i)) := by
  unfold drop cur
  unfold has at h
  split
  case isTrue hlow =>
    rw [if_pos hlow] at h
    unfold has
    split
    case isTrue hjlow => rw [getLsbD_clear hlow hjlow, h, Bool.and_true]
    case isFalse hjlow =>
      have hne : j ≠ i := by omega
      simp [hne]
  case isFalse hlow =>
    rw [if_neg hlow] at h
    unfold has
    split
    case isTrue hjlow =>
      have hne : j ≠ i := by omega
      simp [hne]
    case isFalse hjlow =>
      have hsame : j - 64 = i - 64 ↔ j = i := by omega
      rw [getLsbD_clear (by omega) (by omega), h, Bool.and_true]
      simp only [hsame]

end FdSet

/-! ## The two loops -/

section Scan

variable {w : Watched} {readSet writeSet : FdSet} {n i : Nat}

/-- A descriptor that is asked for, open and ready. -/
def Watched.ready (w : Watched) (i : Nat) : Bool :=
  match w.ofile i with
  | none => false
  | some file => w.readyToRead i file

/-- Asked for, open and not ready: these are dropped. -/
def Watched.late (w : Watched) (i : Nat) : Bool :=
  match w.ofile i with
  | none => false
  | some file => !w.readyToRead i file

/-- The sets and the count after `n` turns. -/
structure Scanned (w : Watched) (readSet : FdSet) (n : Nat) (r : FdSet × Nat) : Prop where
  has : ∀ j < 128, r.1.has j = (readSet.has j && !(decide (j < n) && w.late j))
  cnt : r.2 = (List.range n).countP fun j => readSet.has j && w.ready j

/-- A turn looks at one descriptor more. -/
theorem Scanned.turn {r : FdSet × Nat} (h : Scanned w readSet n r) (hn : n < 128) :
    Scanned w readSet (n + 1) (w.readTurn readSet r n) := by
  have hcount : ((List.range (n + 1)).countP fun j => readSet.has j && w.ready j) =
      r.2 + if readSet.has n && w.ready n then 1 else 0 := by
    rw [List.range_succ, List.countP_append, List.countP_singleton, h.cnt]
  have hsame (hlate : (readSet.has n && w.late n) = false) (j : Nat) (hj : j < 128) :
      r.1.has j = (readSet.has j && !(decide (j < n + 1) && w.late j)) := by
    rw [h.has j hj]
    by_cases heq : j = n
    · rw [heq]
      cases hhas : readSet.has n with
      | false => rfl
      | true =>
        rw [hhas, Bool.true_and] at hlate
        simp [hlate]
    · have hiff : j < n + 1 ↔ j < n := by omega
      simp only [hiff]
  unfold Watched.readTurn
  split
  case isTrue hcur =>
    have hhas := (FdSet.cur_eq_zero hn).mp hcur
    refine ⟨hsame (by rw [hhas]; rfl), ?_⟩
    rw [hcount, hhas]
    rfl
  case isFalse hcur =>
    have hhas : readSet.has n = true := by
      rw [FdSet.cur_eq_zero hn] at hcur
      exact Bool.eq_true_of_not_eq_false hcur
    cases hfile : w.ofile n with
    | none =>
      have hready : w.ready n = false := by rw [Watched.ready, hfile]
      have hlate : w.late n = false := by rw [Watched.late, hfile]
      refine ⟨hsame (by rw [hlate, Bool.and_false]), ?_⟩
      rw [hcount, hready, Bool.and_false]
      rfl
    | some file =>
      cases hrule : w.readyToRead n file with
      | true =>
        have hready : w.ready n = true := by rw [Watched.ready, hfile]; exact hrule
        have hlate : w.late n = false := by rw [Watched.late, hfile]; exact congrArg (!·) hrule
        simp only [hrule]
        refine ⟨hsame (by rw [hlate, Bool.and_false]), ?_⟩
        rw [hcount, hready, hhas]
        rfl
      | false =>
        have hready : w.ready n = false := by rw [Watched.ready, hfile]; exact hrule
        have hlate : w.late n = true := by rw [Watched.late, hfile]; exact congrArg (!·) hrule
        simp only [hrule]
        refine ⟨fun j hj => ?_, ?_⟩
        · show (r.1.drop n (readSet.cur n)).has j = _
          rw [FdSet.has_drop hn hj hhas, h.has j hj]
          by_cases heq : j = n
          · simp [heq, hlate]
          · have hiff : j < n + 1 ↔ j < n := by omega
            simp [heq, hiff]
        · rw [hcount, hready, Bool.and_false]
          rfl

end Scan

/-! ## The call -/

section Answer

variable {M E Addr : Type} {A : Access M E Addr} {w : Watched} {behind read write except : BitVec 64} {nfd : Int}
  {n cnt cnt' : Nat} {m m' : M} {back : Option Back} {s : Selected M}

/-- How many descriptors below `n` are in a set that went back. -/
def backCount (n : Nat) : Option Back → Nat
  | none => 0
  | some r => r.stored.count n

/-- The sets that go back are subsets of those that came in, the first one has the descriptors below `nfd` that are
open and ready, and the result is how many there are below `nfd` in both. -/
structure Right (w : Watched) (n : Nat) (s : Selected M) : Prop where
  read_subset : ∀ r, s.read = some r → ∀ i < 128, r.stored.has i = true → r.requested.has i = true
  read_ready : ∀ r, s.read = some r → ∀ i < n, r.stored.has i = (r.requested.has i && w.ready i)
  write_subset : ∀ r, s.write = some r → ∀ i < 128, r.stored.has i = true → r.requested.has i = true
  count : s.a0 = backCount n s.read + backCount n s.write

theorem Scanned.subset {r : Back} (h : Scanned w r.requested n (r.stored, cnt)) :
    ∀ i < 128, r.stored.has i = true → r.requested.has i = true := by
  intro i hi hs
  rw [h.has i hi] at hs
  exact (Bool.and_eq_true_iff.mp hs).1

theorem Scanned.count_eq {r : Back} (h : Scanned w r.requested n (r.stored, cnt))
    (hready : ∀ i < n, r.stored.has i = (r.requested.has i && w.ready i)) : cnt = r.stored.count n := by
  have hcnt : cnt = (List.range n).countP fun j => r.requested.has j && w.ready j := h.cnt
  rw [hcnt]
  apply List.countP_congr
  intro i hi
  rw [hready i (List.mem_range.mp hi)]

end Answer

/-! ## Calls -/

end Exaros.Files
