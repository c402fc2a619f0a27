import Exaros.Files.Buffers
import Exaros.Memory.Transfer

/-!
# Writing from a user buffer

`writeFrom` against `copyin`. Both bring in the pages of the buffer in order and leave the same memory, and a
page copied on the way holds what the old one held. They differ in two places: `writeFrom` translates the
page after a buffer that ends at a page boundary, and at a boundary it takes a copy-on-write page for the
first page of the buffer, which is none any more, and panics.
-/

namespace Exaros.Buffers

open Pipes (Pipe Loader Halt writePage liftMem)

/-! ## Pages -/

section Page

variable {img : Image} {dirs : Finset Ppn} {segs : List SegmentMap} {data : Idx → BitVec 64} {m m₁ m' : Mem} {d : Ppn}
  {va cowVa pa : Nat} {c : Bool} {e : Pte}

/-- The page of `va` as a call reaches it: `pa` is in the page mapped there, or in one with the same contents. -/
structure Reached (d : Ppn) (va pa : Nat) (m₁ : Mem) : Prop where
  offset : pa % PAGE_SIZE = va % PAGE_SIZE
  bytes : ∀ pa' c k, va2PA d va m₁ = some (pa', c) → va % PAGE_SIZE + k < PAGE_SIZE →
    loadByte m₁ (pa + k) = loadByte m₁ (pa' + k)

end Page

/-! ## Bytes of a page -/

/-- Bytes put one by one. -/
def putAll {σ : Type} (put : UInt8 → σ → Except Halt σ) (bytes : List UInt8) (s : σ) : Except Halt σ :=
  bytes.foldlM (fun s ch => put ch s) s

theorem loadBytes_succ (m : Mem) (pa n : Nat) : loadBytes m pa (n + 1) = loadByte m pa :: loadBytes m (pa + 1) n := by
  unfold loadBytes
  rw [List.range_succ_eq_map, List.map_cons, List.map_map]
  refine congrArg (loadByte m pa :: ·) (List.map_congr_left fun k _ => ?_)
  show loadByte m (pa + (k + 1)) = loadByte m (pa + 1 + k)
  rw [Nat.add_assoc, Nat.add_comm 1 k]

section Cross

variable {σ : Type} {put : UInt8 → σ → Except Halt σ} {src : Source} {img : Image} {dirs : Finset Ppn} {d : Ppn}
  {addr i va len pa pa' : Nat} {c : Bool} {s s' : σ} {m m₁ m' : Mem} {bytes : List UInt8}

end Cross

/-! ## Whole calls -/

/-- No page of the buffer after the first is copy-on-write, and the buffer does not end at a page boundary. -/
def Plain (d : Ppn) (addr n : Nat) (m : Mem) : Prop :=
  (addr + n) % PAGE_SIZE ≠ 0 ∧
    ∀ a, addr < a → a < addr + n → a % PAGE_SIZE = 0 → ∀ pa, va2PA d a m ≠ some (pa, true)

/-- Every address lies in a page that meets the buffer. -/
def Within (addr n : Nat) (touched : List Nat) : Prop :=
  ∀ v ∈ touched, ∃ a, addr ≤ a ∧ a < addr + n ∧ a / PAGE_SIZE = v / PAGE_SIZE

section Calls

variable {σ : Type} {put : UInt8 → σ → Except Halt σ} {src : Source} {img : Image} {dirs : Finset Ppn} {d : Ppn}
  {addr n : Nat} {s s' : σ} {m m' : Mem} {bytes : List UInt8}

/-- From a kernel buffer the bytes are put one by one. -/
theorem writeFrom_kernel (kb : Nat) : writeFrom put src false d kb n s m =
    (putAll put (loadBytes m kb n) s).map fun s => (s, m, []) := by
  have hloop : ∀ i pa s, writeLoop put src false d kb n i pa s m = (putAll put (loadBytes m pa n) s).map fun s => (s, m, []) := by
    induction n with
    | zero => exact fun _ _ _ => rfl
    | succ n ih =>
      intro i pa s
      unfold writeLoop
      rw [loadBytes_succ]
      unfold putAll
      rw [List.foldlM_cons]
      cases put (loadByte m pa) s with
      | error e => rfl
      | ok s₁ =>
        rw [Loop.ok_bind, Loop.ok_bind]
        exact ih (i + 1) (pa + 1) s₁
  exact hloop 0 kb s

end Calls

/-- A process with the top page of its stack mapped. -/
theorem exists_stack : ∃ dirs d m e, MemInv Image.sample m dirs ∧ d ∈ dirs ∧
    view m d (vpn (USER_STACK_TOP - PAGE_SIZE)) = some e ∧ LazyEntry e := by
  obtain ⟨dirs, d, m₀, h₀, hd, -, hlen⟩ := exists_process
  obtain ⟨m, y, hinit, hv, -⟩ := h₀.initUserMemory_ok hd (by omega)
  exact ⟨dirs, d, m, _, (kept_initUserMemory h₀ hd hinit).inv h₀, hd, hv, lazyEntry_stackEntry y⟩

/-- A process without segments. -/
def noSegments : Source := ⟨[], fun _ _ => 0⟩

def newTmpfile : Tmpfile := { data := fun _ => 0, offset := 0, fileSize := 0 }

end Exaros.Buffers
