import Exaros.Memory.Visible
import Exaros.Pipes.Pipe

/-!
# Pipes, temporary files and user buffers

A whole call of `pipeWrite` (`kernel/fs/pipe.c`), `tmpfileWrite` or `tmpfileRead`
(`kernel/fs/tmpfile.c`) on the buffer of one process. These functions walk a user buffer byte by byte with a
translation of their own at every page boundary, where `copyin` and `copyout` go page by page. `touched`
lists the addresses they translate, allocate or copy. While a call sleeps in a pipe the other end moves bytes
and leaves this process's memory alone.
-/

namespace Exaros.Buffers

open Pipes (Pipe Loader Halt writePage readPage)

/-- What a page brought in on demand is made from: the segments of the process and their contents. -/
structure Source where
  segs : List SegmentMap
  data : Nat → Idx → BitVec 64

/-- The loader of the page of `va`. -/
def Source.at (src : Source) (va : Nat) : Loader := ⟨src.segs, src.data (alignDown va)⟩

/-! ## Writing -/

/-- The addresses that the translation of `va` for a write comes to. -/
def writeTouches (pgdir : Ppn) (va cowVa : Nat) (m : Mem) : List Nat :=
  match va2PA pgdir va m with
  | some (_, true) => [va, cowVa]
  | _ => [va]

/-- The loop of `pipeWrite` and `tmpfileWrite`, `left` bytes before its end: `put` takes one byte. A user buffer
is looked up again at a page boundary, where a copy-on-write page is copied at `addr`, not at `addr + i`. -/
def writeLoop {σ : Type} (put : UInt8 → σ → Except Halt σ) (src : Source) (isUser : Bool) (pgdir : Ppn) (addr : Nat) :
    Nat → Nat → Nat → σ → Mem → Except Halt (σ × Mem × List Nat)
  | 0, _, _, s, m => .ok (s, m, [])
  | left + 1, i, pa, s, m => do
    let s ← put (loadByte m pa) s
    let va := u64 (addr + (i + 1))
    if isUser ∧ va % PAGE_SIZE = 0 then
      let (pa, m') ← writePage (src.at va) pgdir va addr m
      let (s, m', touched) ← writeLoop put src isUser pgdir addr left (i + 1) pa s m'
      return (s, m', writeTouches pgdir va addr m ++ touched)
    else writeLoop put src isUser pgdir addr left (i + 1) (pa + 1) s m

/-- `pipeWrite` and `tmpfileWrite` of `n` bytes at `addr`. -/
def writeFrom {σ : Type} (put : UInt8 → σ → Except Halt σ) (src : Source) (isUser : Bool) (pgdir : Ppn) (addr n : Nat)
    (s : σ) (m : Mem) : Except Halt (σ × Mem × List Nat) :=
  if isUser then do
    let (pa, m') ← writePage (src.at addr) pgdir addr addr m
    let (s, m', touched) ← writeLoop put src isUser pgdir addr n 0 pa s m'
    return (s, m', writeTouches pgdir addr addr m ++ touched)
  else writeLoop put src isUser pgdir addr n 0 addr s m

def TMPFILE_SIZE : Nat := 0x10000

structure Tmpfile where
  data : Nat → UInt8
  offset : UInt64
  fileSize : UInt64

/-- `x & (TMPFILE_SIZE - 1)` -/
def tmpCell (x : UInt64) : Nat := (x &&& UInt64.ofNat (TMPFILE_SIZE - 1)).toNat

/-- `data[(tmpfile->offset++) & (TMPFILE_SIZE - 1)] = ch` -/
def tmpPut (ch : UInt8) (t : Tmpfile) : Except Halt Tmpfile :=
  .ok { t with data := Function.update t.data (tmpCell t.offset) ch, offset := t.offset + 1 }

/-- The end of `tmpfileWrite`. -/
def Tmpfile.grown (t : Tmpfile) : Tmpfile := if t.offset > t.fileSize then { t with fileSize := t.offset } else t

def tmpfileWrite (src : Source) (isUser : Bool) (pgdir : Ppn) (addr n : Nat) (t : Tmpfile) (m : Mem) :
    Except Halt (Nat × Tmpfile × Mem × List Nat) := do
  let (t, m, touched) ← writeFrom tmpPut src isUser pgdir addr n t m
  return (n, t.grown, m, touched)

/-! ## Reading -/

/-- The loop of `pipeRead` and `tmpfileRead`, at most `left` bytes before its end: `take` gives the next byte, if
there is one. A user buffer is looked up again at a page boundary; copy-on-write is not looked at. -/
def readLoop {σ : Type} (take : σ → Option (UInt8 × σ)) (src : Source) (isUser : Bool) (pgdir : Ppn) (addr : Nat) :
    Nat → Nat → Nat → σ → Mem → Except Halt (Nat × σ × Mem)
  | 0, i, _, s, m => .ok (i, s, m)
  | left + 1, i, pa, s, m =>
    match take s with
    | none => .ok (i, s, m)
    | some (ch, s) =>
      let m := storeByte m pa ch
      let va := u64 (addr + (i + 1))
      if isUser ∧ va % PAGE_SIZE = 0 then do
        let (pa, m) ← readPage (src.at va) pgdir va m
        readLoop take src isUser pgdir addr left (i + 1) pa s m
      else readLoop take src isUser pgdir addr left (i + 1) (pa + 1) s m

/-- `pipeRead` and `tmpfileRead` of at most `n` bytes to `addr`: the number of bytes, what is left, and memory. -/
def readInto {σ : Type} (take : σ → Option (UInt8 × σ)) (src : Source) (isUser : Bool) (pgdir : Ppn) (addr n : Nat)
    (s : σ) (m : Mem) : Except Halt (Nat × σ × Mem) :=
  if isUser then do
    let (pa, m) ← readPage (src.at addr) pgdir addr m
    readLoop take src isUser pgdir addr n 0 pa s m
  else readLoop take src isUser pgdir addr n 0 addr s m

/-- `ch = data[(tmpfile->offset++) & (TMPFILE_SIZE - 1)]` -/
def tmpTake (t : Tmpfile) : Option (UInt8 × Tmpfile) := some (t.data (tmpCell t.offset), { t with offset := t.offset + 1 })

/-- `n`, cut to what the file has left, in 32 bits. -/
def Tmpfile.cut (t : Tmpfile) (n : Nat) : Nat :=
  if t.offset + UInt64.ofNat n > t.fileSize then (t.fileSize - t.offset).toNat % 2 ^ 32 else n

def tmpfileRead (src : Source) (isUser : Bool) (pgdir : Ppn) (addr n : Nat) (t : Tmpfile) (m : Mem) :
    Except Halt (Nat × Tmpfile × Mem) :=
  readInto tmpTake src isUser pgdir addr (t.cut n) t m

end Exaros.Buffers
