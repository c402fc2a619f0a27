import Exaros.Files.WriteFrom

/-!
# A temporary file as an array of bytes

`tmpfileRead`, `tmpfileWrite` and `syscallLseek` on one temporary file, with kernel buffers and within the 64 KB that
its pages hold. `written` is what has been written last at each position, which only the statements read. A seek may
go past the end; a read from there takes the length that is left for one of 32 bits, and does not stop at the end.
-/

namespace Exaros.TmpBytes

open Loop Run
open Buffers

def SEEK_SET : Int := 0
def SEEK_CUR : Int := 1
def SEEK_END : Int := 2

inductive Halt
  | buffer (e : Pipes.Halt)
  /-- `syscallLseek`: "Exaros doesn't support this file seek end" -/
  | seekEnd

/-- What `syscallLseek` looks at in an open file, by the type of the file. -/
inductive Seekable
  /-- `FD_ENTRY`, with `meta->fileSize` -/
  | entry (fileSize : UInt64)
  /-- `FD_PIPE`, with `pipe->nwrite` -/
  | pipe (nwrite : UInt64)
  | tmpfile (t : Tmpfile)
  /-- `FD_INTERPFILE` -/
  | interpfile (offset fileSize : UInt64)
  | other

structure OpenFile where
  object : Seekable
  /-- a `u32` in the source; a `Tmpfile` is read and written at its own `offset`, never at this -/
  off : UInt64

/-- Where `SEEK_CUR` counts from. -/
def OpenFile.current (file : OpenFile) : UInt64 :=
  match file.object with
  | .tmpfile t => t.offset
  | .interpfile offset _ => offset
  | _ => file.off

/-- Where `SEEK_END` counts from; of other files there is no end. -/
def OpenFile.end? (file : OpenFile) : Option UInt64 :=
  match file.object with
  | .entry fileSize => some fileSize
  | .pipe nwrite => some (nwrite % UInt64.ofNat Pipes.PIPESIZE)
  | .tmpfile t => some t.fileSize
  | .interpfile _ fileSize => some fileSize
  | .other => none

/-- The file at its new offset. -/
def OpenFile.moved (file : OpenFile) (off : UInt64) : OpenFile :=
  { object := match file.object with
      | .tmpfile t => .tmpfile { t with offset := off }
      | .interpfile _ fileSize => .interpfile off fileSize
      | object => object
    off }

/-- `syscallLseek` of a descriptor that is open; `none` is -1. -/
def syscallLseek (offset : UInt64) (mode : Int) (file : OpenFile) : Except Halt (Option UInt64 × OpenFile) :=
  if mode = SEEK_SET then .ok (some offset, file.moved offset)
  else if mode = SEEK_CUR then .ok (some (offset + file.current), file.moved (offset + file.current))
  else if mode = SEEK_END then
    match file.end? with
    | some e => .ok (some (offset + e), file.moved (offset + e))
    | none => .error .seekEnd
  else .ok (none, file)

/-! ## Calls on one temporary file -/

inductive Op
  /-- `tmpfileRead` to a kernel buffer -/
  | read (dst n : Nat)
  /-- `tmpfileWrite` from a kernel buffer -/
  | write (src n : Nat)
  | lseek (offset : UInt64) (mode : Int)

structure State where
  t : Tmpfile
  /-- `file->off` -/
  off : UInt64
  /-- what has been written last at each position, and zero before -/
  written : Nat → UInt8

/-- The temporary file of a descriptor, which is `t` where the descriptor has none. -/
def Seekable.tmpfile? (t : Tmpfile) : Seekable → Tmpfile
  | .tmpfile t => t
  | _ => t

section Calls

variable (src : Buffers.Source) (pgdir : Ppn)

/-- The result, memory, and the file, for the process with this address space. -/
def exec (op : Op) (m : Mem) (s : State) : Except Halt (Option Nat × Mem × Tmpfile × UInt64) :=
  match op with
  | .read dst n => ((tmpfileRead src false pgdir dst n s.t m).mapError Halt.buffer).map fun r => (some r.1, r.2.2, r.2.1, s.off)
  | .write addr n => ((tmpfileWrite src false pgdir addr n s.t m).mapError Halt.buffer).map fun r => (some r.1, r.2.2.1, r.2.1, s.off)
  | .lseek offset mode => (syscallLseek offset mode ⟨.tmpfile s.t, s.off⟩).map fun r =>
      (r.1.map UInt64.toNat, m, r.2.object.tmpfile? s.t, r.2.off)

/-- A write notes the bytes of its buffer. -/
def State.noted (s : State) (op : Op) (m : Mem) : Nat → UInt8 :=
  match op with
  | .write addr n => fun p => if s.t.offset.toNat ≤ p ∧ p < s.t.offset.toNat + n then loadByte m (addr + (p - s.t.offset.toNat)) else s.written p
  | _ => s.written

/-- The offset stays within the pages of the file; the lengths are those of `u32` and `int`. -/
def Within (s : State) : Op → Prop
  | .read _ n => n < 2 ^ 32
  | .write _ n => s.t.offset.toNat + n ≤ TMPFILE_SIZE
  | .lseek offset mode => ∀ r file, syscallLseek offset mode ⟨.tmpfile s.t, s.off⟩ = .ok (some r, file) → r.toNat ≤ TMPFILE_SIZE

/-- A call that stays within the file, where `ok` admits it. -/
def Step (ok : State → Op → Prop) (s s' : State) : Prop :=
  ∃ op m r m', Within s op ∧ ok s op ∧ exec src pgdir op m s = .ok (r, m', s'.t, s'.off) ∧ s'.written = s.noted op m

/-- `tmpfileAlloc`: the pages are cleared. -/
def Start (s : State) : Prop := s.t = newTmpfile ∧ s.off = 0 ∧ ∀ p, s.written p = 0

/-- What is left of the file at its offset. -/
def State.left (s : State) : Nat := s.t.fileSize.toNat - s.t.offset.toNat

/-- A read gives what is left, up to `n` bytes, each as it was written last; a write takes all bytes; a seek goes where
it says, and returns that. -/
def Behaves (s : State) (m : Mem) (op : Op) : Prop :=
  match op with
  | .read dst n => ∃ t, t.offset.toNat = s.t.offset.toNat + min n s.left ∧ t.fileSize = s.t.fileSize ∧ t.data = s.t.data ∧
      exec src pgdir op m s = .ok (some (min n s.left),
        storeBytes dst ((List.range (min n s.left)).map fun i => s.written (s.t.offset.toNat + i)) m, t, s.off)
  | .write _ n => ∃ t, t.offset.toNat = s.t.offset.toNat + n ∧ t.fileSize.toNat = max s.t.fileSize.toNat (s.t.offset.toNat + n) ∧
      exec src pgdir op m s = .ok (some n, m, t, s.off)
  | .lseek offset mode => ∃ r, exec src pgdir op m s = .ok r ∧ r.2.1 = m ∧ r.2.2.1.data = s.t.data ∧ r.2.2.1.fileSize = s.t.fileSize ∧
      ((mode = SEEK_SET ∧ r.2.2.1.offset = offset) ∨ (mode = SEEK_CUR ∧ r.2.2.1.offset = offset + s.t.offset) ∨
        (mode = SEEK_END ∧ r.2.2.1.offset = offset + s.t.fileSize) ∨ (r.1 = none ∧ r.2.2.1.offset = s.t.offset)) ∧
      ∀ x, r.1 = some x → x = r.2.2.1.offset.toNat

end Calls

/-- No read starts past the end. -/
def Meets (s : State) : Op → Prop
  | .read _ _ => s.t.offset.toNat ≤ s.t.fileSize.toNat
  | _ => True

/-! ## The loops -/

section Loops

variable {src : Buffers.Source} {pgdir : Ppn} {t : Tmpfile} {m : Mem}

theorem toNat_add_ofNat {x : UInt64} {k : Nat} (h : x.toNat + k < 2 ^ 64) : (x + UInt64.ofNat k).toNat = x.toNat + k := by
  rw [UInt64.toNat_add, UInt64.toNat_ofNat', Nat.mod_eq_of_lt (by omega : k < 2 ^ 64), Nat.mod_eq_of_lt h]

/-- Within the file no position is cut. -/
theorem tmpCell_eq {x : UInt64} (h : x.toNat < TMPFILE_SIZE) : tmpCell x = x.toNat := by
  unfold tmpCell
  rw [UInt64.toNat_and, show (UInt64.ofNat (TMPFILE_SIZE - 1)).toNat = 2 ^ 16 - 1 by decide, Nat.and_two_pow_sub_one_eq_mod]
  exact Nat.mod_eq_of_lt h

theorem add_one_add (x : UInt64) (k : Nat) : x + 1 + UInt64.ofNat k = x + UInt64.ofNat (k + 1) := by
  rw [UInt64.ofNat_add, UInt64.add_assoc, UInt64.add_comm 1]
  rfl

/-- A read to a kernel buffer, whatever it is told to read. -/
theorem readLoop_kernel (addr left i pa : Nat) (t : Tmpfile) (m : Mem) :
    readLoop tmpTake src false pgdir addr left i pa t m = .ok (i + left, { t with offset := t.offset + UInt64.ofNat left },
      storeBytes pa ((List.range left).map fun k => t.data (tmpCell (t.offset + UInt64.ofNat k))) m) := by
  induction left generalizing i pa t m with
  | zero =>
    have hoff : t.offset + UInt64.ofNat 0 = t.offset := UInt64.add_zero _
    rw [hoff]
    rfl
  | succ left ih =>
    have hlist : (List.range (left + 1)).map (fun k => t.data (tmpCell (t.offset + UInt64.ofNat k))) =
        t.data (tmpCell t.offset) :: (List.range left).map fun k => t.data (tmpCell (t.offset + 1 + UInt64.ofNat k)) := by
      rw [List.range_succ_eq_map, List.map_cons, List.map_map]
      congr 1
      · rw [show t.offset + UInt64.ofNat 0 = t.offset from UInt64.add_zero _]
      · refine List.map_congr_left fun k _ => ?_
        rw [add_one_add]
        rfl
    rw [hlist]
    have hturn := ih (i + 1) (pa + 1) { t with offset := t.offset + 1 } (storeByte m pa (t.data (tmpCell t.offset)))
    rw [add_one_add, Nat.add_assoc, Nat.add_comm 1] at hturn
    exact hturn

/-- Bytes put from the offset on, within the file. -/
theorem putAll_within (bytes : List UInt8) (t : Tmpfile) (h : t.offset.toNat + bytes.length ≤ TMPFILE_SIZE) :
    ∃ t', putAll tmpPut bytes t = .ok t' ∧ t'.offset.toNat = t.offset.toNat + bytes.length ∧ t'.fileSize = t.fileSize ∧
      ∀ p, t'.data p = if t.offset.toNat ≤ p ∧ p < t.offset.toNat + bytes.length then bytes.getD (p - t.offset.toNat) 0
        else t.data p := by
  have hsize : TMPFILE_SIZE = 65536 := rfl
  induction bytes generalizing t with
  | nil => exact ⟨t, rfl, rfl, rfl, fun p => by rw [if_neg (by simp only [List.length_nil]; omega)]⟩
  | cons ch bytes ih =>
    rw [List.length_cons] at h
    have hnext : (t.offset + 1).toNat = t.offset.toNat + 1 := toNat_add_ofNat (k := 1) (by omega)
    have hcell : tmpCell t.offset = t.offset.toNat := tmpCell_eq (by omega)
    obtain ⟨t', hput, hoff, hlen, hdata⟩ := ih
      { t with data := Function.update t.data (tmpCell t.offset) ch, offset := t.offset + 1 } (by dsimp only; omega)
    dsimp only at hoff hlen hdata
    refine ⟨t', ?_, by rw [hoff, List.length_cons]; omega, hlen, fun p => ?_⟩
    · unfold putAll at hput ⊢
      rw [List.foldlM_cons]
      exact hput
    · rw [hdata p, hnext, hcell, List.length_cons]
      by_cases hp : p = t.offset.toNat
      · rw [if_neg (by omega), if_pos (by omega), hp, Function.update_self, Nat.sub_self]
        rfl
      · rw [Function.update_of_ne hp]
        by_cases hin : t.offset.toNat + 1 ≤ p ∧ p < t.offset.toNat + 1 + bytes.length
        · rw [if_pos hin, if_pos (by omega), show p - t.offset.toNat = (p - (t.offset.toNat + 1)) + 1 by omega]
          rfl
        · rw [if_neg hin, if_neg (by omega)]

end Loops

/-! ## The file and the array -/

/-- The pages hold what has been written last. -/
structure Inv (s : State) : Prop where
  offset : s.t.offset.toNat ≤ TMPFILE_SIZE
  fileSize : s.t.fileSize.toNat ≤ TMPFILE_SIZE
  data : ∀ p < TMPFILE_SIZE, s.t.data p = s.written p

section Calls

variable {src : Buffers.Source} {pgdir : Ppn} {s s' : State} {m m' : Mem} {dst addr n : Nat}

theorem exec_read (dst n : Nat) (m : Mem) (s : State) : exec src pgdir (.read dst n) m s = .ok (some (s.t.cut n),
    storeBytes dst ((List.range (s.t.cut n)).map fun k => s.t.data (tmpCell (s.t.offset + UInt64.ofNat k))) m,
    { s.t with offset := s.t.offset + UInt64.ofNat (s.t.cut n) }, s.off) := by
  unfold exec tmpfileRead readInto
  dsimp only
  rw [if_neg Bool.false_ne_true, readLoop_kernel, Nat.zero_add]
  rfl

/-- What is left is what the read takes, where it starts within the file. -/
theorem cut_of_le (h : Inv s) (hn : n < 2 ^ 32) (hle : s.t.offset.toNat ≤ s.t.fileSize.toNat) : s.t.cut n = min n s.left := by
  have hsize : TMPFILE_SIZE = 65536 := rfl
  have hlen := h.fileSize
  have hsum : (s.t.offset + UInt64.ofNat n).toNat = s.t.offset.toNat + n := toNat_add_ofNat (by omega)
  unfold Tmpfile.cut State.left
  split
  · rename_i hgt
    have hgt := UInt64.lt_iff_toNat_lt.mp hgt
    rw [hsum] at hgt
    rw [UInt64.toNat_sub_of_le _ _ (UInt64.le_iff_toNat_le.mpr hle), Nat.mod_eq_of_lt (by omega)]
    omega
  · rename_i hle'
    have hle' := mt UInt64.lt_iff_toNat_lt.mpr hle'
    rw [hsum] at hle'
    omega

/-- Past the end, what is left is taken for a length of 32 bits. -/
theorem cut_of_gt (h : Inv s) (hn : n < 2 ^ 32) (hgt : s.t.fileSize.toNat < s.t.offset.toNat) : s.t.cut n ≠ 0 := by
  have hsize : TMPFILE_SIZE = 65536 := rfl
  have hoff := h.offset
  have hsum : (s.t.offset + UInt64.ofNat n).toNat = s.t.offset.toNat + n := toNat_add_ofNat (by omega)
  unfold Tmpfile.cut
  rw [if_pos (UInt64.lt_iff_toNat_lt.mpr (by rw [hsum]; omega)), UInt64.toNat_sub]
  omega

/-- A read behaves where the offset is not behind the end. -/
theorem read_behaves (h : Inv s) (hn : n < 2 ^ 32) : Behaves src pgdir s m (.read dst n) ↔ s.t.offset.toNat ≤ s.t.fileSize.toNat := by
  have hsize : TMPFILE_SIZE = 65536 := rfl
  have hlen := h.fileSize
  constructor
  · rintro ⟨t, -, -, -, hok⟩
    rw [exec_read] at hok
    by_contra hgt
    have hzero : s.left = 0 := by
      unfold State.left
      omega
    have hcut := congrArg Prod.fst (Except.ok.inj hok)
    rw [hzero, Nat.min_zero] at hcut
    exact cut_of_gt h hn (by omega) (Option.some.inj hcut)
  · intro hle
    have hleft : s.left = s.t.fileSize.toNat - s.t.offset.toNat := rfl
    refine ⟨{ s.t with offset := s.t.offset + UInt64.ofNat (min n s.left) }, toNat_add_ofNat (by omega), rfl, rfl, ?_⟩
    rw [exec_read, cut_of_le h hn hle]
    have hbytes : (List.range (min n s.left)).map (fun k => s.t.data (tmpCell (s.t.offset + UInt64.ofNat k))) =
        (List.range (min n s.left)).map fun i => s.written (s.t.offset.toNat + i) := by
      refine List.map_congr_left fun k hk => ?_
      have hk := List.mem_range.mp hk
      have hsum : (s.t.offset + UInt64.ofNat k).toNat = s.t.offset.toNat + k := toNat_add_ofNat (by omega)
      rw [tmpCell_eq (by omega), hsum, h.data _ (by omega)]
    rw [hbytes]

/-- What a write from a kernel buffer leaves. -/
theorem exec_write (src : Buffers.Source) (pgdir : Ppn) (m : Mem) (addr : Nat) (hin : s.t.offset.toNat + n ≤ TMPFILE_SIZE) : ∃ t, exec src pgdir (.write addr n) m s = .ok (some n, m, t, s.off) ∧
    t.offset.toNat = s.t.offset.toNat + n ∧ t.fileSize.toNat = max s.t.fileSize.toNat (s.t.offset.toNat + n) ∧
    ∀ p, t.data p = if s.t.offset.toNat ≤ p ∧ p < s.t.offset.toNat + n then loadByte m (addr + (p - s.t.offset.toNat)) else s.t.data p := by
  have hlength : (loadBytes m addr n).length = n := by
    unfold loadBytes
    rw [List.length_map, List.length_range]
  obtain ⟨t, hput, hoff, hlen, hdata⟩ := putAll_within (loadBytes m addr n) s.t (by rw [hlength]; exact hin)
  rw [hlength] at hoff hdata
  refine ⟨t.grown, ?_, ?_, ?_, fun p => ?_⟩
  · unfold exec tmpfileWrite
    dsimp only
    rw [writeFrom_kernel, hput]
    rfl
  · unfold Tmpfile.grown
    split
    · exact hoff
    · exact hoff
  · unfold Tmpfile.grown
    split
    · rename_i hgt
      have hgt := UInt64.lt_iff_toNat_lt.mp hgt
      rw [hlen] at hgt
      dsimp only
      omega
    · rename_i hle
      have hle := mt UInt64.lt_iff_toNat_lt.mpr hle
      rw [hlen] at hle ⊢
      omega
  · have hgrown : t.grown.data = t.data := by
      unfold Tmpfile.grown
      split
      · rfl
      · rfl
    rw [hgrown, hdata]
    split
    · rename_i hp
      unfold loadBytes
      rw [List.getD_eq_getElem _ _ (by rw [List.length_map, List.length_range]; omega), List.getElem_map, List.getElem_range]
    · rfl

theorem write_behaves (hin : s.t.offset.toNat + n ≤ TMPFILE_SIZE) : Behaves src pgdir s m (.write addr n) := by
  obtain ⟨t, hok, hoff, hlen, -⟩ := exec_write src pgdir m addr hin
  exact ⟨t, hoff, hlen, hok⟩

/-- The temporary file after a seek: only the offset has changed. -/
theorem exec_lseek (src : Buffers.Source) (pgdir : Ppn) (offset : UInt64) (mode : Int) (m : Mem) (s : State) :
    ∃ r off, exec src pgdir (.lseek offset mode) m s = .ok (r, m, { s.t with offset := off }, if r.isSome then off else s.off) ∧
      ((mode = SEEK_SET ∧ off = offset) ∨ (mode = SEEK_CUR ∧ off = offset + s.t.offset) ∨ (mode = SEEK_END ∧ off = offset + s.t.fileSize) ∨
        (r = none ∧ off = s.t.offset)) ∧ (∀ x, r = some x → x = off.toNat) ∧ (r = none → off = s.t.offset) ∧
      (r.isSome → syscallLseek offset mode ⟨.tmpfile s.t, s.off⟩ = .ok (some off, OpenFile.moved ⟨.tmpfile s.t, s.off⟩ off)) := by
  unfold exec syscallLseek
  dsimp only
  by_cases hset : mode = SEEK_SET
  · rw [if_pos hset]
    exact ⟨some offset.toNat, offset, rfl, .inl ⟨hset, rfl⟩, fun x hx => (Option.some.inj hx).symm, fun hr => (by cases hr), fun _ => rfl⟩
  · rw [if_neg hset]
    by_cases hcur : mode = SEEK_CUR
    · rw [if_pos hcur]
      exact ⟨some (offset + s.t.offset).toNat, offset + s.t.offset, rfl, .inr (.inl ⟨hcur, rfl⟩), fun x hx => (Option.some.inj hx).symm,
        fun hr => (by cases hr), fun _ => rfl⟩
    · rw [if_neg hcur]
      by_cases hend : mode = SEEK_END
      · rw [if_pos hend]
        exact ⟨some (offset + s.t.fileSize).toNat, offset + s.t.fileSize, rfl, .inr (.inr (.inl ⟨hend, rfl⟩)),
          fun x hx => (Option.some.inj hx).symm, fun hr => (by cases hr), fun _ => rfl⟩
      · rw [if_neg hend]
        exact ⟨none, s.t.offset, rfl, .inr (.inr (.inr ⟨rfl, rfl⟩)), fun x hx => (by cases hx), fun _ => rfl, fun hr => (by cases hr)⟩

theorem lseek_behaves (offset : UInt64) (mode : Int) : Behaves src pgdir s m (.lseek offset mode) := by
  obtain ⟨r, off, hok, hmode, hres, -⟩ := exec_lseek src pgdir offset mode m s
  exact ⟨_, hok, rfl, rfl, rfl, hmode, hres⟩

/-- **Every call the condition admits keeps the pages.** -/
theorem Inv.step (h : Inv s) (hstep : Step src pgdir Meets s s') : Inv s' := by
  obtain ⟨op, m, r, m', hin, hmeets, hok, hwritten⟩ := hstep
  cases op with
  | read dst n =>
    obtain ⟨t, hoff, hlen, hdata, hexec⟩ := (read_behaves h hin).mpr hmeets
    have ht : s'.t = t := (congrArg (fun x => x.2.2.1) (Except.ok.inj (hexec.symm.trans hok))).symm
    have hleft : s.left = s.t.fileSize.toNat - s.t.offset.toNat := rfl
    have hmeets : s.t.offset.toNat ≤ s.t.fileSize.toNat := hmeets
    have hbound := h.fileSize
    rw [← ht] at hoff hlen hdata
    refine ⟨by omega, by rw [hlen]; exact hbound, fun p hp => ?_⟩
    rw [hdata, hwritten]
    exact h.data p hp
  | write addr n =>
    obtain ⟨t, hexec, hoff, hlen, hdata⟩ := exec_write src pgdir m addr hin
    have ht : s'.t = t := (congrArg (fun x => x.2.2.1) (Except.ok.inj (hexec.symm.trans hok))).symm
    rw [← ht] at hoff hlen hdata
    have hin : s.t.offset.toNat + n ≤ TMPFILE_SIZE := hin
    have hbound := h.fileSize
    refine ⟨by omega, by omega, fun p hp => ?_⟩
    rw [hdata, hwritten, h.data p hp]
    rfl
  | lseek offset mode =>
    obtain ⟨r', off, hexec, -, -, hstays, hcall⟩ := exec_lseek src pgdir offset mode m s
    have ht : s'.t = { s.t with offset := off } := (congrArg (fun x => x.2.2.1) (Except.ok.inj (hexec.symm.trans hok))).symm
    refine ⟨?_, by rw [ht]; exact h.fileSize, fun p hp => ?_⟩
    · rw [ht]
      cases r' with
      | none =>
        rw [hstays rfl]
        exact h.offset
      | some x => exact hin off _ (hcall rfl)
    · rw [ht, hwritten]
      exact h.data p hp

theorem Inv.start (h : Start s) : Inv s := by
  obtain ⟨ht, -, hwritten⟩ := h
  refine ⟨?_, ?_, fun p _ => ?_⟩
  · rw [ht]
    exact Nat.zero_le _
  · rw [ht]
    exact Nat.zero_le _
  · rw [ht, hwritten]
    rfl

/-- **A temporary file is an array of bytes**, as long as no read starts past its end. -/
theorem tmpfile_bytes_iff (h : Reach Start (Step src pgdir Meets) s) {op : Op} (hin : Within s op) (m : Mem) :
    Behaves src pgdir s m op ↔ Meets s op := by
  have hinv : Inv s := h.invariant (fun _ => Inv.start) fun _ _ h₁ hstep => h₁.step hstep
  cases op with
  | read dst n => exact read_behaves hinv hin
  | write addr n => exact ⟨fun _ => trivial, fun _ => write_behaves hin⟩
  | lseek offset mode => exact ⟨fun _ => trivial, fun _ => lseek_behaves offset mode⟩

end Calls

def atStart : State := ⟨newTmpfile, 0, fun _ => 0⟩

/-- `lseek` to `offset`, within the file. -/
theorem step_seek {src : Buffers.Source} {pgdir : Ppn} {ok : State → Op → Prop} {s : State} {offset : UInt64} (m : Mem)
    (hoffset : offset.toNat ≤ TMPFILE_SIZE) (hok : ok s (.lseek offset SEEK_SET)) :
    Step src pgdir ok s ⟨{ s.t with offset := offset }, offset, s.written⟩ := by
  refine ⟨.lseek offset SEEK_SET, m, _, _, fun r file hr => ?_, hok, rfl, rfl⟩
  unfold syscallLseek at hr
  rw [if_pos rfl] at hr
  cases hr
  exact hoffset

/-- A file of two bytes is read from its start. -/
theorem tmpfile_bytes_iff_written : ∃ m s, Reach Start (Step noSegments 0 Meets) s ∧ s.t.offset = 0 ∧ s.t.fileSize = 2 ∧
    (Behaves noSegments 0 s m (.read 0x80300000 8) ↔ Meets s (.read 0x80300000 8)) := by
  obtain ⟨-, -, m, -, -⟩ := exists_stack
  have hstart : Reach Start (Step noSegments 0 Meets) atStart := .init ⟨rfl, rfl, fun _ => rfl⟩
  have hin : atStart.t.offset.toNat + 2 ≤ TMPFILE_SIZE := by decide
  obtain ⟨t, hwrite, -, hlen, -⟩ := exec_write noSegments 0 m 0x80300000 hin
  have hstep : Step noSegments 0 Meets atStart ⟨t, 0, atStart.noted (.write 0x80300000 2) m⟩ :=
    ⟨.write 0x80300000 2, m, _, _, hin, trivial, hwrite, rfl⟩
  have hzero : (0 : UInt64).toNat ≤ TMPFILE_SIZE := Nat.zero_le _
  have hreach := (hstart.step hstep).step (step_seek m hzero trivial)
  refine ⟨m, _, hreach, rfl, UInt64.toNat_inj.mp hlen, tmpfile_bytes_iff hreach ?_ m⟩
  exact (by decide : 8 < 2 ^ 32)

/-- A read at offset 5 of an empty file goes on. -/
theorem tmpfile_read_past_end : ∃ m s op, Reach Start (Step noSegments 0 fun _ _ => True) s ∧ Within s op ∧ ¬ Behaves noSegments 0 s m op := by
  obtain ⟨-, -, m, -, -⟩ := exists_stack
  have hinit : Start atStart := ⟨rfl, rfl, fun _ => rfl⟩
  have hbound : (5 : UInt64).toNat ≤ TMPFILE_SIZE := by decide
  have hseek : Step noSegments 0 Meets atStart ⟨{ newTmpfile with offset := 5 }, 5, fun _ => 0⟩ := step_seek m hbound trivial
  have hinv := (Inv.start hinit).step hseek
  refine ⟨m, _, .read 0x80300000 1, (Reach.init hinit).step (step_seek m hbound trivial), (by decide : 1 < 2 ^ 32), fun h => ?_⟩
  exact absurd ((read_behaves hinv (by decide)).mp h) (by decide)

end Exaros.TmpBytes
