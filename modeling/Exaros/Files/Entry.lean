import Exaros.Dir.Lifetime
import Exaros.Fat.Contents
import Exaros.Files.TmpBytes
import Exaros.Files.Tmpfile

/-!
# Reading and writing open files

What the system calls on files of type `FD_ENTRY` do with the bytes of a volume: `fileread` and `filewrite`, the calls that
seek or name an offset, those on vectors of buffers, and `copy_file_range`. A buffer is taken as the bytes in it. `View` is what
a process sees of all this, the bytes of every file and where each open file stands, and `Call.spec` is what a call does to it,
without the loops over buffers and pieces.

**What it does not establish.** What a call does where it does not meet `Call.Meets`.
-/

namespace Exaros.Entry

open Fat Loop
open Function (update update_self update_of_ne update_idem update_eq_self)

/-- A `File` of type `FD_ENTRY`, with the number of its `meta`. -/
structure File where
  readable : Bool
  writable : Bool
  off : Nat
  dirMeta : Nat

/-- A volume and the files that are open on it. -/
structure State where
  volume : FatState
  files : Nat → Option File

inductive Halt
  | volume (p : Fat.Panic)
  /-- `metaResize`: "OS don't support other trunc." -/
  | metaResize
  /-- a `File` that is `NULL` -/
  | null

/-- What a call returns, what it has copied out to each buffer, and the two offsets in the caller's memory. -/
structure Result where
  ret : Int
  out : List (List Byte)
  cells : Option Nat × Option Nat

/-- The result of a call that copies nothing out. -/
def Result.only (r : Int) : Result := ⟨r, [], none, none⟩

def IOVMAX : Nat := 64
def bufSize : Nat := 1024

/-- `x += r` in a variable of `w` bits. -/
def plus (w x : Nat) (r : Int) : Nat := ((x + r) % 2 ^ w).toNat

def onVolume {α : Type} (x : Except Fat.Panic α) : Except Halt α := x.mapError .volume

def State.setOff (s : State) (f : Nat) (file : File) (off : Nat) : State :=
  { s with files := update s.files f (some { file with off }) }

/-- A call on an open file, which is `-1` on none. -/
def State.withFile (s : State) (f : Nat) (call : File → Except Halt (Result × State)) : Except Halt (Result × State) :=
  match s.files f with
  | none => .ok (.only (-1), s)
  | some file => call file

/-! ## `fileread` and `filewrite` -/

def fileread (f n : Nat) (s : State) : Except Halt (Result × State) :=
  match s.files f with
  | none => .error .null
  | some file =>
    if file.readable = false then .ok (.only (-1), s)
    else do
      let (r, dst, volume) ← onVolume (s.volume.read file.dirMeta file.off n)
      let s := { s with volume }
      return (⟨r, [dst], none, none⟩, if 0 < r then s.setOff f file (plus 32 file.off r) else s)

def filewrite (f : Nat) (bs : List Byte) (s : State) : Except Halt (Int × State) :=
  match s.files f with
  | none => .error .null
  | some file =>
    if file.writable = false then .ok (-1, s)
    else do
      let n := i32 (u32 bs.length)
      let (r, volume) ← onVolume (s.volume.write file.dirMeta (fun i => bs.getD i 0) file.off (u32 bs.length))
      let s := { s with volume }
      return if r = n then (n, s.setOff f file (plus 32 file.off n)) else (-1, s)

/-! ## The system calls -/

/-- The end of `syscallOpenAt`, for an entry that is no directory. -/
def openEntry (f i flags : Nat) (s : State) : Except Halt (Result × State) := do
  let volume ← onVolume (if flags &&& Dir.O_TRUNC ≠ 0 then s.volume.trunc i else .ok s.volume)
  let file : File :=
    { readable := flags &&& Files.O_WRONLY = 0
      writable := flags &&& Files.O_WRONLY ≠ 0 ∨ flags &&& Files.O_RDWR ≠ 0
      off := if flags &&& Tmpfiles.O_APPEND ≠ 0 then (volume.dirMetas i).fileSize else 0
      dirMeta := i }
  return (.only f, ⟨volume, update s.files f (some file)⟩)

/-- The `fileclose` of the last reference. -/
def close (f : Nat) (s : State) : Except Halt (Result × State) :=
  .ok (.only 0, { s with files := update s.files f none })

def syscallRead (f : Nat) (len : Int) (s : State) : Except Halt (Result × State) :=
  s.withFile f fun _ => if len < 0 then .ok (.only (-1), s) else fileread f len.toNat s

def syscallWrite (f : Nat) (bs : List Byte) (s : State) : Except Halt (Result × State) :=
  s.withFile f fun _ =>
    if i32 (u32 bs.length) < 0 then .ok (.only (-1), s)
    else do
      let (r, s) ← filewrite f bs s
      return (.only r, s)

def syscallLseek (f offset : Nat) (mode : Int) (s : State) : Except Halt (Result × State) :=
  s.withFile f fun file =>
    let seek (base : Nat) : Except Halt (Result × State) :=
      let off := u64 (offset + base)
      .ok (.only off, s.setOff f file (u32 off))
    if mode = TmpBytes.SEEK_SET then seek 0
    else if mode = TmpBytes.SEEK_CUR then seek file.off
    else if mode = TmpBytes.SEEK_END then seek (s.volume.dirMetas file.dirMeta).fileSize
    else .ok (.only (-1), s)

def syscallPRead (f n off : Nat) (s : State) : Except Halt (Result × State) :=
  s.withFile f fun file => do
    let (r, dst, volume) ← onVolume (s.volume.read file.dirMeta (u32 off) (u32 n))
    return (⟨r, [dst], none, none⟩, { s with volume })

def syscallPWrite (f : Nat) (bs : List Byte) (off : Nat) (s : State) : Except Halt (Result × State) :=
  s.withFile f fun file => do
    let (r, volume) ← onVolume (s.volume.write file.dirMeta (fun i => bs.getD i 0) (u32 off) (u32 bs.length))
    return (.only r, { s with volume })

/-- The loop of `syscallReadVector`, over the lengths of the buffers. -/
def readVector (f : Nat) : List Nat → State → Except Halt (Result × State)
  | [], s => .ok (.only 0, s)
  | n :: ns, s => do
    let (r, s) ← fileread f (u32 n) s
    let (rs, s) ← readVector f ns s
    return (⟨r.ret + rs.ret, r.out ++ rs.out, none, none⟩, s)

def syscallReadVector (f : Nat) (ns : List Nat) (s : State) : Except Halt (Result × State) :=
  s.withFile f fun _ => if IOVMAX ≤ ns.length then .ok (.only (-1), s) else readVector f ns s

/-- The loop of `syscallWriteVector`, over what is in the buffers. -/
def writeVector (f : Nat) : List (List Byte) → State → Except Halt (Int × State)
  | [], s => .ok (0, s)
  | bs :: bss, s => do
    let (r, s) ← if 0 < bs.length then filewrite f bs s else .ok (0, s)
    let (len, s) ← writeVector f bss s
    return (r + len, s)

def syscallWriteVector (f : Nat) (bss : List (List Byte)) (s : State) : Except Halt (Result × State) :=
  s.withFile f fun _ =>
    if IOVMAX ≤ bss.length then .ok (.only (-1), s)
    else do
      let (r, s) ← writeVector f bss s
      return (.only r, s)

def syscallFtruncate (f : Nat) (len : Int) (s : State) : Except Halt (Result × State) :=
  s.withFile f fun file =>
    if len < 0 then .ok (.only (-1), s)
    else if len = 0 then do
      let volume ← onVolume (s.volume.trunc file.dirMeta)
      return (.only 0, { s with volume })
    else .error .metaResize

/-! ## `copy_file_range` -/

/-- The offset `r` further: the one in `cell`, or that of the file if there is none. -/
def advance (f : Nat) (file : File) (cell : Option Nat) (r : Int) (s : State) : Option Nat × State :=
  match cell with
  | none => (none, s.setOff f file (plus 32 file.off r))
  | some x => (some (plus 64 x r), s)

def readAt (f : Nat) (cell : Option Nat) (n : Nat) (s : State) : Except Halt ((Int × List Byte) × Option Nat × State) :=
  match s.files f with
  | none => .error .null
  | some file => do
    let (r, dst, volume) ← onVolume (s.volume.read file.dirMeta (u32 (cell.getD file.off)) n)
    return ((r, dst), advance f file cell r { s with volume })

def writeAt (f : Nat) (cell : Option Nat) (buffer : List Byte) (r : Int) (s : State) : Except Halt (Int × Option Nat × State) :=
  match s.files f with
  | none => .error .null
  | some file => do
    let (r, volume) ← onVolume (s.volume.write file.dirMeta (fun i => buffer.getD i 0) (u32 (cell.getD file.off)) (plus 32 0 r))
    return (r, advance f file cell r { s with volume })

/-- The loop of `syscallCopyFileRange`, for so many turns. -/
def copyLoop (i o : Nat) : Nat → Option Nat → Option Nat → Nat → State → Except Halt (Result × State)
  | 0, x, y, _, s => .ok (⟨0, [], x, y⟩, s)
  | turns + 1, x, y, len, s =>
    if len = 0 then .ok (⟨0, [], x, y⟩, s)
    else do
      let ((r, dst), x, s) ← readAt i x (min len bufSize) s
      let (r, y, s) ← writeAt o y dst r s
      if r = min len bufSize then
        let (rest, s) ← copyLoop i o turns x y (len - min len bufSize) s
        return ({ rest with ret := r + rest.ret }, s)
      else return (⟨r, [], x, y⟩, s)

/-- `x` and `y` are the offsets at `off_in` and `off_out`, where there are any. For the first comparison the source copies the
eight bytes at `off_in` into an `int`, and so over the four bytes of its stack behind it; that is left out. Neither flag of the
files is looked at, and a closed one is a NULL that is used. -/
def syscallCopyFileRange (i o : Nat) (x y : Option Nat) (len : Nat) (s : State) : Except Halt (Result × State) :=
  match s.files i with
  | none => .error .null
  | some file =>
    if (s.volume.dirMetas file.dirMeta).fileSize ≤ u32 (x.getD file.off) then .ok (⟨0, [], x, y⟩, s)
    else copyLoop i o len x y len s

/-! ## What the calls are for -/

/-- The bytes of every file, and the open files. -/
structure View where
  bytes : Nat → List Byte
  files : Nat → Option File

def State.view (s : State) : View := ⟨s.volume.contents, s.files⟩

/-- At most `n` of the bytes from `off` on; a range that 32 bits do not hold is empty. -/
def View.slice (v : View) (i off n : Nat) : List Byte :=
  if 2 ^ 32 ≤ off + n then [] else ((v.bytes i).drop off).take n

/-- `bs` put at `off`. -/
def View.put (v : View) (i off : Nat) (bs : List Byte) : View :=
  { v with bytes := update v.bytes i (overwrite (v.bytes i) (fun j => bs.getD j 0) off bs.length) }

def View.set (v : View) (f : Nat) (file : File) : View := { v with files := update v.files f (some file) }

def View.seek (v : View) (f : Nat) (file : File) (off : Nat) : View := v.set f { file with off }

/-- A file after `n` bytes that begin at `cell`, or where it stands if there is none. -/
def File.past (file : File) (cell : Option Nat) (n : Nat) : File :=
  { file with off := if cell.isNone then file.off + n else file.off }

/-- What comes to buffers of the lengths `ns`. -/
def pieces : List Nat → List Byte → List (List Byte)
  | [], _ => []
  | n :: ns, bs => bs.take n :: pieces ns (bs.drop n)

inductive Call
  | openEntry (f i flags : Nat)
  | close (f : Nat)
  | read (f : Nat) (len : Int)
  | write (f : Nat) (bs : List Byte)
  | lseek (f offset : Nat) (mode : Int)
  | pread (f n off : Nat)
  | pwrite (f : Nat) (bs : List Byte) (off : Nat)
  | readv (f : Nat) (ns : List Nat)
  | writev (f : Nat) (bss : List (List Byte))
  | ftruncate (f : Nat) (len : Int)
  | copyFileRange (i o : Nat) (x y : Option Nat) (len : Nat)

def Call.exec : Call → State → Except Halt (Result × State)
  | .openEntry f i flags, s => Entry.openEntry f i flags s
  | .close f, s => Entry.close f s
  | .read f len, s => syscallRead f len s
  | .write f bs, s => syscallWrite f bs s
  | .lseek f offset mode, s => syscallLseek f offset mode s
  | .pread f n off, s => syscallPRead f n off s
  | .pwrite f bs off, s => syscallPWrite f bs off s
  | .readv f ns, s => syscallReadVector f ns s
  | .writev f bss, s => syscallWriteVector f bss s
  | .ftruncate f len, s => syscallFtruncate f len s
  | .copyFileRange i o x y len, s => syscallCopyFileRange i o x y len s

def View.withFile (v : View) (f : Nat) (call : File → Result × View) : Result × View :=
  match v.files f with
  | none => (.only (-1), v)
  | some file => call file

/-- How many bytes a copy moves. -/
def View.span (v : View) (i x len : Nat) : Nat := min len ((v.bytes i).length - x)

/-- `n` bytes copied from file `src` to file `dst`. -/
def View.copied (v : View) (i o : Nat) (src dst : File) (x y : Option Nat) (n : Nat) : View :=
  ((v.put dst.dirMeta (y.getD dst.off) (((v.bytes src.dirMeta).drop (x.getD src.off)).take n)).set i (src.past x n)).set o
    (dst.past y n)

/-- **What a call does**, seen from outside. -/
def Call.spec : Call → View → Result × View
  | .openEntry f i flags, v =>
    let bytes := if flags &&& Dir.O_TRUNC ≠ 0 then update v.bytes i [] else v.bytes
    (.only f, ⟨bytes, update v.files f (some
      { readable := flags &&& Files.O_WRONLY = 0
        writable := flags &&& Files.O_WRONLY ≠ 0 ∨ flags &&& Files.O_RDWR ≠ 0
        off := if flags &&& Tmpfiles.O_APPEND ≠ 0 then (bytes i).length else 0
        dirMeta := i })⟩)
  | .close f, v => (.only 0, { v with files := update v.files f none })
  | .read f len, v => v.withFile f fun file =>
    if len < 0 ∨ file.readable = false then (.only (-1), v)
    else
      let bs := v.slice file.dirMeta file.off len.toNat
      (⟨bs.length, [bs], none, none⟩, v.seek f file (file.off + bs.length))
  | .write f bs, v => v.withFile f fun file =>
    if file.writable = false ∨ 2 ^ 32 ≤ file.off + bs.length then (.only (-1), v)
    else (.only bs.length, (v.put file.dirMeta file.off bs).seek f file (file.off + bs.length))
  | .lseek f offset mode, v => v.withFile f fun file =>
    let seek (base : Nat) : Result × View := (.only (u64 (offset + base) : Nat), v.seek f file (u32 (offset + base)))
    if mode = TmpBytes.SEEK_SET then seek 0
    else if mode = TmpBytes.SEEK_CUR then seek file.off
    else if mode = TmpBytes.SEEK_END then seek (v.bytes file.dirMeta).length
    else (.only (-1), v)
  | .pread f n off, v => v.withFile f fun file =>
    let bs := v.slice file.dirMeta (u32 off) n
    (⟨bs.length, [bs], none, none⟩, v)
  | .pwrite f bs off, v => v.withFile f fun file =>
    if 2 ^ 32 ≤ u32 off + bs.length then (.only (-1), v)
    else (.only bs.length, v.put file.dirMeta (u32 off) bs)
  | .readv f ns, v => v.withFile f fun file =>
    if IOVMAX ≤ ns.length then (.only (-1), v)
    else if file.readable = false then (.only (-ns.length), v)
    else
      let bs := v.slice file.dirMeta file.off ns.sum
      (⟨bs.length, pieces ns bs, none, none⟩, v.seek f file (file.off + bs.length))
  | .writev f bss, v => v.withFile f fun file =>
    if IOVMAX ≤ bss.length then (.only (-1), v)
    else if file.writable = false then (.only (-(bss.filter (· ≠ [])).length), v)
    else (.only bss.flatten.length, (v.put file.dirMeta file.off bss.flatten).seek f file (file.off + bss.flatten.length))
  | .ftruncate f len, v => v.withFile f fun file =>
    if len < 0 then (.only (-1), v) else (.only 0, { v with bytes := update v.bytes file.dirMeta [] })
  | .copyFileRange i o x y len, v =>
    match v.files i, v.files o with
    | some src, some dst =>
      let n := v.span src.dirMeta (x.getD src.off) len
      (⟨n, [], x.map (· + n), y.map (· + n)⟩, v.copied i o src dst x y n)
    | _, _ => (.only (-1), v)

/-! ## The volume under the calls -/

section Volume

variable {s₀ v v' : FatState} {i j off n : Nat}

/-- What an operation on file `i` leaves to that file, it leaves to all. -/
theorem update_field {α : Type} {fs : FileSystem} {dm : DirMeta} (field : DirMeta → α) (h : field dm = field (v.dirMetas i)) (j : Nat) :
    field ((v.update i fs dm).dirMetas j) = field (v.dirMetas j) := by
  show field (if j = i then dm else v.dirMetas j) = _
  split
  · rename_i hji
    rw [h, hji]
  · rfl

theorem regular_update {fs : FileSystem} {dm : DirMeta} (hdev : dm.dev = (v.dirMetas i).dev) (hattr : dm.attr = (v.dirMetas i).attr)
    (hj : Regular s₀ v j) : Regular s₀ (v.update i fs dm) j := by
  have hattr' : ((v.update i fs dm).dirMetas j).attr = (v.dirMetas j).attr := update_field DirMeta.attr hattr j
  refine ⟨hj.created, (update_field DirMeta.dev hdev j).trans hj.dev, ?_, ?_⟩
  · rw [hattr']
    exact hj.no_directory
  · rw [hattr']
    exact hj.writable

theorem update_same (v : FatState) (i : Nat) : v.update i v.fs (v.dirMetas i) = v := by
  show FatState.mk v.fs (v.update i v.fs (v.dirMetas i)).dirMetas v.free = v
  rw [show (v.update i v.fs (v.dirMetas i)).dirMetas = v.dirMetas from funext (update_field id rfl)]

/-- What `View.slice` takes from the bytes of a volume. -/
theorem slice_contents (hlt : off + n < 2 ^ 32) (files : Nat → Option File) :
    (View.mk v.contents files).slice i off n = ((v.contents i).drop off).take n := if_neg (by omega)

theorem size_lt (h : FileInv s₀ v) (hi : Regular s₀ v i) : (v.contents i).length < 2 ^ 32 := by
  unfold FatState.contents
  rw [length_fileBytes]
  exact (h.plain i hi.created.1 hi.created.2 hi.no_directory).size_lt

/-- **A read** of a regular file, at whatever offset: what can be seen of the volume stays. -/
theorem read_volume (h : FileInv s₀ v) (hi : Regular s₀ v i) (hoff : off < 2 ^ 32) (hn : n < 2 ^ 32) (files : Nat → Option File) :
    ∃ v', v.read i off n = .ok (i32 ((View.mk v.contents files).slice i off n).length, (View.mk v.contents files).slice i off n, v') ∧
      FileInv s₀ v' ∧ v'.contents = v.contents ∧ (∀ j, Regular s₀ v j → Regular s₀ v' j) ∧
      ∀ j off n, Suffices v j off n → Suffices v' j off n := by
  by_cases hlt : off + n < 2 ^ 32
  · have hp := h.plain i hi.created.1 hi.created.2 hi.no_directory
    have hinv := h.volume.inv
    obtain ⟨cur, cnt, -, hmeta⟩ := metaRead_eq hinv.superBlock (hinv.files.file i) (by rw [hi.dev]; decide) hi.no_directory hp.full
      hp.top (h.volume.sized i) hp.size_lt hp.cur hlt
    obtain ⟨v', hr, hinv', hsame⟩ := h.read hi hlt
    obtain rfl : v.update i v.fs { v.dirMetas i with curClus := cur, clusCnt := cnt } = v' := by
      unfold FatState.read at hr
      rw [hmeta] at hr
      exact (Prod.mk.inj (Prod.mk.inj (Except.ok.inj hr)).2).2
    refine ⟨_, ?_, hinv', funext hsame, fun j hj => regular_update (by rfl) (by rfl) hj, fun j off' n' hs => ⟨?_, hs.positions, ?_⟩⟩
    · rw [hr, slice_contents hlt, List.length_take, List.length_drop]
    · -- only where the file was read last has changed
      unfold FatState.chainOf chain
      rw [update_field DirMeta.firstClus (by rfl) j]
      exact hs.clusters
    · rw [update_field DirMeta.inodeMaxCluster (by rfl) j]
      exact hs.inodes
  · -- the end of the range is cut to 32 bits, and lies before its start
    have hslice : (View.mk v.contents files).slice i off n = [] := if_pos (by omega)
    have hu : u32 (off + n) < off := by
      unfold u32
      omega
    refine ⟨v, ?_, h, rfl, fun _ hj => hj, fun _ _ _ hs => hs⟩
    rw [hslice]
    have hmeta : metaRead v.fs (v.dirMetas i) off n = .ok (0, [], v.fs, v.dirMetas i) := by
      unfold metaRead
      rw [hi.dev, if_neg (by decide), if_neg (by decide), if_pos (.inr (.inl hu))]
    unfold FatState.read
    rw [hmeta, ok_bind]
    dsimp only
    rw [update_same]
    rfl

/-- What the rest of a cache takes. -/
theorem inodesBetween_rest {k k' m room : Nat} (hk : k ≤ k') (hm : inodesBetween k m ≤ room) :
    inodesBetween k' m + inodesBetween k k' ≤ max room (inodesBetween k k') := by
  by_cases hle : k' ≤ m
  · have hsum := Finset.sum_Ico_consecutive needAt hk hle
    unfold inodesBetween at *
    omega
  · have hnone : inodesBetween k' m = 0 := by
      unfold inodesBetween
      rw [Finset.Ico_eq_empty (by omega), Finset.sum_empty]
    omega

/-- **A write** to a regular file; what is behind the bytes written finds the room that it had. -/
theorem write_volume (h : FileInv s₀ v) (hi : Regular s₀ v i) (src : Nat → Byte) (hlt : off + n < 2 ^ 32)
    (hfit : Suffices v i off n) :
    ∃ v', v.write i src off n = .ok (i32 n, v') ∧ FileInv s₀ v' ∧
      v'.contents = update v.contents i (overwrite (v.contents i) src off n) ∧
      (∀ j, Regular s₀ v j → Regular s₀ v' j) ∧
      ∀ b, Suffices v i off (n + b) → Suffices v' i (off + n) b := by
  obtain ⟨v', hr, hinv', hself, hother⟩ := h.write hi src hlt hfit
  have hinv := h.volume.inv
  have hacc : ¬ WriteRefused (v.dirMetas i) off n := by
    unfold WriteRefused u32
    rw [hi.dev, hi.writable]
    rintro (hd | hc | hc | hc)
    · cases hd
    · omega
    · omega
    · exact hc rfl
  obtain ⟨L', hs, hwritten⟩ := hinv.write hi.created.2 (fun _ => hfit.clusters) hr
  obtain ⟨-, hw⟩ := hwritten hacc
  obtain ⟨dm₁, hwr, hdm⟩ := hw.written
  have hchain : v'.chainOf i = L' := hs.chainOf.1
  have hsb := hwr.loc.superBlock
  refine ⟨v', hr, hinv', Function.eq_update_iff.mpr ⟨hself, hother⟩, fun j hj => ?_, fun b hall => ?_⟩
  · obtain ⟨⟨r', fs', dm'⟩, hmeta, hr'⟩ := except_bind_ok hr
    cases hr'
    have hdm' : dm' = { dm₁ with fileSize := grownSize (v.dirMetas i) off n } := (FatState.update_self ..).symm.trans hdm
    obtain ⟨hattr, -, hdev⟩ := hwr.fields
    apply regular_update _ _ hj
    · rw [hdm']
      exact hdev
    · rw [hdm']
      exact hattr
  · have hp := h.plain i hi.created.1 hi.created.2 hi.no_directory
    have hfull := hw.full hp.full
    have hfree := hwr.free
    have hpool := hwr.pool
    have hk : dm₁.inodeMaxCluster = L'.length := by rw [← hfull, hdm]
    have hroom := hall.clusters
    have htop := hall.positions
    have hinodes := hall.inodes
    rw [← Nat.add_assoc] at htop hinodes
    have hspan : span v.fs.superBlock (off + n) (off + n + b) ≤ span v.fs.superBlock off (off + n + b) := by
      unfold span
      split
      · rw [if_pos (by omega)]
      · exact Nat.zero_le _
    refine ⟨?_, ?_, ?_⟩
    · rw [hsb, hchain]
      unfold writeSpan at hroom ⊢
      rw [← Nat.add_assoc] at hroom
      omega
    · rw [hsb]
      exact hspan.trans htop
    · rw [hsb, hfull]
      rw [hk] at hpool
      have hmono := inodesBetween_mono (k := L'.length) hspan
      have hrest := inodesBetween_rest hwr.count hinodes
      rw [hk] at hrest
      omega

/-- A write whose range 32 bits do not hold is refused. -/
theorem write_refused (hi : Regular s₀ v i) (src : Nat → Byte) (hoff : off < 2 ^ 32) (hn : n < 2 ^ 32) (hlt : ¬ off + n < 2 ^ 32) :
    v.write i src off n = .ok (-1, v) := by
  have hu : u32 (off + n) < off := by
    unfold u32
    omega
  unfold FatState.write metaWrite
  rw [hi.dev, if_neg (by decide), if_pos (.inl hu), ok_bind]
  dsimp only
  rw [update_same]
  rfl

/-- Emptying a regular file. -/
theorem trunc_volume (h : FileInv s₀ v) (hi : Regular s₀ v i) :
    ∃ v', v.trunc i = .ok v' ∧ FileInv s₀ v' ∧ v'.contents = update v.contents i [] ∧
      ∀ j, Regular s₀ v j → Regular s₀ v' j := by
  obtain ⟨v', hr, hinv', hself, hother⟩ := h.trunc hi
  obtain ⟨v₁, hr₁, -, -, hdm⟩ := h.volume.inv.trunc hi.created.2
  obtain rfl : v₁ = v' := Except.ok.inj (hr₁.symm.trans hr)
  refine ⟨v₁, hr, hinv', Function.eq_update_iff.mpr ⟨hself, hother⟩, fun j hj => ?_⟩
  obtain ⟨⟨fs', dm'⟩, hmeta, hr'⟩ := except_bind_ok hr
  cases hr'
  have hdm' : dm' = { v.dirMetas i with fileSize := 0, firstClus := 0, inodeMaxCluster := 0 } :=
    (FatState.update_self ..).symm.trans hdm
  apply regular_update _ _ hj
  · rw [hdm']
  · rw [hdm']

end Volume

/-! ## The open files -/

/-- Every open file is one that was created since `s₀`, at an offset of 32 bits. -/
structure Inv (s₀ : FatState) (s : State) : Prop where
  volume : FileInv s₀ s.volume
  file : ∀ f file, s.files f = some file → Regular s₀ s.volume file.dirMeta ∧ file.off < 2 ^ 32

section Files

variable {s₀ v' : FatState} {s s' : State} {f i o n : Nat} {file : File} {v : View} {off : Nat} {d : List Byte}
  {bs : List Byte} {ns : List Nat} {cell : Option Nat}

theorem Inv.setVolume (h : Inv s₀ s) (hv : FileInv s₀ v') (hk : ∀ j, Regular s₀ s.volume j → Regular s₀ v' j) :
    Inv s₀ { s with volume := v' } :=
  ⟨hv, fun g file hg => ⟨hk _ (h.file g file hg).1, (h.file g file hg).2⟩⟩

theorem Inv.setFile (h : Inv s₀ s) (hi : Regular s₀ s.volume file.dirMeta) (hoff : file.off < 2 ^ 32) :
    Inv s₀ { s with files := update s.files f (some file) } := by
  refine ⟨h.volume, fun g file' hg => ?_⟩
  by_cases hgf : g = f
  · rw [hgf] at hg
    cases (update_self f (some file) s.files).symm.trans hg
    exact ⟨hi, hoff⟩
  · exact h.file g file' ((update_of_ne hgf _ _).symm.trans hg)

theorem set_same (hf : v.files f = some file) : v.set f file = v := by
  unfold View.set
  rw [← hf, update_eq_self]

theorem set_set (v : View) (f : Nat) (a b : File) : (v.set f a).set f b = v.set f b := by
  unfold View.set
  rw [update_idem]

theorem set_comm (v : View) (hio : i ≠ o) (a b : File) : (v.set i a).set o b = (v.set o b).set i a := by
  unfold View.set
  rw [Function.update_comm hio.symm]

theorem plus_eq {w x m : Nat} (h : x + m < 2 ^ w) : plus w x m = x + m := by
  unfold plus
  rw [← Int.natCast_add, ← Nat.cast_ofNat, ← Nat.cast_pow, ← Int.natCast_mod, Int.toNat_natCast, Nat.mod_eq_of_lt h]

/-- What is read lies in the file. -/
theorem slice_le (v : View) (i off n : Nat) : (v.slice i off n).length ≤ n ∧ (v.slice i off n).length ≤ (v.bytes i).length - off := by
  unfold View.slice
  split
  · exact ⟨Nat.zero_le _, Nat.zero_le _⟩
  · rw [List.length_take, List.length_drop]
    exact ⟨Nat.min_le_left _ _, Nat.min_le_right _ _⟩

/-- Where a read ends is an offset of 32 bits. -/
theorem slice_end (h : FileInv s₀ s.volume) (hi : Regular s₀ s.volume i) (hoff : off < 2 ^ 32) (n : Nat) :
    off + (s.view.slice i off n).length < 2 ^ 32 := by
  have hsize := size_lt h hi
  have hle := (slice_le s.view i off n).2
  have hbytes : (s.view.bytes i).length = (s.volume.contents i).length := rfl
  omega

/-- `metaRead` on an open file. -/
theorem Inv.read (h : Inv s₀ s) (hf : s.files f = some file) (hoff : off < 2 ^ 32) (hn : n < 2 ^ 31)
    (hd : d = s.view.slice file.dirMeta off n) :
    ∃ v', s.volume.read file.dirMeta off n = .ok ((d.length : Int), d, v') ∧ off + d.length < 2 ^ 32 ∧ Inv s₀ ⟨v', s.files⟩ ∧
      (State.mk v' s.files).view = s.view ∧ ∀ j off n, Suffices s.volume j off n → Suffices v' j off n := by
  obtain ⟨hi, -⟩ := h.file f file hf
  obtain ⟨v', hread, hinv, hcontents, hk, hfits⟩ := read_volume h.volume hi hoff (Nat.lt_trans hn (by decide)) s.files
  have hend := slice_end h.volume hi hoff n
  have hle := (slice_le s.view file.dirMeta off n).1
  change s.volume.read file.dirMeta off n = .ok (i32 (s.view.slice file.dirMeta off n).length, s.view.slice file.dirMeta off n, v') at hread
  rw [← hd] at hread hend hle
  rw [i32_of_lt (by omega)] at hread
  refine ⟨v', hread, hend, h.setVolume hinv hk, ?_, hfits⟩
  unfold State.view
  rw [hcontents]

/-- `metaWrite` on an open file. -/
theorem Inv.write (h : Inv s₀ s) (hf : s.files f = some file) (hn : bs.length < 2 ^ 31)
    (hlt : off + bs.length < 2 ^ 32) (hfit : Suffices s.volume file.dirMeta off bs.length) :
    ∃ v', s.volume.write file.dirMeta (fun j => bs.getD j 0) off bs.length = .ok ((bs.length : Int), v') ∧ Inv s₀ ⟨v', s.files⟩ ∧
      (State.mk v' s.files).view = s.view.put file.dirMeta off bs ∧
      ∀ b, Suffices s.volume file.dirMeta off (bs.length + b) → Suffices v' file.dirMeta (off + bs.length) b := by
  obtain ⟨v', hwrite, hinv, hcontents, hk, hrest⟩ := write_volume h.volume (h.file f file hf).1 (fun j => bs.getD j 0) hlt hfit
  rw [i32_of_lt hn] at hwrite
  refine ⟨v', hwrite, h.setVolume hinv hk, ?_, hrest⟩
  unfold State.view View.put
  rw [hcontents]

/-- A file that is moved to an offset of 32 bits. -/
theorem Inv.seek (h : Inv s₀ s) (hf : s.files f = some file) (hoff : off < 2 ^ 32) : Inv s₀ (s.setOff f file off) :=
  h.setFile (h.file f file hf).1 hoff

/-- **`fileread`** gives the bytes at the offset and moves it behind them. -/
theorem fileread_ok (h : Inv s₀ s) (hf : s.files f = some file) (hr : file.readable = true) (hn : n < 2 ^ 31)
    (hd : d = s.view.slice file.dirMeta file.off n) :
    ∃ s', fileread f n s = .ok (⟨d.length, [d], none, none⟩, s') ∧ Inv s₀ s' ∧ s'.view = s.view.seek f file (file.off + d.length) := by
  obtain ⟨v', hread, hend, hinv, hview, -⟩ := h.read hf (h.file f file hf).2 hn hd
  unfold fileread onVolume
  rw [hf]
  dsimp only
  rw [hr, if_neg (by decide), hread]
  by_cases hlen : 0 < d.length
  · refine ⟨_, congrArg Except.ok (congrArg _ (if_pos (Int.natCast_pos.mpr hlen))), ?_, ?_⟩
    · rw [plus_eq hend]
      exact hinv.seek hf hend
    · rw [plus_eq hend, ← hview]
      rfl
  · refine ⟨_, congrArg Except.ok (congrArg _ (if_neg (by omega))), hinv, ?_⟩
    rw [hview, show d.length = 0 by omega]
    exact (set_same hf).symm

theorem fileread_unreadable (hf : s.files f = some file) (hr : file.readable = false) : fileread f n s = .ok (.only (-1), s) := by
  unfold fileread
  rw [hf]
  exact if_pos hr

theorem filewrite_unwritable (hf : s.files f = some file) (hw : file.writable = false) :
    filewrite f bs s = .ok (-1, s) := by
  unfold filewrite
  rw [hf]
  exact if_pos hw

/-- **`filewrite`** puts the bytes at the offset and moves it behind them. -/
theorem filewrite_ok (h : Inv s₀ s) (hf : s.files f = some file) (hw : file.writable = true)
    (hn : bs.length < 2 ^ 31) (hlt : file.off + bs.length < 2 ^ 32) (hfit : Suffices s.volume file.dirMeta file.off bs.length) :
    ∃ s', filewrite f bs s = .ok (bs.length, s') ∧ Inv s₀ s' ∧
      s'.view = (s.view.put file.dirMeta file.off bs).seek f file (file.off + bs.length) ∧
      ∀ b, Suffices s.volume file.dirMeta file.off (bs.length + b) → Suffices s'.volume file.dirMeta (file.off + bs.length) b := by
  obtain ⟨v', hwrite, hinv, hview, hrest⟩ := h.write hf hn hlt hfit
  have hu : u32 bs.length = bs.length := Nat.mod_eq_of_lt (by omega)
  unfold filewrite onVolume
  rw [hf]
  dsimp only
  rw [hw, if_neg (by decide), hu, hwrite, i32_of_lt hn, plus_eq hlt]
  refine ⟨_, congrArg Except.ok (if_pos rfl), hinv.seek hf hlt, ?_, hrest⟩
  rw [← hview]
  rfl

/-- A write whose range 32 bits do not hold. -/
theorem filewrite_refused (h : Inv s₀ s) (hf : s.files f = some file) (hw : file.writable = true)
    (hn : bs.length < 2 ^ 31) (hlt : ¬ file.off + bs.length < 2 ^ 32) : filewrite f bs s = .ok (-1, s) := by
  obtain ⟨hi, hoff⟩ := h.file f file hf
  have hu : u32 bs.length = bs.length := Nat.mod_eq_of_lt (by omega)
  have hwrite := write_refused hi (fun j => bs.getD j 0) hoff (by omega) hlt
  unfold filewrite onVolume
  rw [hf]
  dsimp only
  rw [hw, if_neg (by decide), hu, hwrite, i32_of_lt hn]
  exact congrArg Except.ok (if_neg (by simp only []; omega))

/-! ## Vectors of buffers -/

theorem suffices_le {v : FatState} {off m : Nat} (h : Suffices v i off m) (hle : n ≤ m) : Suffices v i off n := by
  have hspan : span v.fs.superBlock off (off + n) ≤ span v.fs.superBlock off (off + m) := by
    unfold span
    split
    · rw [if_pos (by omega)]
      exact Nat.succ_le_succ (Nat.div_le_div_right (by omega))
    · exact Nat.zero_le _
  have hroom := h.clusters
  refine ⟨?_, hspan.trans h.positions, (inodesBetween_mono hspan).trans h.inodes⟩
  unfold writeSpan at hroom ⊢
  omega

theorem overwrite_nil (bs : List Byte) (src : Nat → Byte) (off : Nat) : overwrite bs src off 0 = bs := if_pos rfl

theorem put_nil (v : View) (i off : Nat) : v.put i off [] = v := by
  unfold View.put
  rw [List.length_nil, overwrite_nil, update_eq_self]

/-- Bytes put behind others. -/
theorem put_put (v : View) (i off : Nat) (as bs : List Byte) : (v.put i off as).put i (off + as.length) bs = v.put i off (as ++ bs) := by
  by_cases has : as = []
  · rw [has, put_nil, List.nil_append]
    rfl
  by_cases hbs : bs = []
  · rw [hbs, put_nil, List.append_nil]
  have ha : 0 < as.length := List.length_pos_iff.mpr has
  have hb : 0 < bs.length := List.length_pos_iff.mpr hbs
  unfold View.put
  dsimp only
  rw [update_idem, update_self]
  congr 2
  unfold overwrite
  rw [List.length_append, if_neg (by omega), if_neg (by omega), if_neg (by omega), List.length_map, List.length_range]
  rw [show max (max (v.bytes i).length (off + as.length)) (off + as.length + bs.length) =
    max (v.bytes i).length (off + (as.length + bs.length)) by omega]
  refine List.map_congr_left fun j hj => ?_
  have hj := List.mem_range.mp hj
  by_cases h₂ : off + as.length ≤ j
  · by_cases h₃ : j < off + as.length + bs.length
    · rw [if_pos ⟨h₂, h₃⟩, if_pos (by omega)]
      dsimp only
      rw [List.getD_append_right _ _ _ _ (by omega)]
      congr 1
      omega
    · rw [if_neg (by omega), if_neg (by omega), List.getD_eq_getElem _ _ (by simp; omega), List.getElem_map, List.getElem_range,
        if_neg (by omega)]
  · rw [if_neg (by omega), List.getD_eq_getElem _ _ (by simp; omega), List.getElem_map, List.getElem_range]
    by_cases h₁ : off ≤ j
    · rw [if_pos (by omega), if_pos (by omega)]
      dsimp only
      rw [List.getD_append _ _ _ _ (by omega)]
    · rw [if_neg (by omega), if_neg (by omega)]

/-- A read goes on where a shorter one has ended. -/
theorem take_add_length (L : List Byte) (n m : Nat) : L.take (n + m) = L.take n ++ (L.drop (L.take n).length).take m := by
  rw [List.take_add, List.length_take]
  rcases Nat.le_total n L.length with hle | hle
  · rw [Nat.min_eq_left hle]
  · rw [Nat.min_eq_right hle, List.drop_length, List.drop_of_length_le hle]

theorem slice_add {off n m : Nat} (hlt : off + (n + m) < 2 ^ 32) :
    v.slice i off (n + m) = v.slice i off n ++ v.slice i (off + (v.slice i off n).length) m := by
  have hle := (slice_le v i off n).1
  have hfirst : v.slice i off n = ((v.bytes i).drop off).take n := if_neg (by omega)
  have hall : v.slice i off (n + m) = ((v.bytes i).drop off).take (n + m) := if_neg (by omega)
  have hrest : v.slice i (off + (v.slice i off n).length) m = ((v.bytes i).drop (off + (v.slice i off n).length)).take m :=
    if_neg (by omega)
  rw [hrest, hall, take_add_length, ← List.drop_drop, hfirst]

/-- The first buffer takes the first read. -/
theorem pieces_append {as bs : List Byte} (hle : as.length ≤ n) (hbs : as.length < n → bs = []) :
    pieces (n :: ns) (as ++ bs) = as :: pieces ns bs := by
  show (as ++ bs).take n :: pieces ns ((as ++ bs).drop n) = _
  by_cases hlt : as.length < n
  · rw [hbs hlt, List.append_nil, List.take_of_length_le hle, List.drop_of_length_le hle]
  · rw [List.take_left' (by omega), List.drop_left' (by omega)]

/-- A read that falls short leaves nothing to read. -/
theorem slice_short {off n : Nat} (hlt : off + n < 2 ^ 32) (hshort : (v.slice i off n).length < n) (m : Nat) :
    v.slice i (off + (v.slice i off n).length) m = [] := by
  rw [show v.slice i off n = ((v.bytes i).drop off).take n from if_neg (by omega)] at hshort ⊢
  rw [List.length_take, List.length_drop] at hshort ⊢
  unfold View.slice
  rw [List.drop_of_length_le (by omega), List.take_nil, ite_self]

/-- **Reading a vector** is one read of the lengths together. -/
theorem readVector_ok (h : Inv s₀ s) (hf : s.files f = some file) (hr : file.readable = true)
    (hn : ∀ n ∈ ns, n < 2 ^ 31) (hlt : file.off + ns.sum < 2 ^ 32) :
    ∃ s', readVector f ns s = .ok (⟨(s.view.slice file.dirMeta file.off ns.sum).length,
        pieces ns (s.view.slice file.dirMeta file.off ns.sum), none, none⟩, s') ∧
      Inv s₀ s' ∧ s'.view = s.view.seek f file (file.off + (s.view.slice file.dirMeta file.off ns.sum).length) := by
  induction ns generalizing s file with
  | nil =>
    have hnone : s.view.slice file.dirMeta file.off [].sum = [] := by
      unfold View.slice
      rw [List.sum_nil, List.take_zero, ite_self]
    rw [hnone]
    exact ⟨s, rfl, h, (set_same hf).symm⟩
  | cons n ns ih =>
    have hn₁ := hn n List.mem_cons_self
    rw [List.sum_cons] at hlt ⊢
    obtain ⟨s₁, hread, hinv₁, hview₁⟩ := fileread_ok h hf hr hn₁ rfl
    have hle := (slice_le s.view file.dirMeta file.off n).1
    have hf₁ : s₁.files f = some { file with off := file.off + (s.view.slice file.dirMeta file.off n).length } := by
      rw [show s₁.files = s₁.view.files from rfl, hview₁]
      exact update_self ..
    obtain ⟨s₂, hrest, hinv₂, hview₂⟩ := ih hinv₁ hf₁ hr (fun m hm => hn m (List.mem_cons_of_mem _ hm)) (by dsimp only; omega)
    have hslice : ∀ off m, s₁.view.slice file.dirMeta off m = s.view.slice file.dirMeta off m := fun off m => by
      rw [hview₁]
      rfl
    rw [hslice] at hrest hview₂
    have hu : u32 n = n := Nat.mod_eq_of_lt (by omega)
    have hpieces : pieces (n :: ns) (s.view.slice file.dirMeta file.off (n + ns.sum)) =
        s.view.slice file.dirMeta file.off n ::
          pieces ns (s.view.slice file.dirMeta (file.off + (s.view.slice file.dirMeta file.off n).length) ns.sum) := by
      rw [slice_add hlt]
      exact pieces_append hle fun hshort => slice_short (by omega) hshort _
    refine ⟨s₂, ?_, hinv₂, ?_⟩
    · rw [hpieces, slice_add hlt, List.length_append]
      unfold readVector
      rw [hu, hread, ok_bind]
      dsimp only
      rw [hrest, ok_bind]
      rfl
    · rw [hview₂, hview₁, slice_add hlt, List.length_append, ← Nat.add_assoc]
      exact set_set ..

theorem readVector_refused (hf : s.files f = some file) (hr : file.readable = false) :
    readVector f ns s = .ok (.only (-ns.length), s) := by
  induction ns with
  | nil => rfl
  | cons n ns ih =>
    unfold readVector
    rw [fileread_unreadable hf hr, ok_bind]
    dsimp only
    rw [ih, ok_bind]
    show Except.ok (Result.only (-1 + -ns.length), s) = _
    rw [List.length_cons, Nat.cast_succ, Int.neg_add, Int.add_comm]

/-- **Writing a vector** is one write of the buffers together. -/
theorem writeVector_ok {bss : List (List Byte)} (h : Inv s₀ s) (hf : s.files f = some file) (hw : file.writable = true)
    (hn : ∀ bs ∈ bss, bs.length < 2 ^ 31) (hlt : file.off + bss.flatten.length < 2 ^ 32)
    (hfit : Suffices s.volume file.dirMeta file.off bss.flatten.length) :
    ∃ s', writeVector f bss s = .ok (bss.flatten.length, s') ∧ Inv s₀ s' ∧
      s'.view = (s.view.put file.dirMeta file.off bss.flatten).seek f file (file.off + bss.flatten.length) := by
  induction bss generalizing s file with
  | nil =>
    refine ⟨s, rfl, h, ?_⟩
    rw [List.flatten_nil, put_nil]
    exact (set_same hf).symm
  | cons bs bss ih =>
    have hrest := fun bs' hbs' => hn bs' (List.mem_cons_of_mem bs hbs')
    rw [List.flatten_cons, List.length_append] at *
    by_cases hbs : 0 < bs.length
    · obtain ⟨s₁, hwrite, hinv₁, hview₁, hfit₁⟩ := filewrite_ok h hf hw (hn bs List.mem_cons_self) (by omega)
        (suffices_le hfit (Nat.le_add_right _ _))
      have hf₁ : s₁.files f = some { file with off := file.off + bs.length } := by
        rw [show s₁.files = s₁.view.files from rfl, hview₁]
        exact update_self ..
      obtain ⟨s₂, hwrite₂, hinv₂, hview₂⟩ := ih hinv₁ hf₁ hw hrest (by dsimp only; omega) (hfit₁ _ hfit)
      refine ⟨s₂, ?_, hinv₂, ?_⟩
      · unfold writeVector
        rw [if_pos hbs, hwrite, ok_bind]
        dsimp only
        rw [hwrite₂, ok_bind, Nat.cast_add]
        rfl
      · rw [hview₂, hview₁, ← put_put, ← Nat.add_assoc]
        exact set_set ((s.view.put file.dirMeta file.off bs).put file.dirMeta (file.off + bs.length) bss.flatten) f _ _
    · obtain rfl := List.length_eq_zero_iff.mp (Nat.eq_zero_of_not_pos hbs)
      rw [List.length_nil, Nat.zero_add] at hlt hfit
      obtain ⟨s₁, hwrite, hinv, hview⟩ := ih h hf hw hrest hlt hfit
      refine ⟨s₁, ?_, hinv, ?_⟩
      · unfold writeVector
        rw [if_neg hbs, ok_bind]
        dsimp only
        rw [hwrite, ok_bind, List.length_nil, Nat.zero_add, Int.zero_add]
        rfl
      · rw [hview, List.nil_append, List.length_nil, Nat.zero_add]

theorem writeVector_refused {bss : List (List Byte)} (hf : s.files f = some file) (hw : file.writable = false) :
    writeVector f bss s = .ok (-(bss.filter (· ≠ [])).length, s) := by
  induction bss with
  | nil => rfl
  | cons bs bss ih =>
    unfold writeVector
    by_cases hbs : 0 < bs.length
    · rw [if_pos hbs, filewrite_unwritable hf hw, ok_bind]
      dsimp only
      rw [ih, ok_bind, List.filter_cons_of_pos (by simpa using List.length_pos_iff.mp hbs), List.length_cons, Nat.cast_succ,
        Int.neg_add, Int.add_comm]
      rfl
    · rw [if_neg hbs, ok_bind]
      dsimp only
      rw [ih, ok_bind, List.filter_cons_of_neg (by simpa using hbs), Int.zero_add]
      rfl

/-! ## Copying a range -/

theorem past_zero (cell : Option Nat) : file.past cell 0 = file := by
  cases cell <;> rfl

theorem past_past (cell : Option Nat) (n m : Nat) : (file.past cell n).past (cell.map (· + n)) m = file.past cell (n + m) := by
  cases cell
  · simp [File.past, Nat.add_assoc]
  · rfl

/-- Where a file is read next. -/
theorem past_at (cell : Option Nat) (n : Nat) : (cell.map (· + n)).getD (file.past cell n).off = cell.getD file.off + n := by
  cases cell <;> rfl

theorem Inv.advance (h : Inv s₀ s) (hf : s.files f = some file) (hend : cell.getD file.off + n < 2 ^ 32) :
    ∃ s', advance f file cell n s = (cell.map (· + n), s') ∧ Inv s₀ s' ∧ s'.view = s.view.set f (file.past cell n) ∧
      s'.volume = s.volume := by
  cases cell with
  | none =>
    unfold Entry.advance
    rw [show plus 32 file.off n = file.off + n from plus_eq hend]
    exact ⟨_, rfl, h.seek hf hend, rfl, rfl⟩
  | some x =>
    unfold Entry.advance
    dsimp only
    rw [show plus 64 x n = x + n from plus_eq (Nat.lt_trans hend (by decide))]
    exact ⟨s, rfl, h, (set_same hf).symm, rfl⟩

theorem readAt_ok (h : Inv s₀ s) (hf : s.files f = some file) (hcell : cell.getD file.off < 2 ^ 32)
    (hn : n < 2 ^ 31) (hd : d = s.view.slice file.dirMeta (cell.getD file.off) n) :
    ∃ s', readAt f cell n s = .ok ((d.length, d), cell.map (· + d.length), s') ∧ Inv s₀ s' ∧
      s'.view = s.view.set f (file.past cell d.length) ∧
      ∀ j off n, Suffices s.volume j off n → Suffices s'.volume j off n := by
  obtain ⟨v', hread, hend, hinv, hview, hfits⟩ := h.read hf hcell hn hd
  obtain ⟨s', hmoved, hinv', hview', hvolume⟩ := hinv.advance hf hend
  have hu : u32 (cell.getD file.off) = cell.getD file.off := Nat.mod_eq_of_lt hcell
  refine ⟨s', ?_, hinv', by rw [hview', hview], by rwa [hvolume]⟩
  unfold readAt onVolume
  rw [hf]
  dsimp only
  rw [hu, hread]
  exact congrArg (fun moved => Except.ok (_, moved)) hmoved

theorem writeAt_ok (h : Inv s₀ s) (hf : s.files f = some file) (hn : d.length < 2 ^ 31)
    (hlt : cell.getD file.off + d.length < 2 ^ 32) (hfit : Suffices s.volume file.dirMeta (cell.getD file.off) d.length) :
    ∃ s', writeAt f cell d d.length s = .ok (d.length, cell.map (· + d.length), s') ∧ Inv s₀ s' ∧
      s'.view = (s.view.put file.dirMeta (cell.getD file.off) d).set f (file.past cell d.length) ∧
      ∀ b, Suffices s.volume file.dirMeta (cell.getD file.off) (d.length + b) →
        Suffices s'.volume file.dirMeta (cell.getD file.off + d.length) b := by
  obtain ⟨v', hwrite, hinv, hview, hrest⟩ := h.write hf hn hlt hfit
  obtain ⟨s', hmoved, hinv', hview', hvolume⟩ := hinv.advance hf hlt
  have hu : u32 (cell.getD file.off) = cell.getD file.off := Nat.mod_eq_of_lt (by omega)
  have hzero : plus 32 0 d.length = d.length := (plus_eq (by omega)).trans (Nat.zero_add _)
  refine ⟨s', ?_, hinv', by rw [hview', hview], by rwa [hvolume]⟩
  unfold writeAt onVolume
  rw [hf]
  dsimp only
  rw [hu, hzero, hwrite]
  exact congrArg (fun moved => Except.ok (_, moved)) hmoved

theorem copied_zero {src dst : File} (hi : v.files i = some src) (ho : v.files o = some dst) (x y : Option Nat) :
    v.copied i o src dst x y 0 = v := by
  unfold View.copied
  rw [List.take_zero, put_nil, past_zero, past_zero, set_same hi, set_same ho]

/-- A copy goes on where a shorter one has ended. -/
theorem copied_copied (v : View) {src dst : File} (hne : src.dirMeta ≠ dst.dirMeta) (hio : i ≠ o) (x y : Option Nat) {k m : Nat}
    (hk : k ≤ (v.bytes src.dirMeta).length - x.getD src.off) :
    (v.copied i o src dst x y k).copied i o (src.past x k) (dst.past y k) (x.map (· + k)) (y.map (· + k)) m =
      v.copied i o src dst x y (k + m) := by
  have hlen : (((v.bytes src.dirMeta).drop (x.getD src.off)).take k).length = k := by
    rw [List.length_take, List.length_drop]
    exact Nat.min_eq_left hk
  have hsrc : (v.copied i o src dst x y k).bytes src.dirMeta = v.bytes src.dirMeta := update_of_ne hne _ _
  have hput := put_put v dst.dirMeta (y.getD dst.off) (((v.bytes src.dirMeta).drop (x.getD src.off)).take k)
    (((v.bytes src.dirMeta).drop (x.getD src.off + k)).take m)
  rw [hlen, ← List.drop_drop, ← List.take_add] at hput
  unfold View.copied at hsrc ⊢
  rw [past_at, past_at, past_past, past_past, ← hput, List.drop_drop]
  change View.set (View.set (View.put (View.set (View.set _ _ _) _ _) dst.dirMeta _ (List.take m (List.drop _ (View.bytes _ src.dirMeta))))
    _ _) _ _ = _
  rw [hsrc]
  change View.set (View.set (View.set (View.set (View.put (View.put _ _ _ _) _ _ _) _ _) _ _) _ _) _ _ = _
  rw [set_comm _ hio.symm, set_set, set_set]

variable {src dst : File} {x y : Option Nat} {len : Nat}

/-- What a copy needs: two files, and room for what it moves. -/
structure Copies (s : State) (src dst : File) (x y : Option Nat) (len : Nat) : Prop where
  distinct : src.dirMeta ≠ dst.dirMeta
  source : (s.view.bytes src.dirMeta).length + bufSize < 2 ^ 32
  span_lt : s.view.span src.dirMeta (x.getD src.off) len < 2 ^ 31
  target : y.getD dst.off + s.view.span src.dirMeta (x.getD src.off) len < 2 ^ 32
  room : Suffices s.volume dst.dirMeta (y.getD dst.off) (s.view.span src.dirMeta (x.getD src.off) len)

theorem Copies.ne (hc : Copies s src dst x y len) (hi : s.files i = some src) (ho : s.files o = some dst) : i ≠ o := by
  rintro rfl
  exact hc.distinct (congrArg File.dirMeta (Option.some.inj (hi.symm.trans ho)))

/-- **A turn of the loop** copies a piece, and is the last one if that falls short. -/
theorem copyTurn_ok (h : Inv s₀ s) (hi : s.files i = some src) (ho : s.files o = some dst) (hc : Copies s src dst x y len)
    (hx : x.getD src.off ≤ (s.view.bytes src.dirMeta).length) (hlen : len ≠ 0) {k : Nat}
    (hk : k = min (min len bufSize) ((s.view.bytes src.dirMeta).length - x.getD src.off)) :
    ∃ s', Inv s₀ s' ∧ s'.view = s.view.copied i o src dst x y k ∧
      (∀ b, Suffices s.volume dst.dirMeta (y.getD dst.off) (k + b) → Suffices s'.volume dst.dirMeta (y.getD dst.off + k) b) ∧
      (∀ turns rest s'', k = min len bufSize → copyLoop i o turns (x.map (· + k)) (y.map (· + k)) (len - k) s' = .ok (rest, s'') →
        copyLoop i o (turns + 1) x y len s = .ok ({ rest with ret := k + rest.ret }, s'')) ∧
      ∀ turns, k ≠ min len bufSize →
        copyLoop i o (turns + 1) x y len s = .ok (⟨k, [], x.map (· + k), y.map (· + k)⟩, s') := by
  have hsource := hc.source
  have htarget := hc.target
  have hbuf : bufSize = 1024 := rfl
  have hle : k ≤ s.view.span src.dirMeta (x.getD src.off) len := by
    unfold View.span
    omega
  obtain ⟨d, hd⟩ : ∃ d, d = s.view.slice src.dirMeta (x.getD src.off) (min len bufSize) := ⟨_, rfl⟩
  have hpiece : d = ((s.view.bytes src.dirMeta).drop (x.getD src.off)).take (min len bufSize) := by
    rw [hd]
    exact if_neg (by omega)
  obtain rfl : d.length = k := by rw [hpiece, hk, List.length_take, List.length_drop]
  have htake : ((s.view.bytes src.dirMeta).drop (x.getD src.off)).take d.length = d := by
    rw [hpiece, List.length_take, ← List.take_take, List.take_length]
  obtain ⟨s₁, hread, hinv₁, hview₁, hfits₁⟩ := readAt_ok h hi (by omega) (by omega : min len bufSize < 2 ^ 31) hd
  have ho₁ : s₁.files o = some dst := by
    rw [show s₁.files = s₁.view.files from rfl, hview₁]
    exact (update_of_ne (hc.ne hi ho).symm _ _).trans ho
  obtain ⟨s₂, hwrite, hinv₂, hview₂, hfits₂⟩ := writeAt_ok (d := d) hinv₁ ho₁ (by omega) (by omega)
    (hfits₁ _ _ _ (suffices_le hc.room hle))
  refine ⟨s₂, hinv₂, ?_, fun b hb => hfits₂ b (hfits₁ _ _ _ hb), fun turns rest s'' hfull hrest => ?_, fun turns hshort => ?_⟩
  · rw [hview₂, hview₁]
    unfold View.copied
    rw [htake]
    rfl
  · rw [copyLoop, if_neg hlen, hread, ok_bind]
    dsimp only
    rw [hwrite, ok_bind]
    rw [if_pos (by omega), ← hfull, hrest, ok_bind]
    rfl
  · rw [copyLoop, if_neg hlen, hread, ok_bind]
    dsimp only
    rw [hwrite, ok_bind]
    exact if_neg (by omega)

/-- **The loop of `copy_file_range`**, by induction on what is left to copy. -/
theorem copyLoop_ok {turns : Nat} (h : Inv s₀ s) (hi : s.files i = some src) (ho : s.files o = some dst)
    (hc : Copies s src dst x y len) (hx : x.getD src.off ≤ (s.view.bytes src.dirMeta).length) (hturns : len ≤ turns) {m : Nat}
    (hm : m = s.view.span src.dirMeta (x.getD src.off) len) :
    ∃ s', copyLoop i o turns x y len s = .ok (⟨m, [], x.map (· + m), y.map (· + m)⟩, s') ∧ Inv s₀ s' ∧
      s'.view = s.view.copied i o src dst x y m := by
  induction len using Nat.strong_induction_on generalizing s x y src dst m turns with
  | _ len ih =>
    by_cases hlen : len = 0
    · subst hlen
      obtain rfl : m = 0 := hm.trans (Nat.zero_min _)
      refine ⟨s, ?_, h, (copied_zero hi ho x y).symm⟩
      cases turns <;> simp [copyLoop]
    obtain ⟨turns, rfl⟩ : ∃ t, turns = t + 1 := ⟨turns - 1, by omega⟩
    have hm' : m = min len ((s.view.bytes src.dirMeta).length - x.getD src.off) := hm
    have hbuf : bufSize = 1024 := rfl
    obtain ⟨k, hk⟩ : ∃ k, k = min (min len bufSize) ((s.view.bytes src.dirMeta).length - x.getD src.off) := ⟨_, rfl⟩
    obtain ⟨s₁, hinv₁, hview₁, hfit₁, hfull, hshort⟩ := copyTurn_ok h hi ho hc hx hlen hk
    by_cases hpiece : k = min len bufSize
    · have hsrc : s₁.view.bytes src.dirMeta = s.view.bytes src.dirMeta := by
        rw [hview₁]
        exact update_of_ne hc.distinct _ _
      have hfile : ∀ g, s₁.files g = (s.view.copied i o src dst x y k).files g := fun g => by
        rw [← hview₁]
        rfl
      have hi₁ : s₁.files i = some (src.past x k) :=
        (hfile i).trans ((update_of_ne (hc.ne hi ho) _ _).trans (update_self ..))
      have ho₁ : s₁.files o = some (dst.past y k) := (hfile o).trans (update_self ..)
      have hspan₁ : s₁.view.span src.dirMeta ((x.map (· + k)).getD (src.past x k).off) (len - k) = m - k := by
        rw [past_at]
        unfold View.span
        rw [hsrc]
        omega
      have hall : k + (m - k) = m := by omega
      have hspan := hc.span_lt
      have htarget := hc.target
      have hroom := hc.room
      rw [← hm] at hspan htarget hroom
      have hc₁ : Copies s₁ (src.past x k) (dst.past y k) (x.map (· + k)) (y.map (· + k)) (len - k) := by
        refine ⟨hc.distinct, (congrArg (List.length · + bufSize) hsrc).trans_lt hc.source, hspan₁.trans_lt (by omega), ?_, ?_⟩
        · rw [past_at]
          exact (congrArg (_ + ·) hspan₁).trans_lt (by omega)
        · rw [past_at]
          show Suffices _ _ _ (s₁.view.span src.dirMeta _ _)
          rw [hspan₁]
          exact hfit₁ _ (by rwa [hall])
      have hx₁ : (x.map (· + k)).getD (src.past x k).off ≤ (s₁.view.bytes (src.past x k).dirMeta).length := by
        rw [past_at]
        show _ ≤ (s₁.view.bytes src.dirMeta).length
        rw [hsrc]
        omega
      obtain ⟨s₂, hloop, hinv₂, hview₂⟩ := ih (len - k) (by omega) hinv₁ hi₁ ho₁ hc₁ hx₁
        (by omega : len - k ≤ turns) hspan₁.symm
      refine ⟨s₂, ?_, hinv₂, ?_⟩
      · rw [hfull turns _ s₂ hpiece hloop, Option.map_map, Option.map_map]
        simp only [Function.comp_def, Nat.add_assoc, hall, ← Nat.cast_add]
      · rw [hview₂, hview₁, copied_copied _ hc.distinct (hc.ne hi ho) _ _ (by omega), hall]
    · obtain rfl : m = k := by omega
      exact ⟨s₁, hshort turns hpiece, hinv₁, hview₁⟩

/-! ## The calls -/

/-- What a caller owes: lengths that an `int` holds, and room for what is written. -/
def Call.Meets (s₀ : FatState) (s : State) : Call → Prop
  | .openEntry _ i _ => Regular s₀ s.volume i
  | .close _ | .lseek _ _ _ => True
  | .read _ len => len < 2 ^ 31
  | .write f bs => bs.length < 2 ^ 31 ∧ ∀ file, s.files f = some file → file.off + bs.length < 2 ^ 32 →
      Suffices s.volume file.dirMeta file.off bs.length
  | .pread _ n _ => n < 2 ^ 31
  | .pwrite f bs off => bs.length < 2 ^ 31 ∧ ∀ file, s.files f = some file → u32 off + bs.length < 2 ^ 32 →
      Suffices s.volume file.dirMeta (u32 off) bs.length
  | .readv f ns => (∀ n ∈ ns, n < 2 ^ 31) ∧ ∀ file, s.files f = some file → file.off + ns.sum < 2 ^ 32
  | .writev f bss => (∀ bs ∈ bss, bs.length < 2 ^ 31) ∧ ∀ file, s.files f = some file →
      file.off + bss.flatten.length < 2 ^ 32 ∧ Suffices s.volume file.dirMeta file.off bss.flatten.length
  | .ftruncate _ len => len ≤ 0
  | .copyFileRange i o x y len => ∃ src dst, s.files i = some src ∧ s.files o = some dst ∧ x.getD src.off < 2 ^ 32 ∧
      Copies s src dst x y len

/-- A call does what it is for. -/
def Answers (s₀ : FatState) (x : Except Halt (Result × State)) (y : Result × View) : Prop :=
  ∃ s', x = .ok (y.1, s') ∧ Inv s₀ s' ∧ s'.view = y.2

theorem Answers.withFile {call : File → Except Halt (Result × State)} {spec : File → Result × View} (h : Inv s₀ s)
    (hcall : ∀ file, s.files f = some file → Answers s₀ (call file) (spec file)) :
    Answers s₀ (s.withFile f call) (s.view.withFile f spec) := by
  unfold State.withFile View.withFile
  show Answers s₀ _ (match s.files f with | none => _ | some file => _)
  cases hf : s.files f with
  | none => exact ⟨s, rfl, h, rfl⟩
  | some file => exact hcall file hf

theorem fileSize_eq (s : State) (i : Nat) : (s.volume.dirMetas i).fileSize = (s.view.bytes i).length := (length_fileBytes ..).symm

/-- Opening a file, truncated or not. -/
theorem openEntry_answers (h : Inv s₀ s) (hi : Regular s₀ s.volume i) (flags : Nat) :
    Answers s₀ (openEntry f i flags s) ((Call.openEntry f i flags).spec s.view) := by
  obtain ⟨v', hv, hinv, hcontents, hk⟩ : ∃ v', (if flags &&& Dir.O_TRUNC ≠ 0 then s.volume.trunc i else .ok s.volume) = .ok v' ∧
      FileInv s₀ v' ∧ v'.contents = (if flags &&& Dir.O_TRUNC ≠ 0 then update s.view.bytes i [] else s.view.bytes) ∧
      ∀ j, Regular s₀ s.volume j → Regular s₀ v' j := by
    split
    · exact trunc_volume h.volume hi
    · exact ⟨s.volume, rfl, h.volume, rfl, fun _ hj => hj⟩
  have hsize : (v'.dirMetas i).fileSize = (v'.contents i).length := (length_fileBytes ..).symm
  have hlt := size_lt hinv (hk i hi)
  unfold openEntry onVolume
  rw [hv]
  refine ⟨_, rfl, (h.setVolume hinv hk).setFile (hk i hi) ?_, ?_⟩
  · dsimp only
    split
    · rw [hsize]
      exact hlt
    · decide
  · unfold Call.spec State.view
    dsimp only at hcontents ⊢
    rw [hsize, hcontents]
    rfl

theorem seek_answers (h : Inv s₀ s) (hf : s.files f = some file) (offset base : Nat) :
    Answers s₀ (.ok (.only (u64 (offset + base) : Nat), s.setOff f file (u32 (u64 (offset + base)))))
      (.only (u64 (offset + base) : Nat), s.view.seek f file (u32 (offset + base))) := by
  have hu : u32 (u64 (offset + base)) = u32 (offset + base) := Nat.mod_mod_of_dvd _ (by decide)
  rw [hu]
  exact ⟨_, rfl, h.setFile (h.file f file hf).1 (Nat.mod_lt _ (by decide)), rfl⟩

theorem pread_answers (h : Inv s₀ s) (off : Nat) (hn : n < 2 ^ 31) :
    Answers s₀ (syscallPRead f n off s) ((Call.pread f n off).spec s.view) := by
  refine Answers.withFile h fun file hf => ?_
  obtain ⟨v', hread, -, hinv, hview, -⟩ := h.read hf (Nat.mod_lt off (by decide : 0 < 2 ^ 32)) hn rfl
  have hu : u32 n = n := Nat.mod_eq_of_lt (by omega)
  change s.volume.read file.dirMeta (u32 off) n = _ at hread
  rw [hu, hread]
  exact ⟨_, rfl, hinv, hview⟩

theorem pwrite_answers (h : Inv s₀ s) (hm : (Call.pwrite f bs off).Meets s₀ s) :
    Answers s₀ (syscallPWrite f bs off s) ((Call.pwrite f bs off).spec s.view) := by
  refine Answers.withFile h fun file hf => ?_
  obtain ⟨hn, hfit⟩ := hm
  have hu : u32 bs.length = bs.length := Nat.mod_eq_of_lt (by omega)
  have hoff : u32 off < 2 ^ 32 := Nat.mod_lt off (by decide)
  rw [hu]
  by_cases hlt : u32 off + bs.length < 2 ^ 32
  · obtain ⟨v', hwrite, hinv, hview, -⟩ := h.write hf hn hlt (hfit file hf hlt)
    rw [hwrite, if_neg (by omega)]
    exact ⟨_, rfl, hinv, hview⟩
  · rw [write_refused (h.file f file hf).1 (fun j => bs.getD j 0) hoff (by omega) hlt, if_pos (by omega)]
    exact ⟨s, rfl, h, rfl⟩

theorem write_answers (h : Inv s₀ s) (hm : (Call.write f bs).Meets s₀ s) :
    Answers s₀ (syscallWrite f bs s) ((Call.write f bs).spec s.view) := by
  refine Answers.withFile h fun file hf => ?_
  obtain ⟨hn, hfit⟩ := hm
  have hu : u32 bs.length = bs.length := Nat.mod_eq_of_lt (by omega)
  rw [hu, i32_of_lt hn, if_neg (by omega)]
  by_cases hw : file.writable = true
  · by_cases hlt : file.off + bs.length < 2 ^ 32
    · obtain ⟨s', hwrite, hinv, hview, -⟩ := filewrite_ok h hf hw hn hlt (hfit file hf hlt)
      rw [hwrite, if_neg (by simp [hw]; omega)]
      exact ⟨s', rfl, hinv, hview⟩
    · rw [filewrite_refused h hf hw hn hlt, if_pos (.inr (by omega))]
      exact ⟨s, rfl, h, rfl⟩
  · have hw : file.writable = false := Bool.eq_false_iff.mpr hw
    rw [filewrite_unwritable hf hw, if_pos (.inl hw)]
    exact ⟨s, rfl, h, rfl⟩

/-- Copying a range, none of it where it begins behind the end. -/
theorem copyFileRange_answers {len : Nat} {x y : Option Nat} {src dst : File} (h : Inv s₀ s) (hi : s.files i = some src)
    (ho : s.files o = some dst) (hx : x.getD src.off < 2 ^ 32) (hc : Copies s src dst x y len) :
    Answers s₀ (syscallCopyFileRange i o x y len s) ((Call.copyFileRange i o x y len).spec s.view) := by
  have hspec : (Call.copyFileRange i o x y len).spec s.view =
      (⟨s.view.span src.dirMeta (x.getD src.off) len, [], x.map (· + s.view.span src.dirMeta (x.getD src.off) len),
        y.map (· + s.view.span src.dirMeta (x.getD src.off) len)⟩,
        s.view.copied i o src dst x y (s.view.span src.dirMeta (x.getD src.off) len)) := by
    show (match s.files i, s.files o with | some src, some dst => _ | _, _ => _) = _
    rw [hi, ho]
  have hu : u32 (x.getD src.off) = x.getD src.off := Nat.mod_eq_of_lt hx
  rw [hspec]
  unfold syscallCopyFileRange
  rw [hi]
  dsimp only
  rw [hu, fileSize_eq]
  by_cases hend : (s.view.bytes src.dirMeta).length ≤ x.getD src.off
  · have hnone : s.view.span src.dirMeta (x.getD src.off) len = 0 := by
      unfold View.span
      omega
    rw [if_pos hend, hnone]
    refine ⟨s, ?_, h, (copied_zero hi ho x y).symm⟩
    simp
  · rw [if_neg hend]
    exact copyLoop_ok h hi ho hc (Nat.le_of_not_le hend) (Nat.le_refl len) rfl

/-- **One call**, by cases on what is called. -/
theorem exec_answers {c : Call} (h : Inv s₀ s) (hm : c.Meets s₀ s) : Answers s₀ (c.exec s) (c.spec s.view) := by
  cases c with
  | openEntry f i flags => exact openEntry_answers h hm flags
  | close f =>
    refine ⟨_, rfl, ⟨h.volume, fun g file hg => ?_⟩, rfl⟩
    by_cases hgf : g = f
    · rw [hgf] at hg
      cases (update_self f none s.files).symm.trans hg
    · exact h.file g file ((update_of_ne hgf _ _).symm.trans hg)
  | read f len =>
    refine Answers.withFile h fun file hf => ?_
    have hm : len < 2 ^ 31 := hm
    by_cases hlen : len < 0
    · rw [if_pos hlen, if_pos (.inl hlen)]
      exact ⟨s, rfl, h, rfl⟩
    rw [if_neg hlen]
    by_cases hr : file.readable = true
    · rw [if_neg (by simp [hr]; omega)]
      exact fileread_ok h hf hr (by omega) rfl
    · have hr : file.readable = false := Bool.eq_false_iff.mpr hr
      rw [if_pos (.inr hr), fileread_unreadable hf hr]
      exact ⟨s, rfl, h, rfl⟩
  | write f bs => exact write_answers h hm
  | lseek f offset mode =>
    refine Answers.withFile h fun file hf => ?_
    rw [fileSize_eq]
    split_ifs
    · exact seek_answers h hf offset 0
    · exact seek_answers h hf offset file.off
    · exact seek_answers h hf offset _
    · exact ⟨s, rfl, h, rfl⟩
  | pread f n off => exact pread_answers h off hm
  | pwrite f bs off => exact pwrite_answers h hm
  | readv f ns =>
    refine Answers.withFile h fun file hf => ?_
    split
    · exact ⟨s, rfl, h, rfl⟩
    by_cases hr : file.readable = true
    · rw [if_neg (by simp [hr])]
      exact readVector_ok h hf hr hm.1 (hm.2 file hf)
    · have hr : file.readable = false := Bool.eq_false_iff.mpr hr
      rw [if_pos hr, readVector_refused hf hr]
      exact ⟨s, rfl, h, rfl⟩
  | writev f bss =>
    refine Answers.withFile h fun file hf => ?_
    split
    · exact ⟨s, rfl, h, rfl⟩
    by_cases hw : file.writable = true
    · obtain ⟨s', hwrite, hinv, hview⟩ := writeVector_ok h hf hw hm.1 (hm.2 file hf).1 (hm.2 file hf).2
      rw [hwrite, if_neg (by simp [hw])]
      exact ⟨s', rfl, hinv, hview⟩
    · have hw : file.writable = false := Bool.eq_false_iff.mpr hw
      rw [if_pos hw, writeVector_refused hf hw]
      exact ⟨s, rfl, h, rfl⟩
  | ftruncate f len =>
    refine Answers.withFile h fun file hf => ?_
    have hm : len ≤ 0 := hm
    split
    · exact ⟨s, rfl, h, rfl⟩
    · obtain ⟨v', htrunc, hinv, hcontents, hk⟩ := trunc_volume h.volume (h.file f file hf).1
      rw [if_pos (by omega), htrunc]
      refine ⟨_, rfl, h.setVolume hinv hk, ?_⟩
      unfold State.view
      rw [hcontents]
  | copyFileRange i o x y len =>
    obtain ⟨src, dst, hi, ho, hx, hc⟩ := hm
    exact copyFileRange_answers h hi ho hx hc

end Files

/-! ## The result -/

/-- A file is created, or a call answers. -/
inductive Step (s₀ : FatState) : State → State → Prop
  | create {s : State} {attr i : Nat} {v : FatState} : (attr = ATTR_DIRECTORY → 0 < freeClusters s.volume.fs) →
      s.volume.create attr = .ok (i, v) → Step s₀ s { s with volume := v }
  | call {s s' : State} {c : Call} {r : Result} : c.Meets s₀ s → c.exec s = .ok (r, s') → Step s₀ s s'

/-- A step of a run. -/
theorem Inv.step {s₀ : FatState} {s s' : State} (h : Inv s₀ s) (hs : Step s₀ s s') : Inv s₀ s' := by
  cases hs with
  | create hfit hr =>
    obtain ⟨hfree, L', hstep, -, -⟩ := h.volume.volume.inv.create hfit hr
    refine ⟨h.volume.create hfit hr, fun f file hf => ?_⟩
    obtain ⟨hi, hoff⟩ := h.file f file hf
    -- the file that is new was free
    have hother := hstep.others file.dirMeta fun heq => hi.created.2 (by rw [hfree, heq]; exact List.mem_cons_self)
    refine ⟨⟨⟨hi.created.1, fun hin => hi.created.2 ?_⟩, ?_, ?_, ?_⟩, hoff⟩
    · rw [hfree]
      exact List.mem_cons_of_mem _ hin
    · rw [hother]
      exact hi.dev
    · rw [hother]
      exact hi.no_directory
    · rw [hother]
      exact hi.writable
  | call hm hr =>
    obtain ⟨s₁, hexec, hinv, -⟩ := exec_answers h hm
    cases hexec.symm.trans hr
    exact hinv

/-- **Every call on open files does what it is for**, after any run in which the volume and the caller had what each call needs:
it returns, with the result and the bytes that `Call.spec` names. -/
theorem calls_refine_view {v₀ : FatState} {s : State} (h₀ : Volume v₀) (h : Run.Reach (· = ⟨v₀, fun _ => none⟩) (Step v₀) s)
    {c : Call} (hm : c.Meets v₀ s) : ∃ s', c.exec s = .ok ((c.spec s.view).1, s') ∧ s'.view = (c.spec s.view).2 := by
  have hinv : Inv v₀ s := by
    refine h.invariant (fun s hs => ?_) fun s s' hinv hs => hinv.step hs
    subst hs
    exact ⟨⟨h₀, fun i hi hn => absurd hi hn⟩, fun f file hf => by cases hf⟩
  obtain ⟨s', hexec, -, hview⟩ := exec_answers hinv hm
  exact ⟨s', hexec, hview⟩

/-- Two bytes written to a new file. -/
theorem calls_refine_view_small : ∃ s s', Run.Reach (· = ⟨smallState 4, fun _ => none⟩) (Step (smallState 4)) s ∧
    (Call.write 3 [65, 66]).exec s = .ok (.only 2, s') ∧ s'.view.bytes 1 = [65, 66] ∧ (s'.files 3).map File.off = some 2 := by
  obtain ⟨v, hcreate, hv⟩ : ∃ v, (smallState 4).create 0 = .ok (1, v) ∧ v.free = [] ∧ v.fs = smallFs 4 ∧
      v.dirMetas 1 = { emptyMeta with attr := ATTR_ARCHIVE } := ⟨_, rfl, rfl, rfl, rfl⟩
  obtain ⟨hfree, hfs, hdm⟩ := hv
  have hreg : Regular (smallState 4) v 1 := by
    refine ⟨⟨List.mem_singleton_self 1, by rw [hfree]; exact List.not_mem_nil⟩, ?_, ?_, ?_⟩ <;> rw [hdm] <;> rfl
  have hroom : 0 < freeClusters v.fs := by
    rw [hfs]
    exact freeClusters_small
  have hfit : Suffices v 1 0 2 := by
    have hspan : span v.fs.superBlock 0 2 = 1 := by rw [hfs]; decide
    refine ⟨?_, ?_, ?_⟩
    · unfold writeSpan
      rw [hspan]
      omega
    · rw [hspan]
      decide
    · rw [hspan, hdm]
      exact Nat.zero_le _
  have hempty : v.contents 1 = [] := by
    unfold FatState.contents fileBytes
    rw [hdm]
    rfl
  let s : State := ⟨v, update (fun _ => none) 3 (some ⟨true, true, 0, 1⟩)⟩
  have hfile : ∀ file, s.files 3 = some file → file = ⟨true, true, 0, 1⟩ := fun file hf => by
    cases hf
    rfl
  have hopen : Step (smallState 4) ⟨v, fun _ => none⟩ s := .call (c := .openEntry 3 1 Files.O_RDWR) hreg rfl
  have hreach : Run.Reach (· = ⟨smallState 4, fun _ => none⟩) (Step (smallState 4)) s :=
    .step (.step (.init rfl) (.create (by decide) hcreate)) hopen
  obtain ⟨s', hexec, hview⟩ := calls_refine_view (c := .write 3 [65, 66]) volume_small hreach
    ⟨by decide, fun file hf _ => by rw [hfile file hf]; exact hfit⟩
  refine ⟨s, s', hreach, hexec, ?_, ?_⟩
  · rw [hview]
    refine (update_self 1 (overwrite (v.contents 1) (fun j => List.getD [65, 66] j 0) 0 2) v.contents).trans ?_
    rw [hempty]
    decide
  · rw [show s'.files = s'.view.files from rfl, hview]
    rfl

end Exaros.Entry
