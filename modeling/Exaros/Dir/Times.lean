import Exaros.Dir.Encode
import Exaros.Dir.Linking
import Exaros.Fat.Place

/-!
# The times of files

`eSetTime` keeps the times of a file in six fields of its short entry, and `metaStat` reads them from there. Both look
for the entry from the offset in the `DirMeta`, which is the right one where the entry was loaded. A file that was
created has no entry yet and the offset is what the `DirMeta` had before: files that were created share places with
others, and the time of one is the time of the others.
-/

namespace Exaros.Dir

open Fat Linked

/-- `TimeSpec`; `microSecond` also says where the time is to come from. -/
structure TimeSpec where
  second : Nat
  microSecond : Int
deriving DecidableEq, Repr

def UTIME_NOW : Nat := 2 ^ 30 - 1
def UTIME_OMIT : Nat := 2 ^ 30 - 2

def DIR_TYPE : Nat := 0x4000
def CHR_TYPE : Nat := 0x2000
def REG_TYPE : Nat := 0x8000

/-- `struct kstat` -/
structure Kstat where
  st_dev : Dev
  st_ino : Nat
  st_mode : Nat
  st_nlink : Nat
  st_uid : Nat
  st_gid : Nat
  st_rdev : Nat
  st_size : Nat
  st_blksize : Nat
  st_blocks : Nat
  st_atime_sec : Nat
  st_atime_nsec : Nat
  st_mtime_sec : Nat
  st_mtime_nsec : Nat
  st_ctime_sec : Nat
  st_ctime_nsec : Nat
deriving DecidableEq, Repr

namespace Dentry

/-- `_crt_time_tenth`, `_crt_time` and `_crt_date` as `metaStat` puts them together. -/
def atime (e : Dentry) : Nat := e.u8 13 * 2 ^ 32 + e.u16 14 * 2 ^ 16 + e.u16 16

/-- `_lst_acce_date`, `_lst_wrt_time` and `_lst_wrt_date`. -/
def mtime (e : Dentry) : Nat := e.u16 18 * 2 ^ 32 + e.u16 22 * 2 ^ 16 + e.u16 24

/-- The stores of `eSetTime` for `ts[0]`. -/
def setAtime (e : Dentry) (second : Nat) : Dentry :=
  store (store (store e 16 (le16 second)) 14 (le16 (second / 2 ^ 16))) 13 [BitVec.ofNat 8 (second / 2 ^ 32)]

/-- The stores of `eSetTime` for `ts[1]`. -/
def setMtime (e : Dentry) (second : Nat) : Dentry :=
  store (store (store e 24 (le16 second)) 22 (le16 (second / 2 ^ 16))) 18 (le16 (second / 2 ^ 32))

end Dentry

/-- A field of `ts` that is not to be left out: what it sets. -/
def TimeSpec.set (ts : TimeSpec) (now : Nat) (put : Dentry → Nat → Dentry) (de : Dentry) : Dentry :=
  if ts.microSecond = UTIME_OMIT then de
  else put de (if ts.microSecond = UTIME_NOW then now else ts.second)

/-- Neither `UTIME_OMIT` nor `UTIME_NOW`. -/
def TimeSpec.Given (ts : TimeSpec) : Prop := ts.microSecond ≠ UTIME_OMIT ∧ ts.microSecond ≠ UTIME_NOW

instance (ts : TimeSpec) : Decidable ts.Given := inferInstanceAs (Decidable (_ ∧ _))

namespace Tree

/-- What `metaStat` takes from the `DirMeta`. -/
def stat (t : Tree) (d : Nat) : Kstat :=
  let dm := t.dirMetas d
  let blksize := (t.volume (t.fsOf d)).superBlock.bytsPerSec
  { st_dev := dm.dev
    st_size := dm.fileSize
    st_ino := d
    st_mode := if dm.attr &&& ATTR_DIRECTORY ≠ 0 then DIR_TYPE
      else if dm.attr &&& ATTR_CHARACTER_DEVICE ≠ 0 then CHR_TYPE else REG_TYPE
    st_nlink := 1
    st_uid := 0
    st_gid := 0
    st_rdev := 0
    st_blksize := blksize
    st_blocks := dm.fileSize / blksize
    st_atime_sec := 0
    st_atime_nsec := 0
    st_mtime_sec := 0
    st_mtime_nsec := 0
    st_ctime_sec := 0
    st_ctime_nsec := 0 }

/-- The times it adds from the entry. -/
def entryStat (t : Tree) (d : Nat) (de : Dentry) : Kstat := { t.stat d with st_atime_sec := de.atime, st_mtime_sec := de.mtime }

/-- What a search for the entry of `d` leaves of its directory. -/
def setParent (t : Tree) (d parent : Nat) (fs : FileSystem) (dm : DirMeta) : Tree := (t.setVolume (t.fsOf d) fs).setMeta parent dm

/-- `metaStat` -/
def metaStat (t : Tree) (d : Nat) : Except Halt (Kstat × Tree) :=
  match (t.nodes d).parent with
  | none => .ok (t.stat d, t)
  | some parent =>
    match findEntry relocClus (t.volume (t.fsOf d)) (t.dirMetas parent) (t.nodes d).off with
    | .error e => .error (.fat e)
    | .ok (_, de, fs, dm) => .ok (t.entryStat d de, t.setParent d parent fs dm)

/-- `eSetTime`, at the time `time`. -/
def eSetTime (t : Tree) (d : Nat) (ts₀ ts₁ : TimeSpec) (time : Nat) : Except Halt Tree :=
  match (t.nodes d).parent with
  | none => .error .null
  | some parent =>
    match findEntry reloc_clus (t.volume (t.fsOf d)) (t.dirMetas parent) (t.nodes d).off with
    | .error e => .error (.fat e)
    | .ok (off, de, fs, dm) =>
      let now := time / 1000000
      let de := ts₁.set now Dentry.setMtime (ts₀.set now Dentry.setAtime de)
      match rwClusWrite fs dm.curClus (fun i => de.getD i 0) off 32 with
      | .error e => .error (.fat e)
      | .ok (_, fs) => .ok (t.setParent d parent fs dm)

/-! ## What should hold -/

/-- The chain of an entry. -/
def chainOf (t : Tree) (d : Nat) : List Nat := chain (t.volume (t.fsOf d)) (t.dirMetas d)

/-- What `metaStat` says of an entry. -/
def Reports (t : Tree) (d : Nat) (st : Kstat) : Prop := ∃ t', t.metaStat d = .ok (st, t')

/-- The inodes suffice for `metaStat` of `g` after that of `f`. -/
def BothReport (t : Tree) (f g : Nat) : Prop := ∃ st t₁ st', t.metaStat f = .ok (st, t₁) ∧ t₁.Reports g st'

/-- The files of the tree: each has its chain, its cache and its inodes to itself, its parent is in the tree, and its
offset is that of an entry. -/
structure Clustered (t : Tree) : Prop where
  superBlock : ∀ d, t.InTree d → (t.volume (t.fsOf d)).superBlock.Ok
  bitmap : ∀ d, t.InTree d → BitmapOk (t.volume (t.fsOf d))
  file : ∀ d, t.InTree d → FileOk (t.volume (t.fsOf d)) (t.dirMetas d) (t.chainOf d)
  apart : ∀ d e, t.InTree d → t.InTree e → d ≠ e → ∀ x,
    Owns (t.volume (t.fsOf d)) (t.dirMetas d).item (t.dirMetas d).inodeMaxCluster x →
      ¬ Owns (t.volume (t.fsOf e)) (t.dirMetas e).item (t.dirMetas e).inodeMaxCluster x
  parent : ∀ d p, t.InTree d → (t.nodes d).parent = some p → t.InTree p ∧ t.fsOf p = t.fsOf d
  off : ∀ d, t.InTree d → (t.nodes d).off % 32 = 0 ∧ (t.nodes d).off < 2 ^ 32

/-- What `eSetTime` should do: the times of `f` are those given, and nothing else has changed. -/
structure TimesSet (t t' : Tree) (f : Nat) (ts₀ ts₁ : TimeSpec) : Prop where
  own : ∃ st, t'.Reports f st ∧ st.st_atime_sec = ts₀.second % 2 ^ 40 ∧ st.st_mtime_sec = ts₁.second % 2 ^ 48
  stat : ∀ g st, t.InTree g → g ≠ f → t.Reports g st → t.BothReport f g → t'.Reports g st
  nodes : t'.nodes = t.nodes
  clusters : ∀ d, t.InTree d → (t'.dirMetas d).firstClus = (t.dirMetas d).firstClus ∧
    ∀ c ∈ t.chainOf d, fatEntry (t'.volume (t.fsOf d)) c = fatEntry (t.volume (t.fsOf d)) c
  contents : ∀ d, t.InTree d → t.isDir d = false →
    fileBytes (t'.volume (t.fsOf d)) (t'.dirMetas d) (t.chainOf d) = fileBytes (t.volume (t.fsOf d)) (t.dirMetas d) (t.chainOf d)

/-- The bytes of an entry that keep its times. -/
def timeFields : List Nat := [13, 14, 15, 16, 17, 18, 19, 22, 23, 24, 25]

/-- Byte `j` of an entry with the times `a` and `m`, where it is one of these. -/
def timeByte (a m j : Nat) : Byte :=
  BitVec.ofNat 8 (match j with
    | 13 => a / 2 ^ 32
    | 14 => a / 2 ^ 16
    | 15 => a / 2 ^ 16 / 2 ^ 8
    | 16 => a
    | 17 => a / 2 ^ 8
    | 18 => m / 2 ^ 32
    | 19 => m / 2 ^ 32 / 2 ^ 8
    | 22 => m / 2 ^ 16
    | 23 => m / 2 ^ 16 / 2 ^ 8
    | 24 => m
    | _ => m / 2 ^ 8)

/-- Where byte `j` of the entry lies that is taken for the one of `d`, in directory `p`. -/
def entryAddr (t : Tree) (d p j : Nat) : Nat := entryByte (t.volume (t.fsOf d)) (t.chainOf p) (t.nodes d).off j

/-- Setting the times of `f` changes byte `a` of its volume. -/
def Alters (t : Tree) (f : Nat) (ts₀ ts₁ : TimeSpec) (a : Nat) : Prop :=
  ∃ p, (t.nodes f).parent = some p ∧ ∃ j ∈ timeFields, a = t.entryAddr f p j ∧
    byteAt (t.volume (t.fsOf f)).disk a ≠ timeByte ts₀.second ts₁.second j

/-- No byte that is changed keeps a time of another file, or belongs to a chain or to the contents of a file. -/
structure Spared (t : Tree) (f : Nat) (ts₀ ts₁ : TimeSpec) : Prop where
  times : ∀ g q, t.InTree g → g ≠ f → t.fsOf g = t.fsOf f → (t.nodes g).parent = some q → (∃ st, t.Reports g st) →
    t.BothReport f g → ∀ j ∈ timeFields, ¬ t.Alters f ts₀ ts₁ (t.entryAddr g q j)
  clusters : ∀ d, t.InTree d → t.fsOf d = t.fsOf f → ∀ c ∈ t.chainOf d, ∀ i < 4,
    ¬ t.Alters f ts₀ ts₁ ((t.volume (t.fsOf f)).superBlock.rsvdSecCnt * 512 + 4 * c + i)
  contents : ∀ d, t.InTree d → t.fsOf d = t.fsOf f → t.isDir d = false → ∀ j < (t.dirMetas d).fileSize,
    ¬ t.Alters f ts₀ ts₁ (clusAddr (t.volume (t.fsOf f)).superBlock
      ((t.chainOf d).getD (j / (t.volume (t.fsOf f)).superBlock.bytsPerClus) 0) + j % (t.volume (t.fsOf f)).superBlock.bytsPerClus)

/-! ## The bytes of the times -/

section Bytes

variable {e e' : Dentry} {a m j : Nat}

theorem le16_length (x : Nat) : (le16 x).length = 2 := rfl

theorem setAtime_get (h : e.length = 32) (j : Nat) : (e.setAtime a).length = 32 ∧ (e.setAtime a).getD j 0 =
    if j = 13 ∨ j = 14 ∨ j = 15 ∨ j = 16 ∨ j = 17 then timeByte a m j else e.getD j 0 := by
  have h₁ : (store e 16 (le16 a)).length = 32 := by rw [store_length (by rw [h, le16_length]; decide), h]
  have h₂ : (store (store e 16 (le16 a)) 14 (le16 (a / 2 ^ 16))).length = 32 := by
    rw [store_length (by rw [h₁, le16_length]; decide), h₁]
  unfold Dentry.setAtime
  refine ⟨by rw [store_length (by rw [h₂, List.length_singleton]; decide), h₂], ?_⟩
  rw [store_get (by rw [h₂, List.length_singleton]; decide), store_get (by rw [h₁, le16_length]; decide), store_get (by rw [h, le16_length]; decide)]
  by_cases hj : j = 13 ∨ j = 14 ∨ j = 15 ∨ j = 16 ∨ j = 17
  · rw [if_pos hj]
    rcases hj with rfl | rfl | rfl | rfl | rfl <;> rfl
  · rw [if_neg hj, if_neg (by rw [List.length_singleton]; omega), if_neg (by rw [le16_length]; omega),
      if_neg (by rw [le16_length]; omega)]

theorem setMtime_get (h : e.length = 32) (j : Nat) : (e.setMtime m).length = 32 ∧ (e.setMtime m).getD j 0 =
    if j = 18 ∨ j = 19 ∨ j = 22 ∨ j = 23 ∨ j = 24 ∨ j = 25 then timeByte a m j else e.getD j 0 := by
  have h₁ : (store e 24 (le16 m)).length = 32 := by rw [store_length (by rw [h, le16_length]; decide), h]
  have h₂ : (store (store e 24 (le16 m)) 22 (le16 (m / 2 ^ 16))).length = 32 := by
    rw [store_length (by rw [h₁, le16_length]; decide), h₁]
  unfold Dentry.setMtime
  refine ⟨by rw [store_length (by rw [h₂, le16_length]; decide), h₂], ?_⟩
  rw [store_get (by rw [h₂, le16_length]; decide), store_get (by rw [h₁, le16_length]; decide),
    store_get (by rw [h, le16_length]; decide)]
  by_cases hj : j = 18 ∨ j = 19 ∨ j = 22 ∨ j = 23 ∨ j = 24 ∨ j = 25
  · rw [if_pos hj]
    rcases hj with rfl | rfl | rfl | rfl | rfl | rfl <;> rfl
  · rw [if_neg hj, if_neg (by rw [le16_length]; omega), if_neg (by rw [le16_length]; omega), if_neg (by rw [le16_length]; omega)]

theorem mem_timeFields : j ∈ timeFields ↔ (j = 18 ∨ j = 19 ∨ j = 22 ∨ j = 23 ∨ j = 24 ∨ j = 25) ∨
    j = 13 ∨ j = 14 ∨ j = 15 ∨ j = 16 ∨ j = 17 := by
  unfold timeFields
  simp only [List.mem_cons, List.not_mem_nil, or_false]
  omega

/-- An entry with its times set. -/
theorem setTimes_get (h : e.length = 32) (j : Nat) : ((e.setAtime a).setMtime m).getD j 0 =
    if j ∈ timeFields then timeByte a m j else e.getD j 0 := by
  obtain ⟨hlen, hget⟩ := setAtime_get (a := a) (m := m) h j
  rw [(setMtime_get (a := a) hlen j).2, hget]
  by_cases hm : j = 18 ∨ j = 19 ∨ j = 22 ∨ j = 23 ∨ j = 24 ∨ j = 25
  · rw [if_pos hm, if_pos (mem_timeFields.mpr (.inl hm))]
  · rw [if_neg hm]
    by_cases ha : j = 13 ∨ j = 14 ∨ j = 15 ∨ j = 16 ∨ j = 17
    · rw [if_pos ha, if_pos (mem_timeFields.mpr (.inr ha))]
    · rw [if_neg ha, if_neg fun hj => (mem_timeFields.mp hj).elim hm ha]

theorem u8_lt (e : Dentry) (i : Nat) : e.u8 i < 256 := (e.getD i 0).isLt

/-- The lowest byte of a number and the rest. -/
theorem low_byte_inj {x x' y y' : Nat} (hx : x < 256) (hx' : x' < 256) (h : x + 256 * y = x' + 256 * y') : x = x' ∧ y = y' := by
  omega

theorem atime_eq (e : Dentry) : e.atime = e.u8 16 + 256 * (e.u8 17 + 256 * (e.u8 14 + 256 * (e.u8 15 + 256 * e.u8 13))) := by
  show e.u8 13 * 2 ^ 32 + (e.u8 14 + 2 ^ 8 * e.u8 15) * 2 ^ 16 + (e.u8 16 + 2 ^ 8 * e.u8 17) = _
  omega

theorem mtime_eq (e : Dentry) :
    e.mtime = e.u8 24 + 256 * (e.u8 25 + 256 * (e.u8 22 + 256 * (e.u8 23 + 256 * (e.u8 18 + 256 * e.u8 19)))) := by
  show (e.u8 18 + 2 ^ 8 * e.u8 19) * 2 ^ 32 + (e.u8 22 + 2 ^ 8 * e.u8 23) * 2 ^ 16 + (e.u8 24 + 2 ^ 8 * e.u8 25) = _
  omega

/-- **The times** are their bytes. -/
theorem times_eq_iff : (e.atime = e'.atime ∧ e.mtime = e'.mtime) ↔ ∀ j ∈ timeFields, e.getD j 0 = e'.getD j 0 := by
  have hbyte : ∀ i, e.u8 i = e'.u8 i ↔ e.getD i 0 = e'.getD i 0 := fun i => BitVec.toNat_inj
  have hlt := u8_lt e
  have hlt' := u8_lt e'
  unfold timeFields
  simp only [List.forall_mem_cons, ← hbyte, atime_eq, mtime_eq]
  constructor
  · rintro ⟨ha, hm⟩
    obtain ⟨h16, ha⟩ := low_byte_inj (hlt _) (hlt' _) ha
    obtain ⟨h17, ha⟩ := low_byte_inj (hlt _) (hlt' _) ha
    obtain ⟨h14, ha⟩ := low_byte_inj (hlt _) (hlt' _) ha
    obtain ⟨h15, h13⟩ := low_byte_inj (hlt _) (hlt' _) ha
    obtain ⟨h24, hm⟩ := low_byte_inj (hlt _) (hlt' _) hm
    obtain ⟨h25, hm⟩ := low_byte_inj (hlt _) (hlt' _) hm
    obtain ⟨h22, hm⟩ := low_byte_inj (hlt _) (hlt' _) hm
    obtain ⟨h23, hm⟩ := low_byte_inj (hlt _) (hlt' _) hm
    obtain ⟨h18, h19⟩ := low_byte_inj (hlt _) (hlt' _) hm
    exact ⟨h13, h14, h15, h16, h17, h18, h19, h22, h23, h24, h25, fun _ hj => absurd hj List.not_mem_nil⟩
  · rintro ⟨h13, h14, h15, h16, h17, h18, h19, h22, h23, h24, h25, -⟩
    rw [h13, h14, h15, h16, h17, h18, h19, h22, h23, h24, h25]
    exact ⟨rfl, rfl⟩

/-- What the bytes of times say. -/
theorem times_of_bytes (h : ∀ j ∈ timeFields, e.getD j 0 = timeByte a m j) : e.atime = a % 2 ^ 40 ∧ e.mtime = m % 2 ^ 48 := by
  have hbyte : ∀ i ∈ timeFields, e.u8 i = (timeByte a m i).toNat := fun i hi => congrArg BitVec.toNat (h i hi)
  unfold timeFields at hbyte
  simp only [List.forall_mem_cons, timeByte, BitVec.toNat_ofNat] at hbyte
  obtain ⟨h13, h14, h15, h16, h17, h18, h19, h22, h23, h24, h25, -⟩ := hbyte
  rw [atime_eq, mtime_eq, h13, h14, h15, h16, h17, h18, h19, h22, h23, h24, h25]
  omega

end Bytes

/-! ## Looking for an entry -/

section Look

variable {t t₁ : Tree} {d e f g p q o : Nat} {st : Kstat} {fs : FileSystem} {dm : DirMeta} {de : Dentry}

theorem volume_setVolume (t : Tree) (f u : Nat) (fs : FileSystem) : (t.setVolume f fs).volume u =
    if u = f then fs else { t.volume u with inodes := fs.inodes, inodeBitmap := fs.inodeBitmap } := by
  unfold Tree.volume
  by_cases hu : u = f
  · subst hu
    have hslot : (t.setVolume u fs).fileSystem u = { t.fileSystem u with volume := fs } := Function.update_self ..
    rw [if_pos rfl, hslot]
    rfl
  · have hslot : (t.setVolume f fs).fileSystem u = t.fileSystem u := Function.update_of_ne hu ..
    rw [if_neg hu, hslot]
    rfl

theorem dirMetas_setParent (t : Tree) (d p e : Nat) (fs : FileSystem) (dm : DirMeta) :
    (t.setParent d p fs dm).dirMetas e = if e = p then dm else t.dirMetas e := Function.update_apply ..

/-- A search changes the pool only. -/
theorem volume_setParent (hpool : PoolOnly (t.volume (t.fsOf d)) fs) (u : Nat) :
    (t.setParent d p fs dm).volume u = { t.volume u with inodes := fs.inodes, inodeBitmap := fs.inodeBitmap } := by
  obtain ⟨inodes, bits, rfl⟩ := hpool
  show (t.setVolume (t.fsOf d) _).volume u = _
  rw [volume_setVolume]
  split
  · rename_i hu
    rw [hu]
  · rfl

/-- The directory of an entry. -/
theorem Clustered.directory (h : t.Clustered) (hd : t.InTree d) (hp : (t.nodes d).parent = some p) :
    t.InTree p ∧ t.fsOf p = t.fsOf d ∧ FileOk (t.volume (t.fsOf d)) (t.dirMetas p) (t.chainOf p) := by
  obtain ⟨hpt, hfs⟩ := h.parent d p hd hp
  have hfile := h.file p hpt
  rw [hfs] at hfile
  exact ⟨hpt, hfs, hfile⟩

/-- What `metaStat` finds. -/
theorem Clustered.found (h : t.Clustered) (hd : t.InTree d) (hp : (t.nodes d).parent = some p)
    (hr : findEntry relocClus (t.volume (t.fsOf d)) (t.dirMetas p) (t.nodes d).off = .ok (o, de, fs, dm)) :
    EntryFound (t.volume (t.fsOf d)) (t.dirMetas p) (t.chainOf p) (t.nodes d).off o de fs dm :=
  findEntry_found (h.superBlock d hd) (h.bitmap d hd) (h.directory hd hp).2.2 (h.off d hd).2 (h.off d hd).1 hr

theorem still_setParent (t : Tree) (d : Nat) (fs : FileSystem) (hkind : dm.kind = (t.dirMetas p).kind) :
    Still t (t.setParent d p fs dm) := by
  refine ⟨rfl, rfl, rfl, fun u => ?_, fun x => ?_⟩
  · show ((Function.update t.fileSystem _ _) u).valid = _ ∧ ((Function.update t.fileSystem _ _) u).next = _
    by_cases hu : u = t.fsOf d
    · subst hu
      simp
    · simp [hu]
  · rw [dirMetas_setParent]
    split
    · rename_i hx
      rw [hx]
      exact hkind
    · rfl

/-- **A search keeps the files**, and their chains. -/
theorem Clustered.looked (h : t.Clustered) (hd : t.InTree d) (hp : (t.nodes d).parent = some p)
    (hf : EntryFound (t.volume (t.fsOf d)) (t.dirMetas p) (t.chainOf p) (t.nodes d).off o de fs dm) :
    (t.setParent d p fs dm).Clustered ∧ Still t (t.setParent d p fs dm) ∧
      ∀ e, t.InTree e → (t.setParent d p fs dm).chainOf e = t.chainOf e := by
  obtain ⟨hpt, hfs, hfile⟩ := h.directory hd hp
  have hvol : ∀ u, (t.setParent d p fs dm).volume u = { t.volume u with inodes := fs.inodes, inodeBitmap := fs.inodeBitmap } :=
    volume_setParent hf.pool
  have hkind : dm.kind = (t.dirMetas p).kind := by
    obtain ⟨cur, cnt, item, k, hdm⟩ := hf.file
    rw [hdm]
    rfl
  have hs := still_setParent t d fs hkind
  have hself : (t.setParent d p fs dm).dirMetas p = dm := by rw [dirMetas_setParent, if_pos rfl]
  have hother : ∀ e, e ≠ p → (t.setParent d p fs dm).dirMetas e = t.dirMetas e := fun e he => by
    rw [dirMetas_setParent, if_neg he]
  have hfsOf : ∀ e, (t.setParent d p fs dm).fsOf e = t.fsOf e := fun _ => rfl
  have hpvol : (t.setParent d p fs dm).volume (t.fsOf d) = fs := by
    obtain ⟨inodes, bits, rfl⟩ := hf.pool
    rw [hvol]
  -- every entry keeps its file, and owns no inode but its own and new ones
  have hfiles : ∀ e, t.InTree e → FileOk ((t.setParent d p fs dm).volume (t.fsOf e)) ((t.setParent d p fs dm).dirMetas e) (t.chainOf e) ∧
      (e ≠ p → ∀ x, Owns ((t.setParent d p fs dm).volume (t.fsOf e)) (t.dirMetas e).item (t.dirMetas e).inodeMaxCluster x →
        Owns (t.volume (t.fsOf e)) (t.dirMetas e).item (t.dirMetas e).inodeMaxCluster x) := by
    intro e he
    by_cases hep : e = p
    · subst hep
      rw [hself, hfs, hpvol]
      exact ⟨hf.ext.loc.fileOk, fun hne => absurd rfl hne⟩
    · have hapart := h.apart e p he hpt hep
      rw [hfs] at hapart
      have hchain : IsChain ((t.setParent d p fs dm).volume (t.fsOf e)) (t.chainOf e) := by
        rw [hvol]
        exact (h.file e he).chain.congr rfl fun _ _ => rfl
      have hpooled := (h.file e he).repooled hf.ext.loc hchain ⟨rfl, rfl⟩ (by rw [hvol]; exact ⟨rfl, rfl⟩) hapart
      rw [hother e hep]
      exact ⟨hpooled.1, fun _ => hpooled.2⟩
  have hchain : ∀ e, t.InTree e → (t.setParent d p fs dm).chainOf e = t.chainOf e := by
    intro e he
    have hok : ((t.setParent d p fs dm).volume (t.fsOf e)).superBlock.Ok := by
      rw [hvol]
      exact h.superBlock e he
    exact (hfiles e he).1.chain_eq hok
  have hin : ∀ {e}, (t.setParent d p fs dm).InTree e → t.InTree e := fun he => (hs.inTree _).mp he
  refine ⟨⟨fun e he => ?_, fun e he => ?_, fun e he => ?_, fun e₁ e₂ he₁ he₂ hne x ho₁ ho₂ => ?_, fun e q he hq => ?_, fun e he => ?_⟩, hs, hchain⟩
  · rw [hfsOf, hvol]
    exact h.superBlock e (hin he)
  · rw [hfsOf, hvol]
    have hb := h.bitmap e (hin he)
    exact ⟨hb.zero, hb.one, hb.bit⟩
  · rw [hfsOf, hchain e (hin he)]
    exact (hfiles e (hin he)).1
  · have hused : ∀ e, t.InTree e → e ≠ p → ∀ x, Owns (t.volume (t.fsOf e)) (t.dirMetas e).item (t.dirMetas e).inodeMaxCluster x →
        Owns fs dm.item dm.inodeMaxCluster x → False := by
      rintro e he hep x ⟨key, hl, rfl⟩ hown
      rcases hf.ext.loc.owns _ hown with hold | hnew
      · have hapart := h.apart e p he hpt hep
        rw [hfs] at hapart
        exact hapart _ ⟨key, hl, rfl⟩ hold
      · have htaken := (h.file e he).inodeOk.used key hl
        have hfree : Bitmap.get (t.volume (t.fsOf e)).inodeBitmap (key.id (t.volume (t.fsOf e)).inodes (t.dirMetas e).item) = false := hnew
        rw [htaken] at hfree
        cases hfree
    rw [hfsOf] at ho₁ ho₂
    by_cases h₁ : e₁ = p
    · have h₂ : e₂ ≠ p := fun h₂ => hne (h₁.trans h₂.symm)
      rw [h₁, hself, hfs, hpvol] at ho₁
      rw [hother e₂ h₂] at ho₂
      exact hused e₂ (hin he₂) h₂ x ((hfiles e₂ (hin he₂)).2 h₂ x ho₂) ho₁
    · rw [hother e₁ h₁] at ho₁
      have hold₁ := (hfiles e₁ (hin he₁)).2 h₁ x ho₁
      by_cases h₂ : e₂ = p
      · rw [h₂, hself, hfs, hpvol] at ho₂
        exact hused e₁ (hin he₁) h₁ x hold₁ ho₂
      · rw [hother e₂ h₂] at ho₂
        exact h.apart e₁ e₂ (hin he₁) (hin he₂) hne x hold₁ ((hfiles e₂ (hin he₂)).2 h₂ x ho₂)
  · obtain ⟨hq', hfsq⟩ := h.parent e q (hin he) hq
    exact ⟨(hs.inTree q).mpr hq', hfsq⟩
  · exact h.off e (hin he)

/-- The entry that is taken for the one of `d`, on the blocks `b`. -/
def dentryOn (t : Tree) (b : Disk) (d p : Nat) : Dentry := (List.range 32).map fun j => byteAt b (t.entryAddr d p j)

/-- What `metaStat` says of `d` where its volume has the blocks `b`. -/
def statOn (t : Tree) (b : Disk) (d : Nat) : Kstat :=
  match (t.nodes d).parent with
  | none => t.stat d
  | some p => t.entryStat d (t.dentryOn b d p)

theorem dentryOn_get (t : Tree) (b : Disk) (d p : Nat) {j : Nat} (hj : j < 32) :
    (t.dentryOn b d p).getD j 0 = byteAt b (t.entryAddr d p j) := by
  unfold dentryOn
  rw [List.getD_eq_getElem _ _ (by simpa using hj), List.getElem_map, List.getElem_range]

theorem timeFields_lt {j : Nat} (h : j ∈ timeFields) : j < 32 := by
  have := mem_timeFields.mp h
  omega

/-- Blocks with the same times say the same. -/
theorem statOn_eq_iff (t : Tree) (b b' : Disk) {d p : Nat} (hp : (t.nodes d).parent = some p) :
    t.statOn b' d = t.statOn b d ↔ ∀ j ∈ timeFields, byteAt b' (t.entryAddr d p j) = byteAt b (t.entryAddr d p j) := by
  have hbytes : (∀ j ∈ timeFields, (t.dentryOn b' d p).getD j 0 = (t.dentryOn b d p).getD j 0) ↔
      ∀ j ∈ timeFields, byteAt b' (t.entryAddr d p j) = byteAt b (t.entryAddr d p j) := by
    refine forall₂_congr fun j hj => ?_
    rw [dentryOn_get t b' d p (timeFields_lt hj), dentryOn_get t b d p (timeFields_lt hj)]
  rw [← hbytes, ← times_eq_iff]
  unfold statOn
  rw [hp]
  constructor
  · intro heq
    exact ⟨congrArg Kstat.st_atime_sec heq, congrArg Kstat.st_mtime_sec heq⟩
  · rintro ⟨ha, hm⟩
    simp only [entryStat, ha, hm]

theorem reports_none (hp : (t.nodes d).parent = none) : t.Reports d st ↔ st = t.stat d := by
  unfold Reports metaStat
  rw [hp]
  constructor
  · rintro ⟨t', hr⟩
    cases hr
    rfl
  · rintro rfl
    exact ⟨t, rfl⟩

theorem reports_some (hp : (t.nodes d).parent = some p) : t.Reports d st ↔ ∃ o de fs dm,
    findEntry relocClus (t.volume (t.fsOf d)) (t.dirMetas p) (t.nodes d).off = .ok (o, de, fs, dm) ∧ st = t.entryStat d de := by
  unfold Reports metaStat
  rw [hp]
  constructor
  · rintro ⟨t', hr⟩
    cases hfind : findEntry relocClus (t.volume (t.fsOf d)) (t.dirMetas p) (t.nodes d).off with
    | error e =>
      simp only [hfind] at hr
      cases hr
    | ok r =>
      obtain ⟨o, de, fs, dm⟩ := r
      simp only [hfind] at hr
      cases hr
      exact ⟨o, de, fs, dm, rfl, rfl⟩
  · rintro ⟨o, de, fs, dm, hfind, rfl⟩
    simp only [hfind]
    exact ⟨_, rfl⟩

/-- **`metaStat`**, when it returns. -/
theorem Clustered.reports (h : t.Clustered) (hd : t.InTree d) (hr : t.Reports d st) : st = t.statOn (t.volume (t.fsOf d)).disk d := by
  unfold statOn
  cases hp : (t.nodes d).parent with
  | none => exact (reports_none hp).mp hr
  | some p =>
    obtain ⟨o, de, fs, dm, hfind, rfl⟩ := (reports_some hp).mp hr
    rw [(h.found hd hp hfind).entry]
    rfl

theorem stat_congr {t' : Tree} (hfile : (t'.dirMetas d).attr = (t.dirMetas d).attr ∧ (t'.dirMetas d).fileSize = (t.dirMetas d).fileSize ∧
      (t'.dirMetas d).dev = (t.dirMetas d).dev)
    (hsb : (t'.volume (t'.fsOf d)).superBlock = (t.volume (t.fsOf d)).superBlock) : t'.stat d = t.stat d := by
  unfold Tree.stat
  simp only [hfile.1, hfile.2.1, hfile.2.2, hsb]

theorem reports_unique {st' : Kstat} (h : t.Reports d st) (h' : t.Reports d st') : st = st' := by
  obtain ⟨t₁, h⟩ := h
  obtain ⟨t₂, h'⟩ := h'
  rw [h] at h'
  cases h'
  rfl

/-- A search changes nothing of what `metaStat` says of an entry. -/
theorem statOn_setParent (h : t.Clustered) (hd : t.InTree d) (hp : (t.nodes d).parent = some p)
    (hf : EntryFound (t.volume (t.fsOf d)) (t.dirMetas p) (t.chainOf p) (t.nodes d).off o de fs dm) (he : t.InTree e) (b : Disk) :
    (t.setParent d p fs dm).statOn b e = t.statOn b e := by
  obtain ⟨-, -, hchain⟩ := h.looked hd hp hf
  have hvol : ∀ u, (t.setParent d p fs dm).volume u = { t.volume u with inodes := fs.inodes, inodeBitmap := fs.inodeBitmap } :=
    volume_setParent hf.pool
  have hstat : (t.setParent d p fs dm).stat e = t.stat e := by
    refine stat_congr ?_ (by show ((t.setParent d p fs dm).volume (t.fsOf e)).superBlock = _; rw [hvol])
    rw [dirMetas_setParent]
    split
    · rename_i hep
      obtain ⟨cur, cnt, item, k, hdm⟩ := hf.file
      rw [hdm, hep]
      exact ⟨rfl, rfl, rfl⟩
    · exact ⟨rfl, rfl, rfl⟩
  have hentry : ∀ q, (t.nodes e).parent = some q → (t.setParent d p fs dm).dentryOn b e q = t.dentryOn b e q := by
    intro q hq
    have hq' := (h.parent e q he hq).1
    unfold dentryOn entryAddr
    rw [hchain q hq', hvol]
    rfl
  unfold statOn
  show (match (t.nodes e).parent with | none => _ | some p => _) = _
  cases hq : (t.nodes e).parent with
  | none => exact hstat
  | some q => simp only [entryStat, hstat, hentry q hq]

end Look

/-! ## Setting the times -/

section Set

variable {t t' : Tree} {d f g p o a : Nat} {st : Kstat} {fs : FileSystem} {dm : DirMeta} {de : Dentry} {b : Disk} {ts₀ ts₁ : TimeSpec}
  {time : Nat} {t₁ : Tree}

/-- The byte that counts the long entries of `d`. -/
def countAddr (t : Tree) (d p : Nat) : Nat :=
  placeByte (t.volume (t.fsOf d)).superBlock (place (t.volume (t.fsOf d)).superBlock (t.chainOf p) (t.nodes d).off) 0

/-- Entries begin at multiples of 32 or one byte before, so that no count is changed with a time. -/
theorem Clustered.not_alters_count (h : t.Clustered) (hf : t.InTree f) (hd : t.InTree d) (p : Nat) :
    ¬ t.Alters f ts₀ ts₁ (t.countAddr d p) := by
  rintro ⟨q, -, j, hj, heq, -⟩
  have hfrom := place_mod (L := t.chainOf p) (h.superBlock d hd) (h.off d hd).1
  have hto := place_mod (L := t.chainOf q) (h.superBlock f hf)
    (entryOff_aligned (t.volume (t.fsOf f)) (t.chainOf q) (h.off f hf).1)
  have hmod := congrArg (· % 32) heq
  unfold countAddr entryAddr entryByte at hmod
  simp only [placeByte_mod] at hmod
  have hj := mem_timeFields.mp hj
  omega

/-- What `eSetTime` does. -/
theorem Clustered.eSetTime_some (h : t.Clustered) (hf : t.InTree f) (h₀ : ts₀.Given) (h₁ : ts₁.Given)
    (hr : t.eSetTime f ts₀ ts₁ time = .ok t') : ∃ p o de fs dm b, (t.nodes f).parent = some p ∧
      findEntry reloc_clus (t.volume (t.fsOf f)) (t.dirMetas p) (t.nodes f).off = .ok (o, de, fs, dm) ∧
      t' = t.setParent f p { fs with disk := b } dm ∧
      (∀ j ∈ timeFields, byteAt b (t.entryAddr f p j) = timeByte ts₀.second ts₁.second j) ∧
      ∀ a, ¬ t.Alters f ts₀ ts₁ a → byteAt b a = byteAt (t.volume (t.fsOf f)).disk a := by
  unfold Tree.eSetTime at hr
  cases hp : (t.nodes f).parent with
  | none =>
    rw [hp] at hr
    cases hr
  | some p =>
    rw [hp] at hr
    simp only at hr
    cases hfind : findEntry reloc_clus (t.volume (t.fsOf f)) (t.dirMetas p) (t.nodes f).off with
    | error e =>
      rw [hfind] at hr
      cases hr
    | ok r =>
      obtain ⟨o, de, fs, dm⟩ := r
      rw [hfind] at hr
      have hfound := h.found hf hp (findEntry_copy (h.superBlock f hf) (h.bitmap f hf) (h.directory hf hp).2.2 (h.off f hf).2
        (h.off f hf).1 hfind).1
      have hsb : fs.superBlock = (t.volume (t.fsOf f)).superBlock := hfound.ext.loc.superBlock
      have hok : fs.superBlock.Ok := by
        rw [hsb]
        exact h.superBlock f hf
      have hcheck := place_check (L := t.chainOf p) (h.superBlock f hf)
        (entryOff_aligned (t.volume (t.fsOf f)) (t.chainOf p) (h.off f hf).1) (Nat.le_refl 32) (by decide)
      rw [← hfound.place, ← hsb] at hcheck
      have hset : ts₁.set (time / 1000000) Dentry.setMtime (ts₀.set (time / 1000000) Dentry.setAtime de) =
          (Dentry.setAtime de ts₀.second).setMtime ts₁.second := by
        unfold TimeSpec.set
        rw [if_neg h₀.1, if_neg h₁.1, if_neg h₀.2, if_neg h₁.2]
      obtain ⟨k, b, hwrite, hin, hout⟩ := rwClusWrite_byte (c := dm.curClus) hok
        (fun i => ((Dentry.setAtime de ts₀.second).setMtime ts₁.second).getD i 0) (by decide) hcheck
      simp only [hset, hwrite] at hr
      cases hr
      have haddr : ∀ j, placeByte fs.superBlock (dm.curClus, o) j = t.entryAddr f p j := fun j => by
        rw [hsb, hfound.place]
        rfl
      have hlen : de.length = 32 := by
        rw [hfound.entry, List.length_map, List.length_range]
      have hold : ∀ j < 32, de.getD j 0 = byteAt (t.volume (t.fsOf f)).disk (t.entryAddr f p j) := fun j hj => by
        rw [hfound.entry]
        exact t.dentryOn_get _ f p hj
      have hnew : ∀ j < 32, byteAt b (t.entryAddr f p j) =
          if j ∈ timeFields then timeByte ts₀.second ts₁.second j else byteAt (t.volume (t.fsOf f)).disk (t.entryAddr f p j) := by
        intro j hj
        rw [← haddr, hin j hj, setTimes_get hlen, hold j hj, haddr]
      refine ⟨p, o, de, fs, dm, b, rfl, hfind, rfl, fun j hj => ?_, fun a ha => ?_⟩
      · rw [hnew j (timeFields_lt hj), if_pos hj]
      · by_cases hmem : ∃ j < 32, a = t.entryAddr f p j
        · obtain ⟨j, hj, rfl⟩ := hmem
          rw [hnew j hj]
          split
          · rename_i htime
            by_contra hne
            exact ha ⟨p, hp, j, htime, rfl, fun heq => hne heq.symm⟩
          · rfl
        · rw [hout a fun j hj heq => hmem ⟨j, hj, by rw [heq, haddr]⟩, hfound.pool.disk]

/-- The tree where volume `v` has the blocks `b`. -/
def withDisk (t : Tree) (v : Nat) (b : Disk) : Tree := t.setVolume v { t.volume v with disk := b }

theorem volume_withDisk (t : Tree) (v u : Nat) (b : Disk) :
    (t.withDisk v b).volume u = if u = v then { t.volume u with disk := b } else t.volume u := by
  unfold withDisk
  rw [volume_setVolume]
  split
  · rename_i hu
    rw [hu]
  · rfl

theorem setParent_disk (t : Tree) (d p : Nat) (fs : FileSystem) (dm : DirMeta) (b : Disk) :
    t.setParent d p { fs with disk := b } dm = (t.setParent d p fs dm).withDisk (t.fsOf d) b := by
  have hvol : (t.setParent d p fs dm).volume (t.fsOf d) = fs := by
    show (t.setVolume (t.fsOf d) fs).volume (t.fsOf d) = fs
    rw [volume_setVolume, if_pos rfl]
  unfold withDisk
  rw [hvol]
  unfold Tree.setParent Tree.setVolume Tree.setMeta
  simp only [Function.update_idem, Function.update_self]

/-- **`metaStat` on other blocks**, with the same chains and the same counts, returns where it did. -/
theorem Clustered.reports_withDisk (h : t.Clustered) (hg : t.InTree g) {v : Nat}
    (hfat : ∀ e, t.InTree e → t.fsOf e = v → ∀ c ∈ t.chainOf e, fatEntry { t.volume v with disk := b } c = fatEntry (t.volume v) c)
    (hcount : ∀ q, (t.nodes g).parent = some q → t.fsOf g = v →
      byteAt b (t.countAddr g q) = byteAt (t.volume v).disk (t.countAddr g q)) (hr : t.Reports g st) :
    (t.withDisk v b).Reports g (t.statOn ((t.withDisk v b).volume (t.fsOf g)).disk g) := by
  have hvol := volume_withDisk t v (t.fsOf g) b
  have hstat : (t.withDisk v b).stat g = t.stat g := by
    refine stat_congr ⟨rfl, rfl, rfl⟩ ?_
    show ((t.withDisk v b).volume (t.fsOf g)).superBlock = _
    rw [hvol]
    split <;> rfl
  unfold statOn
  cases hq : (t.nodes g).parent with
  | none => exact (reports_none (t := t.withDisk v b) hq).mpr hstat.symm
  | some q =>
    obtain ⟨o, de, fs, dm, hfind, -⟩ := (reports_some hq).mp hr
    obtain ⟨hqt, hfs, hfile⟩ := h.directory hg hq
    have hother : ∃ o fs dm, findEntry relocClus ((t.withDisk v b).volume (t.fsOf g)) (t.dirMetas q) (t.nodes g).off =
        .ok (o, t.dentryOn ((t.withDisk v b).volume (t.fsOf g)).disk g q, fs, dm) := by
      rw [hvol]
      split
      · rename_i hv
        subst hv
        exact ⟨_, _, _, findEntry_disk (h.superBlock g hg) (h.bitmap g hg) hfile (h.off g hg).2 (h.off g hg).1
          (hfat q hqt hfs) (hcount q hq rfl) hfind⟩
      · rw [hfind, (h.found hg hq hfind).entry]
        exact ⟨_, _, _, rfl⟩
    obtain ⟨o', fs', dm', hfind'⟩ := hother
    refine (reports_some (t := t.withDisk v b) hq).mpr ⟨o', _, fs', dm', hfind', ?_⟩
    simp only [entryStat, hstat]

theorem u32At_inj {b b' : Disk} (h : u32At b' a = u32At b a) {i : Nat} (hi : i < 4) : byteAt b' (a + i) = byteAt b (a + i) := by
  unfold u32At at h
  refine BitVec.eq_of_toNat_eq ?_
  obtain rfl | rfl | rfl | rfl : i = 0 ∨ i = 1 ∨ i = 2 ∨ i = 3 := by omega
  · rw [Nat.add_zero]
    omega
  · omega
  · omega
  · omega

/-- A written entry: the tree after the search for it, of which one volume has other blocks. -/
structure Stamped (t t₁ t' : Tree) (f p : Nat) (ts₀ ts₁ : TimeSpec) (b : Disk) : Prop where
  parent : (t.nodes f).parent = some p
  written : t' = t₁.withDisk (t.fsOf f) b
  looked : ∃ st, t.metaStat f = .ok (st, t₁)
  clustered : t₁.Clustered
  still : Still t t₁
  chainOf : ∀ e, t.InTree e → t₁.chainOf e = t.chainOf e
  statOn : ∀ e b, t.InTree e → t₁.statOn b e = t.statOn b e
  countAddr : ∀ e q, t.InTree e → t.InTree q → t₁.countAddr e q = t.countAddr e q
  volume : ∀ u, PoolOnly (t.volume u) (t₁.volume u)
  file : ∀ e, ∃ cur cnt item k, t₁.dirMetas e = { t.dirMetas e with curClus := cur, clusCnt := cnt, item, inodeMaxCluster := k }
  again : ∃ st, t₁.Reports f st
  stamped : ∀ j ∈ timeFields, byteAt b (t.entryAddr f p j) = timeByte ts₀.second ts₁.second j
  kept : ∀ a, ¬ t.Alters f ts₀ ts₁ a → byteAt b a = byteAt (t.volume (t.fsOf f)).disk a

/-- What setting the times of an entry leaves on the disk. -/
theorem Clustered.stamped (h : t.Clustered) (hf : t.InTree f) (h₀ : ts₀.Given) (h₁ : ts₁.Given)
    (hr : t.eSetTime f ts₀ ts₁ time = .ok t') : ∃ t₁ p b, Stamped t t₁ t' f p ts₀ ts₁ b := by
  obtain ⟨p, o, de, fs, dm, b, hp, hfind, rfl, hin, hout⟩ := h.eSetTime_some hf h₀ h₁ hr
  obtain ⟨hpt, hfs, hfile⟩ := h.directory hf hp
  obtain ⟨hcopy, hne, hheld, hheld'⟩ := findEntry_copy (h.superBlock f hf) (h.bitmap f hf) hfile (h.off f hf).2 (h.off f hf).1 hfind
  have hfound := h.found hf hp hcopy
  obtain ⟨hc₁, hstill, hchain⟩ := h.looked hf hp hfound
  have hvol : ∀ u, (t.setParent f p fs dm).volume u = { t.volume u with inodes := fs.inodes, inodeBitmap := fs.inodeBitmap } :=
    volume_setParent hfound.pool
  have hself : (t.setParent f p fs dm).dirMetas p = dm := by rw [dirMetas_setParent, if_pos rfl]
  have hpvol : (t.setParent f p fs dm).volume (t.fsOf f) = fs := by
    obtain ⟨inodes, bits, rfl⟩ := hfound.pool
    rw [hvol]
  refine ⟨t.setParent f p fs dm, p, b, hp, setParent_disk .., ⟨t.entryStat f de, ?_⟩, hc₁, hstill, hchain,
    fun e b he => statOn_setParent h hf hp hfound he b, fun e q he hq => ?_, fun u => ⟨_, _, hvol u⟩, fun e => ?_, ?_, hin, hout⟩
  · unfold metaStat
    rw [hp]
    simp only [hcopy]
  · unfold countAddr
    rw [hchain q hq]
    show placeByte ((t.setParent f p fs dm).volume (t.fsOf e)).superBlock
      (place ((t.setParent f p fs dm).volume (t.fsOf e)).superBlock (t.chainOf q) (t.nodes e).off) 0 = _
    rw [hvol]
  · rw [dirMetas_setParent]
    split
    · rename_i he
      rw [he]
      exact hfound.file
    · exact ⟨_, _, _, _, rfl⟩
  · obtain ⟨o', de', fs', dm', hagain⟩ := exists_findEntry (by rw [hfound.ext.loc.superBlock]; exact h.superBlock f hf)
      hfound.ext.loc.bitmapOk hfound.ext.loc.fileOk (h.off f hf).2 (h.off f hf).1 hne (by rw [hfound.ext.loc.superBlock]; exact hheld)
      (by
        have hoff : entryOff fs (t.chainOf p) (t.nodes f).off = entryOff (t.volume (t.fsOf f)) (t.chainOf p) (t.nodes f).off := by
          unfold entryOff
          rw [hfound.ext.loc.superBlock, hfound.pool.disk]
        rw [hoff, hfound.ext.loc.superBlock]
        exact hheld')
    refine ⟨_, (reports_some (t := t.setParent f p fs dm) hp).mpr ⟨o', de', fs', dm', ?_, rfl⟩⟩
    show findEntry relocClus ((t.setParent f p fs dm).volume (t.fsOf f)) ((t.setParent f p fs dm).dirMetas p) (t.nodes f).off = _
    rw [hpvol, hself, hagain]

/-- The bytes that are changed. -/
theorem Stamped.alters_iff (hs : Stamped t t₁ t' f p ts₀ ts₁ b) (a : Nat) :
    t.Alters f ts₀ ts₁ a ↔ byteAt b a ≠ byteAt (t.volume (t.fsOf f)).disk a := by
  constructor
  · rintro ⟨q, hq, j, hj, rfl, hne⟩ heq
    obtain rfl := Option.some.inj (hs.parent.symm.trans hq)
    rw [hs.stamped j hj] at heq
    exact hne heq.symm
  · intro hne
    by_contra hno
    exact hne (hs.kept a hno)

theorem Stamped.disk (hs : Stamped t t₁ t' f p ts₀ ts₁ b) (u : Nat) :
    (t'.volume u).disk = if u = t.fsOf f then b else (t.volume u).disk := by
  rw [hs.written, volume_withDisk]
  split
  · rfl
  · exact (hs.volume u).disk

theorem Stamped.superBlock (hs : Stamped t t₁ t' f p ts₀ ts₁ b) (u : Nat) : (t'.volume u).superBlock = (t.volume u).superBlock := by
  have hsame : (t₁.volume u).superBlock = (t.volume u).superBlock := by
    obtain ⟨_, _, hvol⟩ := hs.volume u
    rw [hvol]
  rw [hs.written, volume_withDisk]
  split <;> exact hsame

/-- Chains whose entries are kept on the written volume. -/
theorem Stamped.fat (hs : Stamped t t₁ t' f p ts₀ ts₁ b) (d : Nat) :
    (∀ c ∈ t.chainOf d, fatEntry (t'.volume (t.fsOf d)) c = fatEntry (t.volume (t.fsOf d)) c) ↔
      (t.fsOf d = t.fsOf f → ∀ c ∈ t.chainOf d, ∀ i < 4,
        ¬ t.Alters f ts₀ ts₁ ((t.volume (t.fsOf f)).superBlock.rsvdSecCnt * 512 + 4 * c + i)) := by
  have hentry : ∀ c, fatEntry (t'.volume (t.fsOf d)) c =
      u32At (t'.volume (t.fsOf d)).disk ((t.volume (t.fsOf d)).superBlock.rsvdSecCnt * 512 + 4 * c) := fun c => by
    rw [← hs.superBlock]
    rfl
  simp only [hentry, hs.disk]
  constructor
  · intro hkept hv c hc i hi hal
    have heq := hkept c hc
    rw [if_pos hv] at heq
    refine (hs.alters_iff _).mp hal ?_
    rw [hv] at heq
    exact u32At_inj heq hi
  · intro hkept c hc
    by_cases hv : t.fsOf d = t.fsOf f
    · rw [if_pos hv]
      refine u32At_congr fun i hi => ?_
      rw [hv]
      exact hs.kept _ (hkept hv c hc i hi)
    · rw [if_neg hv]
      rfl

/-- What `metaStat` says of an entry after the call, where it returns after the search for that of `f`. -/
theorem Stamped.reports (hs : Stamped t t₁ t' f p ts₀ ts₁ b) (h : t.Clustered) (hf : t.InTree f)
    (hfat : ∀ d, t.InTree d → ∀ c ∈ t.chainOf d, fatEntry (t'.volume (t.fsOf d)) c = fatEntry (t.volume (t.fsOf d)) c)
    (hg : t.InTree g) (hr : t₁.Reports g st) : t'.Reports g (t.statOn (t'.volume (t.fsOf g)).disk g) := by
  have hin : ∀ e, t₁.InTree e ↔ t.InTree e := hs.still.inTree
  have hfsOf : ∀ e, t₁.fsOf e = t.fsOf e := fun e => by
    unfold Tree.fsOf
    rw [hs.still.nodes]
  obtain ⟨inodes, bits, hvol⟩ := hs.volume (t.fsOf f)
  have hres := hs.clustered.reports_withDisk (b := b) (v := t.fsOf f) ((hin g).mpr hg) (fun e he hv c hc => ?_) (fun q hq _ => ?_) hr
  · rw [← hs.written, hs.statOn g _ hg, hfsOf] at hres
    exact hres
  · have he := (hin e).mp he
    rw [hs.chainOf e he] at hc
    rw [hfsOf] at hv
    have hkept := hfat e he c hc
    rw [hs.written, volume_withDisk, if_pos hv, hv] at hkept
    rw [hkept, hvol]
    rfl
  · rw [hs.still.nodes] at hq
    rw [hvol, hs.countAddr g q hg (h.parent g q hg hq).1]
    exact hs.kept _ (h.not_alters_count hf hg q)

/-- The contents that are kept. -/
theorem Stamped.contents (hs : Stamped t t₁ t' f p ts₀ ts₁ b) (d : Nat) :
    fileBytes (t'.volume (t.fsOf d)) (t'.dirMetas d) (t.chainOf d) = fileBytes (t.volume (t.fsOf d)) (t.dirMetas d) (t.chainOf d) ↔
      (t.fsOf d = t.fsOf f → ∀ j < (t.dirMetas d).fileSize, ¬ t.Alters f ts₀ ts₁ (clusAddr (t.volume (t.fsOf f)).superBlock
        ((t.chainOf d).getD (j / (t.volume (t.fsOf f)).superBlock.bytsPerClus) 0) + j % (t.volume (t.fsOf f)).superBlock.bytsPerClus)) := by
  have hsize : (t'.dirMetas d).fileSize = (t.dirMetas d).fileSize := by
    obtain ⟨cur, cnt, item, k, hdm⟩ := hs.file d
    rw [hs.written]
    show (t₁.dirMetas d).fileSize = _
    rw [hdm]
  unfold fileBytes
  rw [hsize, List.map_inj_left]
  simp only [List.mem_range]
  unfold chainByte
  simp only [hs.superBlock, hs.disk]
  constructor
  · intro hkept hv j hj hal
    have heq := hkept j hj
    rw [if_pos hv, hv] at heq
    exact (hs.alters_iff _).mp hal heq
  · intro hkept j hj
    by_cases hv : t.fsOf d = t.fsOf f
    · rw [if_pos hv, hv]
      exact hs.kept _ (hkept hv j hj)
    · rw [if_neg hv]

/-- **File times**: `eSetTime` with two times sets those of the file and nothing else, exactly where no byte it changes
keeps a time of another file, or belongs to the FAT entries of a chain or to the contents of a file. -/
theorem eSetTime_times_iff (h : t.Clustered) (hf : t.InTree f) (h₀ : ts₀.Given) (h₁ : ts₁.Given)
    (hr : t.eSetTime f ts₀ ts₁ time = .ok t') : t.TimesSet t' f ts₀ ts₁ ↔ t.Spared f ts₀ ts₁ := by
  obtain ⟨t₁, p, b, hs⟩ := h.stamped hf h₀ h₁ hr
  have hdisk := hs.disk
  constructor
  · intro hset
    have hfat : ∀ d, t.InTree d → ∀ c ∈ t.chainOf d, fatEntry (t'.volume (t.fsOf d)) c = fatEntry (t.volume (t.fsOf d)) c :=
      fun d hd => (hset.clusters d hd).2
    refine ⟨fun g q hg hne hv hq hst hboth j hj => ?_, fun d hd hv => (hs.fat d).mp (hfat d hd) hv, fun d hd hv hdir =>
      (hs.contents d).mp (hset.contents d hd hdir) hv⟩
    obtain ⟨st, hst⟩ := hst
    have hafter := hset.stat g st hg hne hst hboth
    obtain ⟨st₁, t₁', st', hlook, hst'⟩ := hboth
    obtain ⟨st₂, hlook₂⟩ := hs.looked
    rw [hlook₂] at hlook
    cases hlook
    have heq := reports_unique (hs.reports h hf hfat hg hst') hafter
    rw [h.reports hg hst, statOn_eq_iff t _ _ hq] at heq
    have hbyte := heq j hj
    rw [hdisk, if_pos hv, hv] at hbyte
    exact fun hal => (hs.alters_iff _).mp hal hbyte
  · intro hspared
    have hfat : ∀ d, t.InTree d → ∀ c ∈ t.chainOf d, fatEntry (t'.volume (t.fsOf d)) c = fatEntry (t.volume (t.fsOf d)) c :=
      fun d hd => (hs.fat d).mpr fun hv => hspared.clusters d hd hv
    have hnodes : t'.nodes = t.nodes := by
      rw [hs.written]
      exact hs.still.nodes
    refine ⟨?_, fun g st hg hne hst hboth => ?_, hnodes, fun d hd => ⟨?_, hfat d hd⟩, fun d hd hdir =>
      (hs.contents d).mpr fun hv => hspared.contents d hd hv hdir⟩
    · obtain ⟨st, hst⟩ := hs.again
      refine ⟨_, hs.reports h hf hfat hf hst, ?_⟩
      unfold statOn
      rw [hs.parent]
      refine times_of_bytes fun j hj => ?_
      rw [dentryOn_get t _ f p (timeFields_lt hj), hdisk, if_pos rfl]
      exact hs.stamped j hj
    · obtain ⟨st₁, t₁', st', hlook, hst'⟩ := id hboth
      obtain ⟨st₂, hlook₂⟩ := hs.looked
      rw [hlook₂] at hlook
      cases hlook
      have hafter := hs.reports h hf hfat hg hst'
      have hsame : t.statOn (t'.volume (t.fsOf g)).disk g = st := by
        rw [h.reports hg hst]
        cases hq : (t.nodes g).parent with
        | none =>
          unfold statOn
          rw [hq]
        | some q =>
          refine (statOn_eq_iff t _ _ hq).mpr fun j hj => ?_
          rw [hdisk]
          by_cases hv : t.fsOf g = t.fsOf f
          · rw [if_pos hv, hv]
            exact hs.kept _ (hspared.times g q hg hne hv hq ⟨st, hst⟩ hboth j hj)
          · rw [if_neg hv]
      rw [hsame] at hafter
      exact hafter
    · obtain ⟨cur, cnt, item, k, hdm⟩ := hs.file d
      rw [hs.written]
      show (t₁.dirMetas d).firstClus = _
      rw [hdm]

/-- Where the place lies within the directory, only the times of others are at stake. -/
theorem Clustered.spared_of_times (h : t.Clustered) (hf : t.InTree f)
    (hin : ∀ p, (t.nodes f).parent = some p → entryOff (t.volume (t.fsOf f)) (t.chainOf p) (t.nodes f).off /
      (t.volume (t.fsOf f)).superBlock.bytsPerClus < (t.chainOf p).length)
    (hfiles : ∀ p d, (t.nodes f).parent = some p → t.InTree d → t.fsOf d = t.fsOf f → t.isDir d = false →
      (t.dirMetas d).fileSize ≤ (t.chainOf d).length * (t.volume (t.fsOf f)).superBlock.bytsPerClus ∧ ∀ c ∈ t.chainOf d, c ∉ t.chainOf p)
    (htimes : ∀ g q, t.InTree g → g ≠ f → t.fsOf g = t.fsOf f → (t.nodes g).parent = some q →
      ∀ j ∈ timeFields, ¬ t.Alters f ts₀ ts₁ (t.entryAddr g q j)) : t.Spared f ts₀ ts₁ := by
  have hok := h.superBlock f hf
  refine ⟨fun g q hg hne hv hq _ _ => htimes g q hg hne hv hq, fun d hd hv c hc i hi hal => ?_, fun d hd hv hdir j hj hal => ?_⟩
  · obtain ⟨p, hp, k, hk, heq, -⟩ := hal
    obtain ⟨-, -, hfile⟩ := h.directory hf hp
    have haddr := (entryByte_inside hok hfile.chain (h.off f hf).1 (hin p hp) (timeFields_lt hk)).1
    have hc := (h.file d hd).chain.inRange c hc
    rw [hv] at hc
    have hdata := data_clusAddr (t.volume (t.fsOf f)).superBlock
      ((t.chainOf p).getD (entryOff (t.volume (t.fsOf f)) (t.chainOf p) (t.nodes f).off / (t.volume (t.fsOf f)).superBlock.bytsPerClus) 0)
      (entryOff (t.volume (t.fsOf f)) (t.chainOf p) (t.nodes f).off % (t.volume (t.fsOf f)).superBlock.bytsPerClus + k)
    rw [← haddr] at hdata
    have hfat := (hok.inRange_bounds hc).1
    have hle := hok.fat_le
    unfold SuperBlock.Data at hdata
    unfold entryAddr at heq
    omega
  · obtain ⟨p, hp, k, hk, heq, -⟩ := hal
    obtain ⟨-, -, hfile⟩ := h.directory hf hp
    obtain ⟨haddr, hbound⟩ := entryByte_inside hok hfile.chain (h.off f hf).1 (hin p hp) (timeFields_lt hk)
    obtain ⟨hsize, hapart⟩ := hfiles p d hp hd hv hdir
    have hidx : j / (t.volume (t.fsOf f)).superBlock.bytsPerClus < (t.chainOf d).length :=
      (Nat.div_lt_iff_lt_mul hok.bpc_pos).mpr (Nat.lt_of_lt_of_le hj hsize)
    have hmem := List.getElem_mem hidx
    have hmem' := List.getElem_mem (hin p hp)
    rw [← List.getD_eq_getElem _ 0 hidx] at hmem
    rw [← List.getD_eq_getElem _ 0 (hin p hp)] at hmem'
    have hrange := (h.file d hd).chain.inRange _ hmem
    rw [hv] at hrange
    have hdisj := clusAddr_disjoint hok hrange (hfile.chain.inRange _ hmem') fun hsame => hapart _ hmem (hsame ▸ hmem')
    have hlt := Nat.mod_lt j hok.bpc_pos
    unfold entryAddr at heq
    rw [haddr] at heq
    omega

end Set

/-! ## Two files at one place -/

def createB : Op := .create atBoot AT_FDCWD pathB .file 0

/-- `/a` and `/b` are created, and the times of `/a` are set: the tree before, `metaStat` of `/b` there and after
`metaStat` of `/a`, and the tree and `metaStat` of `/b` after the call. -/
def sharedTimes : Except Halt (Tree × Kstat × Tree × Kstat) := do
  let t ← (rootSet (smallFs 4)).exec 1 createA
  let t ← t.exec 1 createB
  let (before, _) ← t.metaStat 8190
  let (_, t₁) ← t.metaStat 8191
  let _ ← t₁.metaStat 8190
  let t' ← t.eSetTime 8191 ⟨1, 0⟩ ⟨2, 0⟩ 0
  let (after, _) ← t'.metaStat 8190
  return (t, before, t', after)

theorem sharedTimes_differ : (sharedTimes.toOption.map fun q => decide ((q.1.fileSystem 0).valid = true ∧
    (q.1.nodes (rootOf 0)).firstChild = some 8190 ∧ (q.1.nodes 8190).nextBrother = some 8191 ∧ (q.1.nodes 8191).nextBrother = none ∧
    q.2.1.st_atime_sec = 0 ∧ q.2.2.2.st_atime_sec = 1)) = some true := by
  decide +kernel

/-- The times of a created file are those of another. -/
theorem eSetTime_shared : ¬ ∀ (t t' : Tree) (f : Nat) (ts₀ ts₁ : TimeSpec) (time : Nat), Reached (fun _ _ _ => True) t → t.InTree f →
    ts₀.Given → ts₁.Given → t.eSetTime f ts₀ ts₁ time = .ok t' → t.TimesSet t' f ts₀ ts₁ := by
  intro h
  obtain ⟨⟨t, before, t', after⟩, hrun, hfacts⟩ := Loop.exists_of_toOption sharedTimes_differ
  obtain ⟨t₀, hcreate₀, hrun⟩ := Loop.bind_ok hrun
  obtain ⟨t₁, hcreate₁, hrun⟩ := Loop.bind_ok hrun
  obtain ⟨⟨st₀, s₀⟩, hbefore, hrun⟩ := Loop.bind_ok hrun
  obtain ⟨⟨st₁, s₁⟩, hfirst, hrun⟩ := Loop.bind_ok hrun
  obtain ⟨⟨st₂, s₂⟩, hsecond, hrun⟩ := Loop.bind_ok hrun
  obtain ⟨t₂, hset, hrun⟩ := Loop.bind_ok hrun
  obtain ⟨⟨st₃, s₃⟩, hafter, hrun⟩ := Loop.bind_ok hrun
  cases hrun
  obtain ⟨hvalid, hroot, hnext, hlast, hzero, hone⟩ := of_decide_eq_true hfacts
  have hreach : Reached (fun _ _ _ => True) t := ((reached_small _).step ⟨1, createA, trivial, hcreate₀⟩).step ⟨1, createB, trivial, hcreate₁⟩
  have hcells : Cells t.next (t.nodes (rootOf 0)).firstChild [8190, 8191] := by
    rw [hroot]
    refine .cons ?_
    show Cells t.next (t.nodes 8190).nextBrother [8191]
    rw [hnext]
    refine .cons ?_
    show Cells t.next (t.nodes 8191).nextBrother []
    rw [hlast]
    exact .nil
  have hin : ∀ i ∈ [8190, 8191], t.InTree i := fun i hi => .child (.root ⟨0, hvalid, rfl⟩) ⟨_, hcells, hi⟩
  have hdone := h t t' 8191 ⟨1, 0⟩ ⟨2, 0⟩ 0 hreach (hin 8191 (by decide)) (by decide) (by decide) hset
  have hsame := reports_unique ⟨_, hafter⟩
    (hdone.stat 8190 before (hin 8190 (by decide)) (by decide) ⟨_, hbefore⟩ ⟨_, _, _, hfirst, _, hsecond⟩)
  rw [hsame, hzero] at hone
  cases hone

/-- The small volume with `/a` alone, as `metaAlloc` links it. -/
def withA : Tree :=
  let t := rootSet (smallFs 4)
  { t with dirMetaHead := (t.nodes 8191).nextBrother }.link 8191 (rootOf 0) [0x61]

theorem withA_inTree {d : Nat} (hd : withA.InTree d) : d = rootOf 0 ∨ d = 8191 := by
  have hroot : (withA.nodes (rootOf 0)).firstChild = some 8191 := by decide
  have hnext : withA.next 8191 = none := by decide
  have hleaf : (withA.nodes 8191).firstChild = none := by decide
  induction hd with
  | root hr =>
    obtain ⟨f, hf, rfl⟩ := hr
    exact .inl (congrArg rootOf (rootSet_valid hf))
  | child _ hi ih =>
    obtain ⟨l, hl, hi⟩ := hi
    rcases ih with rfl | rfl
    · rw [hroot] at hl
      cases hl with
      | cons hl =>
        rw [hnext] at hl
        cases hl
        exact .inr (List.mem_singleton.mp hi)
    · rw [hleaf] at hl
      cases hl
      cases hi

theorem withA_volume {d : Nat} (hd : withA.InTree d) : withA.volume (withA.fsOf d) = smallFs 4 := by
  have hslot : withA.volume 0 = smallFs 4 := by
    have hvol := rootSet_volume (smallFs 4)
    have hfs : (rootSet (smallFs 4)).fsOf (rootOf 0) = 0 := by decide
    rw [hfs] at hvol
    exact hvol
  have hfs : withA.fsOf (rootOf 0) = 0 ∧ withA.fsOf 8191 = 0 := by decide
  rcases withA_inTree hd with rfl | rfl
  · rw [hfs.1, hslot]
  · rw [hfs.2, hslot]

theorem withA_file : FileOk (smallFs 4) (withA.dirMetas (rootOf 0)) [2] ∧ FileOk (smallFs 4) (withA.dirMetas 8191) [] := by
  have hchain := (((rootOnly_small 4).filesOk (by decide)).file 0).chain
  have hroot : withA.dirMetas (rootOf 0) = rootMeta 2 := rootSet_meta (smallFs 4)
  have hfile : withA.dirMetas 8191 = zeroMeta := by
    show Function.update pooled.dirMetas (rootOf 0) (rootMeta (smallFs 4).superBlock.rootClus) 8191 = _
    rw [Function.update_of_ne (by decide)]
    rfl
  rw [hroot, hfile]
  refine ⟨⟨hchain, rfl, fun _ => Nat.one_pos, Nat.le_refl 1, fun i c hi _ hc => ?_, ⟨fun key hl => ?_, fun key _ hl => ?_⟩⟩,
    ⟨IsChain.nil _, rfl, fun hne => absurd rfl hne, Nat.zero_le _, fun i c _ _ hc => ?_, ⟨fun key hl => ?_, fun key _ hl => ?_⟩⟩⟩
  · obtain rfl : i = 0 := Nat.lt_one_iff.mp hi
    cases hc
    rfl
  · exact absurd hl (not_live_of_le_one (by decide))
  · exact absurd hl (not_live_of_le_one (by decide))
  · cases hc
  · exact absurd hl (not_live_of_le_one (by decide))
  · exact absurd hl (not_live_of_le_one (by decide))

theorem withA_chainOf : withA.chainOf (rootOf 0) = [2] ∧ withA.chainOf 8191 = [] := by
  have hroot : withA.InTree (rootOf 0) := .root ⟨0, by decide, rfl⟩
  have hfs : withA.fsOf 8191 = withA.fsOf (rootOf 0) := by decide
  have hvol := withA_volume hroot
  unfold Tree.chainOf
  rw [hfs, hvol]
  exact ⟨withA_file.1.chain_eq small_ok_four, withA_file.2.chain_eq small_ok_four⟩

theorem withA_clustered : withA.Clustered := by
  have hinv := (fatInit_smallState small_ok_four (by decide)).inv
  have hroot : withA.InTree (rootOf 0) := .root ⟨0, by decide, rfl⟩
  have hparent : (withA.nodes (rootOf 0)).parent = none ∧ (withA.nodes 8191).parent = some (rootOf 0) := by decide
  have hnone : ∀ d, withA.InTree d → (withA.dirMetas d).inodeMaxCluster ≤ 1 := fun d hd => by
    rcases withA_inTree hd with rfl | rfl <;> decide
  refine ⟨fun d hd => ?_, fun d hd => ?_, fun d hd => ?_, fun d e hd _ _ x ho => ?_, fun d p hd hp => ?_, fun d hd => ?_⟩
  · rw [withA_volume hd]
    exact small_ok_four
  · rw [withA_volume hd]
    exact hinv.bitmap
  · rw [withA_volume hd]
    rcases withA_inTree hd with rfl | rfl
    · rw [withA_chainOf.1]
      exact withA_file.1
    · rw [withA_chainOf.2]
      exact withA_file.2
  · obtain ⟨key, hl, -⟩ := ho
    exact absurd hl (not_live_of_le_one (hnone d hd))
  · rcases withA_inTree hd with rfl | rfl
    · rw [hparent.1] at hp
      cases hp
    · rw [hparent.2] at hp
      cases hp
      exact ⟨hroot, by decide⟩
  · rcases withA_inTree hd with rfl | rfl <;> decide

/-- `/a` is the only file, and its times are set. -/
theorem eSetTime_times_iff_alone : ∃ t', withA.eSetTime 8191 ⟨1, 0⟩ ⟨2, 0⟩ 0 = .ok t' ∧ withA.TimesSet t' 8191 ⟨1, 0⟩ ⟨2, 0⟩ := by
  have hroot : withA.InTree (rootOf 0) := .root ⟨0, by decide, rfl⟩
  have hparent : (withA.nodes (rootOf 0)).parent = none ∧ (withA.nodes 8191).parent = some (rootOf 0) := by decide
  have hfile : withA.InTree 8191 := by
    refine .child hroot ⟨[8191], ?_, List.mem_singleton_self _⟩
    have hfirst : (withA.nodes (rootOf 0)).firstChild = some 8191 := by decide
    have hnext : withA.next 8191 = none := by decide
    rw [hfirst]
    exact .cons (hnext ▸ .nil)
  have hcall : ((withA.eSetTime 8191 ⟨1, 0⟩ ⟨2, 0⟩ 0).toOption.map fun _ => true) = some true := by decide +kernel
  obtain ⟨t', hr, -⟩ := Loop.exists_of_toOption hcall
  have hspared : withA.Spared 8191 ⟨1, 0⟩ ⟨2, 0⟩ := by
    refine withA_clustered.spared_of_times hfile (fun p hp => ?_) (fun p d hp hd _ hdir => ?_) (fun g q hg hne _ hq => ?_)
    · rw [hparent.2] at hp
      cases hp
      rw [withA_volume hfile, withA_chainOf.1]
      decide +kernel
    · rcases withA_inTree hd with rfl | rfl
      · exact absurd hdir (by decide)
      · rw [withA_chainOf.2]
        exact ⟨by decide, fun c hc => by cases hc⟩
    · rcases withA_inTree hg with rfl | rfl
      · rw [hparent.1] at hq
        cases hq
      · exact absurd rfl hne
  exact ⟨t', hr, (eSetTime_times_iff withA_clustered hfile (by decide) (by decide) hr).mpr hspared⟩

end Tree

end Exaros.Dir
