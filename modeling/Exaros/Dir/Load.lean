import Exaros.Dir.Tree
import Exaros.Lib.Loop

/-!
# Loading directories

`dirMetaNext` decodes the entries of a FAT32 directory, `loadDirMetas` builds the tree of a volume from
them, and `fatInit` does so for the volume of a slot of `fileSystem[]`; `initRootFileSystem` is the boot.

An entry is 32 bytes. A group of long entries, each with 13 characters of the name, stands before the short
entry with the attributes; a first byte of zero ends the directory, and a run of entries that start with
`0xe5` counts as a group of its own, without a name.
-/

namespace Exaros.Dir

open Fat

def CHAR_LONG_NAME : Nat := 13
def CHAR_SHORT_NAME : Nat := 11
def ATTR_LONG_NAME : Nat := 0x0f
def LAST_LONG_ENTRY : Nat := 0x40
def EMPTY_ENTRY : Nat := 0xe5
def END_OF_ENTRY : Nat := 0x00

/-- `fileSystem[32]` -/
def FILE_SYSTEMS : Nat := 32

/-- A `Dentry` as it lies on the disk. -/
abbrev Dentry := List Byte

namespace Dentry

def u8 (e : Dentry) (i : Nat) : Nat := (e.getD i 0).toNat
def u16 (e : Dentry) (i : Nat) : Nat := e.u8 i + 2 ^ 8 * e.u8 (i + 1)
def u32 (e : Dentry) (i : Nat) : Nat := e.u16 i + 2 ^ 16 * e.u16 (i + 2)

/-- `lne.order`, which is also `sne.name[0]` -/
def order (e : Dentry) : Nat := e.u8 0
/-- `sne.attr`, which is also `lne.attr` -/
def attr (e : Dentry) : Nat := e.u8 11
def nt_res (e : Dentry) : Nat := e.u8 12
def firstClus (e : Dentry) : Nat := e.u16 20 * 2 ^ 16 + e.u16 26
def file_size (e : Dentry) : Nat := e.u32 28

/-- `n` wide characters from byte `i` on. -/
def wchars (e : Dentry) (i n : Nat) : List Nat := (List.range n).map fun k => e.u16 (i + 2 * k)

end Dentry

/-- What `snstr` stores for the wide characters `src`: their low bytes up to a zero, and zeros, of which
there is one fewer than the zero leaves room for. -/
def snstr (src : List Nat) : List Byte :=
  let chars := src.takeWhile (· ≠ 0)
  chars.map (BitVec.ofNat 8) ++ List.replicate (src.length - chars.length - 1) 0

/-- `memmove(buf + i, src, src.length)` -/
def store (buf : List Byte) (i : Nat) (src : List Byte) : List Byte := buf.take i ++ src ++ buf.drop (i + src.length)

/-- `readDentryName` of a long entry. -/
def readLongName (buf : List Byte) (i : Nat) (e : Dentry) : List Byte :=
  store (store (store buf i (snstr (e.wchars 1 5))) (i + 5) (snstr (e.wchars 14 6))) (i + 11) (snstr (e.wchars 28 2))

/-- `readDentryName` of a short entry. -/
def readShortName (buf : List Byte) (e : Dentry) : List Byte :=
  let base := (e.take 8).takeWhile (· ≠ 0x20)
  let ext := ((e.drop 8).take 3).takeWhile (· ≠ 0x20)
  let name := base ++ (if e.getD 8 0 ≠ 0x20 then [dot] else []) ++ ext
  store buf 0 (name ++ List.replicate (CHAR_SHORT_NAME + 2 - name.length) 0)

def readDentryInfo (dm : DirMeta) (e : Dentry) : DirMeta :=
  { dm.setItem 0 e.firstClus with
    attr := e.attr
    firstClus := e.firstClus
    inodeMaxCluster := 1
    fileSize := e.file_size
    curClus := e.firstClus
    clusCnt := 0
    reserve := e.nt_res }

/-- What `dirMetaNext` returns: -1, or 0 or 1 with `*count`. -/
inductive Next where
  | none
  | empty (count : Nat)
  | entry (count : Nat) (e : Dentry)
deriving DecidableEq, Repr

/-- The loop of `dirMetaNext`, for `n` entries. `buf` is the name with the byte of `attribute` and the
three bytes of padding behind it, which the last long entry of a name may reach; `last` is `*count` once
`count` has been made null. -/
def nextLoop : Nat → FileSystem → DirMeta → Nat → List Byte → Nat → Option Nat →
    Except Halt (Next × List Byte × FileSystem × DirMeta)
  | 0, _, _, _, _, _, _ => .error .spins
  | n + 1, fs, dm, off, buf, cnt, last =>
    match relocClus fs dm off false with
    | .error e => .error (.fat e)
    | .ok (off2, fs, dm) =>
      if off2 = -1 then .ok (.none, buf, fs, dm)
      else
        match rwClusRead fs dm.curClus off2.toNat 32 with
        | .error e => .error (.fat e)
        | .ok (r, entry) =>
          let entry : Dentry := entry
          if r ≠ 32 ∨ entry.order = END_OF_ENTRY then .ok (.none, buf, fs, dm)
          else if entry.order = EMPTY_ENTRY then nextLoop n fs dm (Fat.u32 (off + 32)) buf (cnt + 1) last
          else if cnt ≠ 0 then
            -- with `count` null, `*count = cnt` is a store through it
            if last.isSome then .error .null else .ok (.empty cnt, buf, fs, dm)
          else if entry.attr = ATTR_LONG_NAME then
            let lcnt := entry.order &&& 0xbf
            -- with `count` null already, `*count = lcnt + 1` is a store through it, too
            if entry.order &&& LAST_LONG_ENTRY ≠ 0 ∧ last.isSome then .error .null
            else if lcnt = 0 ∨ 20 < lcnt then .error .overrun
            else
              nextLoop n fs dm (Fat.u32 (off + 32)) (readLongName buf ((lcnt - 1) * CHAR_LONG_NAME) entry) cnt
                (if entry.order &&& LAST_LONG_ENTRY ≠ 0 then some (lcnt + 1) else last)
          else
            match last with
            | some count => .ok (.entry count entry, buf, fs, dm)
            | none => .ok (.entry 1 entry, readShortName buf entry, fs, dm)

/-- A chain that has not ended after this many entries does not end. -/
def dirTurns (sb : SuperBlock) : Nat := (sb.dataClusCnt + 1) * sb.bytsPerClus / 32 + 1

namespace Tree

def dirMetaNext (t : Tree) (dir child off : Nat) : Except Halt (Next × Tree) :=
  if ¬ t.isDir dir ∨ off % 32 ≠ 0 then .error .dirMetaNext
  else
    match nextLoop (dirTurns (t.volume (t.fsOf dir)).superBlock) (t.volume (t.fsOf dir)) (t.dirMetas dir) off
        (List.replicate 260 0) 0 none with
    | .error e => .error e
    | .ok (r, buf, fs, dm) =>
      let t := t.setFile dir fs dm
      let t := t.setNode child { t.nodes child with filename := cstr (buf.take (FAT32_MAX_FILENAME + 1)) }
      match r with
      | .entry _ e => .ok (r, t.setMeta child (readDentryInfo (t.dirMetas child) e))
      | _ => .ok (r, t)

/-- The entry `dirMetaNext` has filled, put into directory `parent`. -/
def adopt (t : Tree) (f parent child off : Nat) : Tree :=
  let t := t.setNode child { t.nodes child with
    parent := some parent
    off
    fileSystem := f
    nextBrother := (t.nodes parent).firstChild }
  t.setNode parent { t.nodes parent with firstChild := some child }

def relocStart (t : Tree) (d : Nat) : Except Halt Tree :=
  match relocClus (t.volume (t.fsOf d)) (t.dirMetas d) 0 false with
  | .error e => .error (.fat e)
  | .ok (_, fs, dm) => .ok (t.setFile d fs dm)

/-- The loop of `loadDirMetas`, for `n` entries; `child` is the spare. What `dirMetaNext` returns is compared
with -1 before it is stored in `type`, so that a run of empty entries becomes an entry too. Every entry takes a
`DirMeta` from the pool. -/
def loadLoop : Nat → Tree → Nat → Nat → Nat → Nat → Except Halt Tree
  | 0, _, _, _, _, _ => .error .spins
  | n + 1, t, f, parent, child, off => do
    let (r, t) ← t.dirMetaNext parent child off
    match r with
    | .none => return t.dirMetaFree child
    | .empty count | .entry count _ =>
      let t := t.adopt f parent child off
      let t ← (if t.isDir child ∧ (32 < off ∨ parent = rootOf f) then do
          let t ← t.relocStart child
          let (spare, t) ← t.dirMetaAlloc
          loadLoop n t f child spare 0
        else .ok t)
      let (child, t) ← t.dirMetaAlloc
      loadLoop n t f parent child (Fat.u32 (off + count <<< 5))

def loadDirMetas (t : Tree) (f parent : Nat) : Except Halt Tree := do
  let t ← t.relocStart parent
  let (child, t) ← t.dirMetaAlloc
  loadLoop (DIRMETA_NUM + 1) t f parent child 0

/-! ## File systems -/

/-- A record of zeros. -/
def zeroMeta : DirMeta := ⟨0, 0, 0, 0, 0, 0, fun _ => 0, 0, .regular⟩
def zeroNode : Node := ⟨[], 0, none, 0, none, none, none⟩
def zeroVolume : FileSystem := ⟨⟨0, 0, 0, 0, 0, 0, 0, 0, 0, 0, 0⟩, fun _ _ => 0, fun _ => 0, fun _ _ => 0, fun _ => 0, []⟩

/-- `fsAlloc`; the element with its root is cleared. -/
def fsAlloc (t : Tree) : Option (Nat × Tree) :=
  match (List.range FILE_SYSTEMS).find? fun i => !(t.fileSystem i).valid with
  | none => none
  | some i =>
    some (i, { (t.setNode (rootOf i) zeroNode).setMeta (rootOf i) zeroMeta with
      fileSystem := Function.update t.fileSystem i ⟨true, zeroVolume, none⟩ })

/-- The root `fatInit` sets up. -/
def rootMeta (rootClus : Nat) : DirMeta :=
  { attr := ATTR_DIRECTORY ||| ATTR_SYSTEM
    firstClus := rootClus
    fileSize := 0
    curClus := rootClus
    inodeMaxCluster := 1
    clusCnt := 0
    item := fun i => if i = 0 then rootClus else 2 ^ 32 - 1
    reserve := 0
    dev := .regular }

/-- `fatInit` of `fileSystem[f]`, whose `read` finds the blocks `d`. -/
def fatInit (t : Tree) (f : Nat) (d : Disk) : Except Halt Tree :=
  match Fat.fatInit d t.inodes t.inodeBitmap with
  | .error e => .error (.fat e)
  | .ok fs =>
    let t := t.setVolume f fs
    let t := t.setNode (rootOf f) { zeroNode with filename := [slash], fileSystem := f }
    (t.setMeta (rootOf f) (rootMeta fs.superBlock.rootClus)).loadDirMetas f (rootOf f)

/-- The kernel's data before anything has run. -/
def zero : Tree where
  dirMetas := fun _ => zeroMeta
  nodes := fun _ => zeroNode
  dirMetaHead := none
  fileSystem := fun _ => ⟨false, zeroVolume, none⟩
  rootFileSystem := 0
  inodes := fun _ _ => 0
  inodeBitmap := fun _ => 0

/-- The start of `initRootFileSystem`, up to and including `fatInit`: the first element of `fileSystem[]`
is the root, and reads the device. -/
def bootRoot (d : Disk) : Except Halt Tree :=
  match zero.fsAlloc with
  | none => .error .null
  | some (f, t) => ({ t with rootFileSystem := f }.dirMetaInit DIRMETA_NUM).fatInit f d

end Tree

/-! ## The entries made at boot -/

/-- The bytes of a string literal. -/
def bytes (s : String) : List Byte := s.toList.map fun c => BitVec.ofNat 8 c.toNat

/-- What `initRootFileSystem` does with an entry it makes. -/
inductive BootEntry where
  | create (path : List Byte) (type : FileType)
  /-- `meta->dev = dev` -/
  | device (path : List Byte) (dev : Dev)
  /-- `metaWrite` of a text -/
  | write (path : List Byte) (type : FileType) (text : List Byte)

/-- The entries after `/dev/vda2`. -/
def bootEntries : List BootEntry :=
  [.device (bytes "/dev/null") .none, .write (bytes "/sort.src") .char (bytes "3 2 1" ++ [0]), .create (bytes "/tmp") .dir,
    .device (bytes "/dev/urandom") .zero, .device (bytes "/dev/zero") .zero, .create (bytes "/dev/misc") .dir,
    .create (bytes "/dev/misc/rtc") .char, .create (bytes "/proc") .dir, .create (bytes "/proc/meminfo") .char,
    .create (bytes "/proc/mounts") .char, .create (bytes "/proc/localtime") .char, .create (bytes "/proc/sys") .dir,
    .create (bytes "/proc/sys/kernel") .dir, .device (bytes "/proc/sys/kernel/osrelease") .osrelease,
    .create (bytes "/proc/self") .dir, .create (bytes "/etc") .dir, .create (bytes "/etc/adjtime") .char,
    .create (bytes "/etc/localtime") .char, .create (bytes "/var") .dir, .create (bytes "/var/tmp") .dir,
    .create (bytes "/var/tmp/XXX") .file]

namespace Tree

def bootEntry (n : Nat) (c : Caller) (t : Tree) : BootEntry → Except Halt Tree
  | .create path type => (metaCreate n t c AT_FDCWD path type O_RDONLY).map Prod.snd
  | .device path dev =>
    match metaCreate n t c AT_FDCWD path .char O_RDONLY with
    | .error e => .error e
    | .ok (none, _) => .error .null
    | .ok (some d, t) => .ok (t.setMeta d { t.dirMetas d with dev })
  | .write path type text =>
    match metaCreate n t c AT_FDCWD path type O_RDONLY with
    | .error e => .error e
    | .ok (none, _) => .error .null
    | .ok (some d, t) => (t.metaWrite d text 0 text.length).map Prod.snd

/-- `/dev/vda2`, on which the root file system counts as mounted. -/
def bootVda2 (n : Nat) (c : Caller) (t : Tree) : Except Halt Tree :=
  match metaCreate n t c AT_FDCWD (bytes "/dev/vda2") .dir O_RDONLY with
  | .error e => .error e
  | .ok (none, _) => .error .null
  | .ok (some d, t) => .ok (t.setNode d { t.nodes d with head := some t.rootFileSystem })

/-- `initRootFileSystem` on the blocks `d` of the device; `script` is the text `buildScript` writes. -/
def initRootFileSystem (n : Nat) (c : Caller) (script : List Byte) (d : Disk) : Except Halt Tree := do
  let t ← bootRoot d
  let t ← [BootEntry.write (bytes "/auto.sh") .file script, .create (bytes "/var/tmp/XXX") .file,
    .create (bytes "/dev") .dir].foldlM (bootEntry n c) t
  let t ← bootVda2 n c t
  bootEntries.foldlM (bootEntry n c) t

section Boot

variable {t t' : Tree} {n : Nat} {c : Caller} {e : BootEntry}

/-- An entry made at boot is found or created, and then given its device or its text. -/
theorem bootEntry_cases (hr : bootEntry n c t e = .ok t') : ∃ path type r t₁,
    metaCreate n t c AT_FDCWD path type O_RDONLY = .ok (r, t₁) ∧
      (t' = t₁ ∨ ∃ d, r = some d ∧ ((∃ dev, t' = t₁.setMeta d { t₁.dirMetas d with dev }) ∨
        ∃ text x, t₁.metaWrite d text 0 text.length = .ok (x, t'))) := by
  unfold bootEntry at hr
  split at hr
  · rename_i path type
    obtain ⟨⟨r, t₁⟩, hcreate, rfl⟩ := Loop.map_ok hr
    exact ⟨path, type, r, t₁, hcreate, .inl rfl⟩
  · rename_i path dev
    split at hr
    · cases hr
    · cases hr
    · rename_i d t₁ hcreate
      cases hr
      exact ⟨path, .char, some d, t₁, hcreate, .inr ⟨d, rfl, .inl ⟨dev, rfl⟩⟩⟩
  · rename_i path type text
    split at hr
    · cases hr
    · cases hr
    · rename_i d t₁ hcreate
      obtain ⟨⟨x, t₂⟩, hw, rfl⟩ := Loop.map_ok hr
      exact ⟨path, type, some d, t₁, hcreate, .inr ⟨d, rfl, .inr ⟨text, x, hw⟩⟩⟩

theorem bootVda2_cases (hr : bootVda2 n c t = .ok t') : ∃ v t₁,
    metaCreate n t c AT_FDCWD (bytes "/dev/vda2") .dir O_RDONLY = .ok (some v, t₁) ∧
      t' = t₁.setNode v { t₁.nodes v with head := some t₁.rootFileSystem } := by
  unfold bootVda2 at hr
  split at hr
  · cases hr
  · cases hr
  · rename_i v t₁ hcreate
    cases hr
    exact ⟨v, t₁, hcreate, rfl⟩

end Boot

end Tree

end Exaros.Dir
