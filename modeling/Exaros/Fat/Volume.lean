import Exaros.Lib.Bitmap

/-!
# The FAT32 volume

The cluster layer of `kernel/fs/fat.c`: the superblock `fatInit` computes, the FAT entries, the
cluster bitmap, and `allocClus`, `freeClus` and `zeroClus` over them. The block store is coherent: a
sector reads as it was last written, so `fs->read`, `bwrite` and `brelse` are a read and a write of
`disk`. Values of type `u32` are natural numbers, reduced where the source's arithmetic can leave the
range.

Proofs do not look at sectors: `byteAt` numbers the bytes of the whole disk, an entry of the FAT and
a cluster are ranges of it, and each function is described by the bytes it changes.
-/

namespace Exaros.Fat

abbrev Byte := BitVec 8
abbrev Sector := Nat → Byte
abbrev Disk := Nat → Sector

def BUFFER_SIZE : Nat := 512
def FAT32_EOC : Nat := 0x0ffffff8

/-- Reduction to 32 bits. -/
def u32 (x : Nat) : Nat := x % 2 ^ 32

/-- The places where the modelled file system stops the kernel. -/
inductive Panic where
  /-- `fatInit`: "not FAT32 volume" -/
  | notFat32
  /-- `fatInit`: "bytsPerSec != BUFFER_SIZE" -/
  | bytsPerSec
  /-- `allocClus`: no clear bit in the cluster bitmap -/
  | allocClus
  /-- `rwClus`: "offset out of range" -/
  | rwClus
  /-- the assertions at the head of `relocClus` -/
  | relocClus
  /-- `metaFindInode`: position not cached, or past the third level -/
  | metaFindInode
  /-- `metaCacheInode`: `assert(pos == meta->inodeMaxCluster)` -/
  | metaCacheInode
  /-- `inodeFree`: the inode is not in use -/
  | inodeFree
  /-- the pool is full: where `inodeAlloc` scans on past the end of its bitmap, the model stops -/
  | inodeAlloc
  /-- `dirMetaAlloc`: `assert(dirMetaHead != NULL)` -/
  | dirMetaAlloc
deriving DecidableEq, Repr

/-! ## Sectors -/

/-- `*(u8 *)(data + off)`. -/
def getU8 (s : Sector) (off : Nat) : Nat := (s off).toNat

/-- `*(u16 *)(data + off)`. -/
def getU16 (s : Sector) (off : Nat) : Nat := (s off).toNat + 2 ^ 8 * (s (off + 1)).toNat

/-- `*(u32 *)(data + off)`. -/
def getU32 (s : Sector) (off : Nat) : Nat :=
  (s off).toNat + 2 ^ 8 * (s (off + 1)).toNat + 2 ^ 16 * (s (off + 2)).toNat + 2 ^ 24 * (s (off + 3)).toNat

/-- `*(u32 *)(data + off) = x`. -/
def setU32 (s : Sector) (off x : Nat) : Sector := fun i =>
  if i = off then BitVec.ofNat 8 x
  else if i = off + 1 then BitVec.ofNat 8 (x / 2 ^ 8)
  else if i = off + 2 then BitVec.ofNat 8 (x / 2 ^ 16)
  else if i = off + 3 then BitVec.ofNat 8 (x / 2 ^ 24)
  else s i

/-- `bwrite` of sector `sec`. -/
def bwrite (d : Disk) (sec : Nat) (s : Sector) : Disk := fun n => if n = sec then s else d n

/-! ## The superblock -/

structure SuperBlock where
  firstDataSec : Nat
  dataSecCnt : Nat
  dataClusCnt : Nat
  bytsPerClus : Nat
  bytsPerSec : Nat
  secPerClus : Nat
  rsvdSecCnt : Nat
  numFATs : Nat
  totSec : Nat
  FATsz : Nat
  rootClus : Nat
deriving DecidableEq, Repr

/-- The superblock as `fatInit` computes it from sector zero. -/
def readSuperBlock (b : Sector) : SuperBlock :=
  let bytsPerSec := getU16 b 11
  let secPerClus := getU8 b 13
  let rsvdSecCnt := getU16 b 14
  let numFATs := getU8 b 16
  let totSec := if getU16 b 19 = 0 then getU32 b 32 else getU16 b 19
  let FATsz := getU32 b 36
  let firstDataSec := u32 (rsvdSecCnt + u32 (numFATs * FATsz))
  let dataSecCnt := u32 (totSec + (2 ^ 32 - firstDataSec))
  { firstDataSec
    dataSecCnt
    dataClusCnt := dataSecCnt / secPerClus
    bytsPerClus := secPerClus * bytsPerSec
    bytsPerSec, secPerClus, rsvdSecCnt, numFATs, totSec, FATsz
    rootClus := getU32 b 44 }

/-- A call of `allocClus`: the cluster it returned, with its bit and its entry as they were before. -/
structure AllocCall where
  cluster : Nat
  bit : Bool
  entry : Nat
deriving DecidableEq, Repr

/-- A mounted volume, with the pool of cluster-cache inodes its files share. -/
structure FileSystem where
  superBlock : SuperBlock
  disk : Disk
  clusterBitmap : Bitmap.Words
  /-- `inodes[]`: pools of 64 items -/
  inodes : Nat → Nat → Nat
  inodeBitmap : Bitmap.Words
  /-- history of the calls of `allocClus`; no function reads it -/
  allocLog : List AllocCall

/-- `firstSecOfClus`. -/
def firstSecOfClus (sb : SuperBlock) (cluster : Nat) : Nat :=
  u32 (u32 (u32 (cluster + (2 ^ 32 - 2)) * sb.secPerClus) + sb.firstDataSec)

/-- `fatSecOfClus(fs, cluster, 1)`. -/
def fatSecOfClus (sb : SuperBlock) (cluster : Nat) : Nat :=
  u32 (sb.rsvdSecCnt + u32 (cluster <<< 2) / sb.bytsPerSec)

/-- `fatOffsetOfClus`. -/
def fatOffsetOfClus (sb : SuperBlock) (cluster : Nat) : Nat := u32 (cluster <<< 2) % sb.bytsPerSec

/-- `readFat`. -/
def readFat (fs : FileSystem) (cluster : Nat) : Nat :=
  if FAT32_EOC ≤ cluster then cluster
  else if fs.superBlock.dataClusCnt + 1 < cluster then 0
  else getU32 (fs.disk (fatSecOfClus fs.superBlock cluster)) (fatOffsetOfClus fs.superBlock cluster)

/-- `writeFat`. -/
def writeFat (fs : FileSystem) (cluster content : Nat) : FileSystem :=
  if fs.superBlock.dataClusCnt + 1 < cluster then fs
  else
    let fatSec := fatSecOfClus fs.superBlock cluster
    { fs with
      disk := bwrite fs.disk fatSec
        (setU32 (fs.disk fatSec) (fatOffsetOfClus fs.superBlock cluster) content) }

/-- The loop of `zeroClus` over `n` sectors from `sec` on. -/
def zeroSectors (d : Disk) (sec : Nat) : Nat → Disk
  | 0 => d
  | n + 1 => zeroSectors (bwrite d sec fun _ => 0) (u32 (sec + 1)) n

/-- `zeroClus`. -/
def zeroClus (fs : FileSystem) (cluster : Nat) : FileSystem :=
  { fs with disk := zeroSectors fs.disk (firstSecOfClus fs.superBlock cluster) fs.superBlock.secPerClus }

/-- How many clusters the FAT describes, by its size in sectors. -/
def totalClusterNumber (sb : SuperBlock) : Nat := u32 (sb.FATsz * sb.bytsPerSec) / 4

/-- `allocClus`: the lowest cluster the bitmap shows free, entered as a chain of its own and cleared. -/
def allocClus (fs : FileSystem) : Except Panic (Nat × FileSystem) :=
  match Bitmap.findClear fs.clusterBitmap (totalClusterNumber fs.superBlock / 64) 0 with
  | none => .error .allocClus
  | some cluster =>
    let entryPerSec := fs.superBlock.bytsPerSec / 4
    let sec := u32 (fs.superBlock.rsvdSecCnt + cluster / entryPerSec)
    let call := ⟨cluster, Bitmap.get fs.clusterBitmap cluster, getU32 (fs.disk sec) (4 * (cluster % entryPerSec))⟩
    let fs := { fs with
      allocLog := fs.allocLog ++ [call]
      clusterBitmap := Bitmap.set fs.clusterBitmap cluster
      disk := bwrite fs.disk sec (setU32 (fs.disk sec) (4 * (cluster % entryPerSec)) (FAT32_EOC + 7)) }
    .ok (cluster, zeroClus fs cluster)

/-- `freeClus`. -/
def freeClus (fs : FileSystem) (cluster : Nat) : FileSystem :=
  let fs := writeFat fs cluster 0
  { fs with clusterBitmap := Bitmap.clear fs.clusterBitmap cluster }

/-- The loop of `fatInit` over the entries of one FAT sector. -/
def markSector (bm : Bitmap.Words) (s : Sector) (first : Nat) : Nat → Bitmap.Words
  | 0 => bm
  | n + 1 =>
    let bm := markSector bm s first n
    if getU32 s (4 * n) ≠ 0 then Bitmap.set bm (first + n) else bm

/-- The loop of `fatInit` that fills the cluster bitmap, over the first `n` sectors of the FAT. -/
def fillBitmap (sb : SuperBlock) (d : Disk) : Nat → Bitmap.Words
  | 0 => fun _ => 0
  | n + 1 =>
    let entryPerSec := sb.bytsPerSec / 4
    markSector (fillBitmap sb d n) (d (sb.rsvdSecCnt + n)) (n * entryPerSec) entryPerSec

/-- `fatInit`, up to the loading of the directory tree. The letters `FAT32` stand at offset 82. -/
def fatInit (d : Disk) (inodes : Nat → Nat → Nat) (inodeBitmap : Bitmap.Words) :
    Except Panic FileSystem :=
  let b := d 0
  if ¬ (getU8 b 82 = 0x46 ∧ getU8 b 83 = 0x41 ∧ getU8 b 84 = 0x54 ∧ getU8 b 85 = 0x33 ∧ getU8 b 86 = 0x32) then
    .error .notFat32
  else
    let superBlock := readSuperBlock b
    if superBlock.bytsPerSec ≠ BUFFER_SIZE then .error .bytsPerSec
    else .ok
      { superBlock, disk := d, inodes, inodeBitmap, allocLog := []
        clusterBitmap := fillBitmap superBlock d superBlock.FATsz }

/-! ## The disk byte by byte -/

/-- Byte `a` of the disk. -/
def byteAt (d : Disk) (a : Nat) : Byte := d (a / 512) (a % 512)

theorem byteAt_sector (d : Disk) (sec : Nat) {i : Nat} (hi : i < 512) : byteAt d (sec * 512 + i) = d sec i := by
  unfold byteAt
  rw [show (sec * 512 + i) / 512 = sec by omega, show (sec * 512 + i) % 512 = i by omega]

theorem byteAt_bwrite (d : Disk) (sec : Nat) (s : Sector) (a : Nat) :
    byteAt (bwrite d sec s) a = if a / 512 = sec then s (a % 512) else byteAt d a := by
  unfold byteAt bwrite
  split <;> rfl

/-- The `u32` at byte `a` of the disk. -/
def u32At (d : Disk) (a : Nat) : Nat :=
  (byteAt d a).toNat + 2 ^ 8 * (byteAt d (a + 1)).toNat + 2 ^ 16 * (byteAt d (a + 2)).toNat +
    2 ^ 24 * (byteAt d (a + 3)).toNat

theorem u32At_congr {d d' : Disk} {a : Nat} (h : ∀ i < 4, byteAt d' (a + i) = byteAt d (a + i)) :
    u32At d' a = u32At d a := by
  unfold u32At
  rw [h 1 (by omega), h 2 (by omega), h 3 (by omega)]
  have h0 := h 0 (by omega)
  simp only [Nat.add_zero] at h0
  rw [h0]

theorem u32At_sector (d : Disk) (sec : Nat) {off : Nat} (h : off + 3 < 512) :
    u32At d (sec * 512 + off) = getU32 (d sec) off := by
  unfold u32At getU32
  have hbyte : ∀ i < 4, byteAt d (sec * 512 + off + i) = d sec (off + i) := fun i hi => by
    rw [Nat.add_assoc, byteAt_sector d sec (by omega)]
  rw [hbyte 1 (by omega), hbyte 2 (by omega), hbyte 3 (by omega), byteAt_sector d sec (by omega)]

/-- Writing a `u32` that lies within one sector. -/
theorem byteAt_setU32 (d : Disk) (sec : Nat) {off : Nat} (x : Nat) {a : Nat}
    (ha : a < sec * 512 + off ∨ sec * 512 + off + 4 ≤ a) :
    byteAt (bwrite d sec (setU32 (d sec) off x)) a = byteAt d a := by
  rw [byteAt_bwrite]
  split
  · rename_i hsec
    unfold setU32
    rw [if_neg (by omega), if_neg (by omega), if_neg (by omega), if_neg (by omega)]
    unfold byteAt
    rw [hsec]
  · rfl

theorem u32At_setU32 (d : Disk) (sec : Nat) {off x : Nat} (h : off + 3 < 512) (hx : x < 2 ^ 32) :
    u32At (bwrite d sec (setU32 (d sec) off x)) (sec * 512 + off) = x := by
  rw [u32At_sector _ sec h]
  have hs : bwrite d sec (setU32 (d sec) off x) sec = setU32 (d sec) off x := if_pos rfl
  have h1 : ¬ off + 1 = off := by omega
  have h2 : ¬ off + 2 = off := by omega
  have h21 : ¬ off + 2 = off + 1 := by omega
  have h3 : ¬ off + 3 = off := by omega
  have h31 : ¬ off + 3 = off + 1 := by omega
  have h32 : ¬ off + 3 = off + 2 := by omega
  rw [hs]
  unfold getU32 setU32
  simp only [if_true, if_neg h1, if_neg h2, if_neg h21, if_neg h3, if_neg h31, if_neg h32, BitVec.toNat_ofNat]
  omega

theorem getU32_lt (s : Sector) (off : Nat) : getU32 s off < 2 ^ 32 := by
  unfold getU32
  omega

/-- The sectors are zero, and the others as they were. -/
theorem byteAt_zeroSectors (d : Disk) (n sec : Nat) (h : sec + n ≤ 2 ^ 32) (a : Nat) :
    byteAt (zeroSectors d sec n) a =
      if sec * 512 ≤ a ∧ a < (sec + n) * 512 then 0 else byteAt d a := by
  induction n generalizing d sec with
  | zero =>
    rw [if_neg (by omega)]
    rfl
  | succ n ih =>
    unfold zeroSectors
    by_cases hn : n = 0
    · subst hn
      unfold zeroSectors
      rw [byteAt_bwrite]
      have : (a / 512 = sec) ↔ (sec * 512 ≤ a ∧ a < (sec + (0 + 1)) * 512) := by omega
      simp only [this]
    · have hu : u32 (sec + 1) = sec + 1 := Nat.mod_eq_of_lt (by omega)
      rw [hu, ih _ _ (by omega), byteAt_bwrite]
      by_cases h2 : a / 512 = sec
      · have h1 : ¬ ((sec + 1) * 512 ≤ a ∧ a < (sec + 1 + n) * 512) := by omega
        have h3 : sec * 512 ≤ a ∧ a < (sec + (n + 1)) * 512 := by omega
        rw [if_neg h1, if_pos h2, if_pos h3]
      · have hiff : ((sec + 1) * 512 ≤ a ∧ a < (sec + 1 + n) * 512) ↔
            (sec * 512 ≤ a ∧ a < (sec + (n + 1)) * 512) := by omega
        simp only [hiff, if_neg h2]

end Exaros.Fat
