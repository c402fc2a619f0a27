import Exaros.Fat.Volume

/-!
# Clusters

What the cluster functions do to FAT entries, to the bitmap and to the bytes of the data area, on a
volume whose geometry is sound (`SuperBlock.Ok`): the first FAT has an entry for every data cluster
and lies before the data area.
-/

namespace Exaros.Fat

/-- Sound geometry of a volume with 512-byte sectors. -/
structure SuperBlock.Ok (sb : SuperBlock) : Prop where
  bytsPerSec : sb.bytsPerSec = 512
  secPerClus : 0 < sb.secPerClus
  bytsPerClus : sb.bytsPerClus = sb.secPerClus * 512
  /-- the first FAT ends before the data area -/
  fat_le : sb.rsvdSecCnt + sb.FATsz ≤ sb.firstDataSec
  /-- the FAT has an entry for every data cluster -/
  fat_covers : sb.dataClusCnt + 2 ≤ sb.FATsz * 128
  /-- the size of the FAT in bytes is a `u32` -/
  fat_lt : sb.FATsz * 512 < 2 ^ 32
  clusters_lt : sb.dataClusCnt + 2 ≤ FAT32_EOC
  data_le : sb.firstDataSec + sb.dataClusCnt * sb.secPerClus ≤ 2 ^ 32

/-- A cluster of the data area. -/
def SuperBlock.InRange (sb : SuperBlock) (c : Nat) : Prop := 2 ≤ c ∧ c ≤ sb.dataClusCnt + 1

instance (sb : SuperBlock) (c : Nat) : Decidable (sb.InRange c) := inferInstanceAs (Decidable (_ ∧ _))

/-- The entry of a cluster in the first FAT. -/
def fatEntry (fs : FileSystem) (c : Nat) : Nat := u32At fs.disk (fs.superBlock.rsvdSecCnt * 512 + 4 * c)

/-- The first byte of a data cluster. -/
def clusAddr (sb : SuperBlock) (c : Nat) : Nat := (sb.firstDataSec + (c - 2) * sb.secPerClus) * 512

/-- A byte of the data area. -/
def SuperBlock.Data (sb : SuperBlock) (a : Nat) : Prop := sb.firstDataSec * 512 ≤ a

section Geometry

variable {sb : SuperBlock} {c c' : Nat}

theorem SuperBlock.Ok.inRange_bounds (h : sb.Ok) (hc : sb.InRange c) : c < sb.FATsz * 128 ∧ c < FAT32_EOC := by
  have h1 := h.fat_covers
  have h2 := h.clusters_lt
  have h3 := hc.2
  omega

theorem SuperBlock.Ok.bpc_pos (h : sb.Ok) : 0 < sb.bytsPerClus := by
  have := h.secPerClus
  rw [h.bytsPerClus]
  omega

/-- A cluster ends where the data area's bound allows. -/
theorem SuperBlock.Ok.clus_end (h : sb.Ok) (hc : sb.InRange c) :
    sb.firstDataSec + (c - 2) * sb.secPerClus + sb.secPerClus ≤ 2 ^ 32 := by
  have hle : (c - 2 + 1) * sb.secPerClus ≤ sb.dataClusCnt * sb.secPerClus :=
    Nat.mul_le_mul_right _ (by have := hc.1; have := hc.2; omega)
  have := h.data_le
  rw [Nat.add_mul, Nat.one_mul] at hle
  omega

theorem firstSecOfClus_eq (h : sb.Ok) (hc : sb.InRange c) :
    firstSecOfClus sb c = sb.firstDataSec + (c - 2) * sb.secPerClus := by
  have hend := h.clus_end hc
  have hpos := h.secPerClus
  have h2 := hc.1
  have hlt := (h.inRange_bounds hc).2
  have hsub : u32 (c + (2 ^ 32 - 2)) = c - 2 := by
    unfold u32 FAT32_EOC at *
    omega
  unfold firstSecOfClus
  rw [hsub]
  have hmul : u32 ((c - 2) * sb.secPerClus) = (c - 2) * sb.secPerClus := Nat.mod_eq_of_lt (by omega)
  rw [hmul, Nat.add_comm]
  exact Nat.mod_eq_of_lt (by omega)

theorem fatSecOfClus_eq (h : sb.Ok) (hc : c < sb.FATsz * 128) :
    fatSecOfClus sb c = sb.rsvdSecCnt + c / 128 ∧ fatOffsetOfClus sb c = 4 * (c % 128) := by
  have h28 := h.fat_lt
  have hle := h.fat_le
  have hd := h.data_le
  unfold fatSecOfClus fatOffsetOfClus u32
  rw [h.bytsPerSec, Nat.shiftLeft_eq]
  constructor
  · have : c * 2 ^ 2 % 2 ^ 32 / 512 = c / 128 := by omega
    rw [this]
    have : c / 128 < sb.FATsz := by omega
    have : sb.rsvdSecCnt + c / 128 < 2 ^ 32 ∨ sb.dataClusCnt * sb.secPerClus = 0 := by omega
    omega
  · omega

/-- Distinct clusters occupy distinct bytes. -/
theorem clusAddr_disjoint (h : sb.Ok) (hc : sb.InRange c) (hc' : sb.InRange c') (hne : c ≠ c') :
    clusAddr sb c + sb.bytsPerClus ≤ clusAddr sb c' ∨ clusAddr sb c' + sb.bytsPerClus ≤ clusAddr sb c := by
  have key : ∀ x y : Nat, 2 ≤ x → x < y → clusAddr sb x + sb.bytsPerClus ≤ clusAddr sb y := by
    intro x y hx hxy
    have hle : (x - 2 + 1) * sb.secPerClus ≤ (y - 2) * sb.secPerClus := Nat.mul_le_mul_right _ (by omega)
    rw [Nat.add_mul, Nat.one_mul] at hle
    unfold clusAddr
    rw [h.bytsPerClus]
    omega
  rcases Nat.lt_or_gt_of_ne hne with hlt | hlt
  · exact .inl (key c c' hc.1 hlt)
  · exact .inr (key c' c hc'.1 hlt)

theorem data_clusAddr (sb : SuperBlock) (c i : Nat) : sb.Data (clusAddr sb c + i) := by
  unfold SuperBlock.Data clusAddr
  have := Nat.zero_le ((c - 2) * sb.secPerClus)
  omega

end Geometry

/-! ## FAT entries -/

section Entry

variable {fs : FileSystem} {c c' x a : Nat}

/-- The entry of `c` sits in one sector. -/
theorem fatEntry_eq (fs : FileSystem) (c : Nat) :
    fatEntry fs c = getU32 (fs.disk (fs.superBlock.rsvdSecCnt + c / 128)) (4 * (c % 128)) := by
  have hoff : 4 * (c % 128) + 3 < 512 := by omega
  have haddr : fs.superBlock.rsvdSecCnt * 512 + 4 * c =
      (fs.superBlock.rsvdSecCnt + c / 128) * 512 + 4 * (c % 128) := by omega
  rw [fatEntry, haddr, u32At_sector _ _ hoff]

/-- Entries depend on the bytes before the data area only. -/
theorem fatEntry_congr (fs : FileSystem) {fs' : FileSystem} (h : fs.superBlock.Ok) (hsb : fs'.superBlock = fs.superBlock)
    (hc : c < fs.superBlock.FATsz * 128) (hb : ∀ a, ¬ fs.superBlock.Data a → byteAt fs'.disk a = byteAt fs.disk a) :
    fatEntry fs' c = fatEntry fs c := by
  unfold fatEntry
  rw [hsb]
  refine u32At_congr fun i hi => hb _ ?_
  have := h.fat_le
  unfold SuperBlock.Data
  omega

theorem readFat_eq (h : fs.superBlock.Ok) (hc : c ≤ fs.superBlock.dataClusCnt + 1) :
    readFat fs c = fatEntry fs c := by
  have h1 := h.fat_covers
  have h2 := h.clusters_lt
  obtain ⟨hsec, hoff⟩ := fatSecOfClus_eq h (c := c) (by omega)
  unfold readFat
  rw [if_neg (by omega), if_neg (by omega), hsec, hoff, fatEntry_eq]

/-- Storing a `u32` in the entry of `c`. -/
def storeEntry (fs : FileSystem) (c x : Nat) : FileSystem :=
  { fs with
    disk := bwrite fs.disk (fs.superBlock.rsvdSecCnt + c / 128)
      (setU32 (fs.disk (fs.superBlock.rsvdSecCnt + c / 128)) (4 * (c % 128)) x) }

theorem fatEntry_storeEntry (hx : x < 2 ^ 32) (c' : Nat) :
    fatEntry (storeEntry fs c x) c' = if c' = c then x else fatEntry fs c' := by
  have haddr : fs.superBlock.rsvdSecCnt * 512 + 4 * c =
      (fs.superBlock.rsvdSecCnt + c / 128) * 512 + 4 * (c % 128) := by omega
  split
  · rename_i heq
    subst heq
    unfold fatEntry
    simp only [storeEntry]
    rw [haddr]
    exact u32At_setU32 _ _ (by omega) hx
  · rename_i hne
    unfold fatEntry
    simp only [storeEntry]
    refine u32At_congr fun i hi => byteAt_setU32 _ _ _ ?_
    omega

theorem byteAt_storeEntry (h : fs.superBlock.Ok) (hc : c < fs.superBlock.FATsz * 128)
    (ha : fs.superBlock.Data a) : byteAt (storeEntry fs c x).disk a = byteAt fs.disk a := by
  have := h.fat_le
  unfold SuperBlock.Data at ha
  exact byteAt_setU32 _ _ _ (by omega)

theorem writeFat_eq (h : fs.superBlock.Ok) (hc : c ≤ fs.superBlock.dataClusCnt + 1) (x : Nat) :
    writeFat fs c x = storeEntry fs c x := by
  have h1 := h.fat_covers
  obtain ⟨hsec, hoff⟩ := fatSecOfClus_eq h (c := c) (by omega)
  unfold writeFat storeEntry
  rw [if_neg (by omega), hsec, hoff]

end Entry

/-! ## Clearing, allocating and freeing -/

section Alloc

variable {fs fs' : FileSystem} {c c' : Nat}

/-- `zeroClus` clears the bytes of the cluster and no other. -/
theorem byteAt_zeroClus (fs : FileSystem) (h : fs.superBlock.Ok) (hc : fs.superBlock.InRange c) (a : Nat) :
    byteAt (zeroClus fs c).disk a =
      if clusAddr fs.superBlock c ≤ a ∧ a < clusAddr fs.superBlock c + fs.superBlock.bytsPerClus then 0
      else byteAt fs.disk a := by
  have hend := h.clus_end hc
  have hiff : ((fs.superBlock.firstDataSec + (c - 2) * fs.superBlock.secPerClus) * 512 ≤ a ∧
      a < (fs.superBlock.firstDataSec + (c - 2) * fs.superBlock.secPerClus + fs.superBlock.secPerClus) * 512) ↔
      (clusAddr fs.superBlock c ≤ a ∧ a < clusAddr fs.superBlock c + fs.superBlock.bytsPerClus) := by
    unfold clusAddr
    rw [h.bytsPerClus]
    omega
  unfold zeroClus
  rw [firstSecOfClus_eq h hc, byteAt_zeroSectors _ _ _ hend]
  simp only [hiff]

/-- The volume after `allocClus` entered the cluster and before it cleared it. -/
def claimEntry (fs : FileSystem) (c : Nat) : FileSystem :=
  { storeEntry fs c (FAT32_EOC + 7) with
    clusterBitmap := Bitmap.set fs.clusterBitmap c
    allocLog := fs.allocLog ++ [⟨c, Bitmap.get fs.clusterBitmap c, fatEntry fs c⟩] }

/-- What a successful `allocClus` does. -/
structure Allocated (fs : FileSystem) (c : Nat) (fs' : FileSystem) : Prop where
  superBlock : fs'.superBlock = fs.superBlock
  inodes : fs'.inodes = fs.inodes
  inodeBitmap : fs'.inodeBitmap = fs.inodeBitmap
  was_free : Bitmap.get fs.clusterBitmap c = false
  bitmap : fs'.clusterBitmap = Bitmap.set fs.clusterBitmap c
  log : fs'.allocLog = fs.allocLog ++ [⟨c, false, fatEntry fs c⟩]
  entry : ∀ c' < fs.superBlock.FATsz * 128,
    fatEntry fs' c' = if c' = c then FAT32_EOC + 7 else fatEntry fs c'
  byte : ∀ a, fs.superBlock.Data a → byteAt fs'.disk a =
    if clusAddr fs.superBlock c ≤ a ∧ a < clusAddr fs.superBlock c + fs.superBlock.bytsPerClus then 0
    else byteAt fs.disk a

theorem totalClusterNumber_eq (h : fs.superBlock.Ok) :
    totalClusterNumber fs.superBlock = fs.superBlock.FATsz * 128 := by
  have h28 := h.fat_lt
  unfold totalClusterNumber u32
  rw [h.bytsPerSec]
  omega

/-- `allocClus` returns the lowest cluster the bitmap shows free. -/
theorem allocClus_eq_ok (h : fs.superBlock.Ok) (ha : allocClus fs = .ok (c, fs')) :
    Bitmap.get fs.clusterBitmap c = false ∧ (∀ j < c, Bitmap.get fs.clusterBitmap j = true) ∧
      c < fs.superBlock.FATsz * 128 := by
  unfold allocClus at ha
  rw [totalClusterNumber_eq h] at ha
  cases hf : Bitmap.findClear fs.clusterBitmap (fs.superBlock.FATsz * 128 / 64) 0 with
  | none => rw [hf] at ha; cases ha
  | some cl =>
    rw [hf] at ha
    cases ha
    obtain ⟨-, h2, h3, h4⟩ := Bitmap.findClear_eq_some hf
    exact ⟨h3, fun j hj => h4 j (by omega) hj, by omega⟩

/-- `allocClus` of a data cluster. -/
theorem allocClus_allocated (h : fs.superBlock.Ok) (ha : allocClus fs = .ok (c, fs'))
    (hc : fs.superBlock.InRange c) : Allocated fs c fs' := by
  obtain ⟨hfree, -, hlt⟩ := allocClus_eq_ok h ha
  have hle := h.fat_le
  have hend := h.clus_end hc
  obtain ⟨heoc, hsec⟩ : FAT32_EOC + 7 < 2 ^ 32 ∧ u32 (fs.superBlock.rsvdSecCnt + c / 128) =
      fs.superBlock.rsvdSecCnt + c / 128 := by
    refine ⟨by decide, Nat.mod_eq_of_lt ?_⟩
    have := Nat.zero_le ((c - 2) * fs.superBlock.secPerClus)
    omega
  obtain rfl : fs' = zeroClus (claimEntry fs c) c := by
    unfold allocClus at ha
    cases hf : Bitmap.findClear fs.clusterBitmap (totalClusterNumber fs.superBlock / 64) 0 with
    | none => rw [hf] at ha; cases ha
    | some cl =>
      rw [hf] at ha
      cases ha
      rw [h.bytsPerSec, show 512 / 4 = 128 from rfl, hsec, ← fatEntry_eq]
      rfl
  have hzero := byteAt_zeroClus (claimEntry fs c) h hc
  refine ⟨rfl, rfl, rfl, hfree, rfl, by rw [← hfree]; rfl, fun c' hc' => ?_, fun a hdata => ?_⟩
  · have hfat : fatEntry (zeroClus (claimEntry fs c) c) c' = fatEntry (storeEntry fs c (FAT32_EOC + 7)) c' := by
      refine fatEntry_congr (storeEntry fs c (FAT32_EOC + 7)) h rfl hc' fun a ha => ?_
      rw [hzero a]
      refine if_neg fun hin => ha ?_
      obtain ⟨i, rfl⟩ := Nat.exists_eq_add_of_le hin.1
      exact data_clusAddr _ _ _
    rw [hfat, fatEntry_storeEntry heoc]
  · rw [hzero a]
    have hbyte : byteAt (claimEntry fs c).disk a = byteAt fs.disk a := byteAt_storeEntry h hlt hdata
    rw [hbyte]
    rfl

/-- Where a data cluster is free and the two reserved entries are taken, `allocClus` succeeds. -/
theorem exists_allocClus (h : fs.superBlock.Ok) (hc : fs.superBlock.InRange c)
    (hfree : Bitmap.get fs.clusterBitmap c = false) (h0 : Bitmap.get fs.clusterBitmap 0 = true)
    (h1 : Bitmap.get fs.clusterBitmap 1 = true) :
    ∃ c' fs', allocClus fs = .ok (c', fs') ∧ fs.superBlock.InRange c' := by
  have hlt := (h.inRange_bounds hc).1
  obtain ⟨cl, hcl⟩ := Bitmap.exists_findClear (n := fs.superBlock.FATsz * 128 / 64) (i := 0) (by omega)
    (by omega) hfree
  obtain ⟨-, -, hfree', hbelow⟩ := Bitmap.findClear_eq_some hcl
  have hle : cl ≤ c := by
    by_contra hgt
    have := hbelow c (by omega) (by omega)
    rw [hfree] at this
    exact Bool.noConfusion this
  have hne : ∀ k, Bitmap.get fs.clusterBitmap k = true → cl ≠ k := fun k hk hclk => by
    rw [hclk, hk] at hfree'
    exact Bool.noConfusion hfree'
  have hne0 := hne 0 h0
  have hne1 := hne 1 h1
  refine ⟨cl, ?_, ?_, by omega, by have := hc.2; omega⟩
  rotate_left
  · unfold allocClus
    rw [totalClusterNumber_eq h, hcl]

/-- `freeClus` clears the entry and the bit of a data cluster. -/
theorem freeClus_eq (h : fs.superBlock.Ok) (hc : c ≤ fs.superBlock.dataClusCnt + 1) :
    freeClus fs c = { storeEntry fs c 0 with clusterBitmap := Bitmap.clear fs.clusterBitmap c } := by
  unfold freeClus
  rw [writeFat_eq h hc]
  rfl

end Alloc

end Exaros.Fat
