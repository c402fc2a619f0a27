import Exaros.Fat.Allocation
import Mathlib.Order.CompletePartialOrder
import Mathlib.Order.Interval.Set.Disjoint

/-!
# Where clusters and their entries lie

The arithmetic every access to a volume goes through: `firstSecOfClus` for the sectors of a cluster,
`fatSecOfClus` and `fatOffsetOfClus` for its entry in the first FAT, and the second formula for the
entry that `allocClus` has of its own. `Fits` is what a boot sector must say for them: clusters then
have sectors of their own in the data area, and entries of their own in the FAT.
-/

namespace Exaros.Fat

/-- A parameter block of 512-byte sectors whose FATs leave room for data and whose first FAT has an
entry for each cluster, small enough for the shift of a cluster number. -/
structure SuperBlock.Fits (sb : SuperBlock) : Prop where
  bytsPerSec : sb.bytsPerSec = 512
  secPerClus : 1 ≤ sb.secPerClus
  data : sb.rsvdSecCnt + sb.numFATs * sb.FATsz < sb.totSec
  covers : 4 * (sb.dataClusCnt + 2) ≤ sb.FATsz * sb.bytsPerSec
  shift : 4 * (sb.dataClusCnt + 1) < 2 ^ 32

/-- The sectors of a cluster. -/
def clusSectors (sb : SuperBlock) (cluster : Nat) : Set Nat :=
  Set.Ico (firstSecOfClus sb cluster) (firstSecOfClus sb cluster + sb.secPerClus)

/-- `sec` of `allocClus`. -/
def allocSec (sb : SuperBlock) (cluster : Nat) : Nat := u32 (sb.rsvdSecCnt + cluster / (sb.bytsPerSec / 4))

/-- `j` of `allocClus`, which indexes the sector as an array of `u32`. -/
def allocIndex (sb : SuperBlock) (cluster : Nat) : Nat := cluster % (sb.bytsPerSec / 4)

/-- `allocClus` writes the entry at `allocSec` and `allocIndex`, then the sectors of the cluster. -/
theorem allocClus_disk {fs fs' : FileSystem} {c : Nat} (h : allocClus fs = .ok (c, fs')) :
    fs'.disk = zeroSectors (bwrite fs.disk (allocSec fs.superBlock c)
        (setU32 (fs.disk (allocSec fs.superBlock c)) (4 * allocIndex fs.superBlock c) (FAT32_EOC + 7)))
      (firstSecOfClus fs.superBlock c) fs.superBlock.secPerClus := by
  unfold allocClus at h
  split at h
  · cases h
  · cases h
    rfl

section Read

variable (b : Sector)

theorem getU8_lt (off : Nat) : getU8 b off < 2 ^ 8 := (b off).isLt

theorem getU16_lt (off : Nat) : getU16 b off < 2 ^ 16 := by
  unfold getU16
  omega

/-- The fields as the boot sector has them are in the range of their types. -/
theorem readSuperBlock_bounds : (readSuperBlock b).secPerClus < 2 ^ 8 ∧ (readSuperBlock b).rsvdSecCnt < 2 ^ 16 ∧
    (readSuperBlock b).totSec < 2 ^ 32 := by
  refine ⟨getU8_lt b 13, getU16_lt b 14, ?_⟩
  show (if getU16 b 19 = 0 then getU32 b 32 else getU16 b 19) < 2 ^ 32
  split
  · exact getU32_lt b 32
  · exact Nat.lt_trans (getU16_lt b 19) (by omega)

variable {b}

/-- The derived fields without their reductions to 32 bits. -/
theorem SuperBlock.Fits.derived (h : (readSuperBlock b).Fits) :
    (readSuperBlock b).firstDataSec =
      (readSuperBlock b).rsvdSecCnt + (readSuperBlock b).numFATs * (readSuperBlock b).FATsz ∧
    (readSuperBlock b).firstDataSec + (readSuperBlock b).dataClusCnt * (readSuperBlock b).secPerClus ≤
      (readSuperBlock b).totSec := by
  obtain ⟨-, -, htot⟩ := readSuperBlock_bounds b
  have hdata := h.data
  have hmul : u32 ((readSuperBlock b).numFATs * (readSuperBlock b).FATsz) =
      (readSuperBlock b).numFATs * (readSuperBlock b).FATsz := Nat.mod_eq_of_lt (by omega)
  have hfirst : (readSuperBlock b).firstDataSec =
      (readSuperBlock b).rsvdSecCnt + (readSuperBlock b).numFATs * (readSuperBlock b).FATsz := by
    show u32 ((readSuperBlock b).rsvdSecCnt + u32 ((readSuperBlock b).numFATs * (readSuperBlock b).FATsz)) = _
    rw [hmul]
    exact Nat.mod_eq_of_lt (by omega)
  refine ⟨hfirst, ?_⟩
  -- `totSec - firstDataSec` does not wrap, and its quotient takes no more
  have hcnt : (readSuperBlock b).dataSecCnt = (readSuperBlock b).totSec - (readSuperBlock b).firstDataSec := by
    show u32 ((readSuperBlock b).totSec + (2 ^ 32 - (readSuperBlock b).firstDataSec)) = _
    unfold u32
    omega
  have hle : (readSuperBlock b).dataClusCnt * (readSuperBlock b).secPerClus ≤ (readSuperBlock b).dataSecCnt :=
    Nat.div_mul_le_self _ _
  omega

variable {c d : Nat}

/-- A cluster's sectors, counted without wrapping, and where they end. -/
theorem SuperBlock.Fits.firstSec (h : (readSuperBlock b).Fits) (hc : (readSuperBlock b).InRange c) :
    firstSecOfClus (readSuperBlock b) c =
      (readSuperBlock b).firstDataSec + (c - 2) * (readSuperBlock b).secPerClus ∧
    (readSuperBlock b).firstDataSec + (c - 2) * (readSuperBlock b).secPerClus + (readSuperBlock b).secPerClus ≤
      (readSuperBlock b).totSec := by
  obtain ⟨-, hend⟩ := h.derived
  obtain ⟨-, -, htot⟩ := readSuperBlock_bounds b
  have hshift := h.shift
  obtain ⟨hlo, hhi⟩ := hc
  have hle : (c - 2 + 1) * (readSuperBlock b).secPerClus ≤
      (readSuperBlock b).dataClusCnt * (readSuperBlock b).secPerClus := Nat.mul_le_mul_right _ (by omega)
  rw [Nat.add_mul, Nat.one_mul] at hle
  have hsub : u32 (c + (2 ^ 32 - 2)) = c - 2 := by
    unfold u32
    omega
  have hmul : u32 ((c - 2) * (readSuperBlock b).secPerClus) = (c - 2) * (readSuperBlock b).secPerClus :=
    Nat.mod_eq_of_lt (by omega)
  refine ⟨?_, by omega⟩
  unfold firstSecOfClus
  rw [hsub, hmul, u32, Nat.mod_eq_of_lt (by omega), Nat.add_comm]

/-- Clusters have sectors of their own. -/
theorem SuperBlock.Fits.disjoint (h : (readSuperBlock b).Fits) (hc : (readSuperBlock b).InRange c)
    (hd : (readSuperBlock b).InRange d) (hne : c ≠ d) :
    Disjoint (clusSectors (readSuperBlock b) c) (clusSectors (readSuperBlock b) d) := by
  obtain ⟨hfirst, -⟩ := h.firstSec hc
  obtain ⟨hfirst', -⟩ := h.firstSec hd
  -- the lower one ends where the next cluster begins
  have hstep : ∀ {i j : Nat}, i < j → i * (readSuperBlock b).secPerClus + (readSuperBlock b).secPerClus ≤
      j * (readSuperBlock b).secPerClus := by
    intro i j hij
    have := Nat.mul_le_mul_right (readSuperBlock b).secPerClus (Nat.succ_le_of_lt hij)
    rwa [Nat.succ_mul] at this
  obtain ⟨hlo, -⟩ := hc
  obtain ⟨hlo', -⟩ := hd
  rw [Set.disjoint_left]
  intro s hs hs'
  unfold clusSectors at hs hs'
  rw [hfirst, Set.mem_Ico] at hs
  rw [hfirst', Set.mem_Ico] at hs'
  rcases Nat.lt_or_gt_of_ne hne with hlt | hgt
  · have := hstep (show c - 2 < d - 2 by omega)
    omega
  · have := hstep (show d - 2 < c - 2 by omega)
    omega

/-- The entry's sector and offset, counted without wrapping. -/
theorem SuperBlock.Fits.entry (h : (readSuperBlock b).Fits) (hc : (readSuperBlock b).InRange c) :
    fatSecOfClus (readSuperBlock b) c = (readSuperBlock b).rsvdSecCnt + 4 * c / 512 ∧
    fatOffsetOfClus (readSuperBlock b) c = 4 * c % 512 := by
  obtain ⟨-, hrsvd, -⟩ := readSuperBlock_bounds b
  have hshift := h.shift
  obtain ⟨-, hhi⟩ := hc
  have hshl : u32 (c <<< 2) = 4 * c := by
    rw [Nat.shiftLeft_eq, u32]
    omega
  constructor
  · unfold fatSecOfClus
    rw [hshl, h.bytsPerSec, u32]
    omega
  · unfold fatOffsetOfClus
    rw [hshl, h.bytsPerSec]

/-- Clusters have entries of their own, each inside one sector of the first FAT. -/
theorem SuperBlock.Fits.entry_mem (h : (readSuperBlock b).Fits) (hc : (readSuperBlock b).InRange c) :
    fatSecOfClus (readSuperBlock b) c ∈ Set.Ico (readSuperBlock b).rsvdSecCnt
        ((readSuperBlock b).rsvdSecCnt + (readSuperBlock b).FATsz) ∧
      fatOffsetOfClus (readSuperBlock b) c + 4 ≤ 512 := by
  obtain ⟨hsec, hoff⟩ := h.entry hc
  have hcovers := h.covers
  obtain ⟨-, hhi⟩ := hc
  rw [h.bytsPerSec] at hcovers
  rw [hsec, hoff, Set.mem_Ico]
  omega

theorem SuperBlock.Fits.entry_injOn (h : (readSuperBlock b).Fits) :
    Set.InjOn (fun c => (fatSecOfClus (readSuperBlock b) c, fatOffsetOfClus (readSuperBlock b) c))
      {c | (readSuperBlock b).InRange c} := by
  intro c hc d hd heq
  obtain ⟨hsec, hoff⟩ := Prod.mk.inj heq
  obtain ⟨hsec₁, hoff₁⟩ := h.entry hc
  obtain ⟨hsec₂, hoff₂⟩ := h.entry hd
  rw [hsec₁, hsec₂] at hsec
  rw [hoff₁, hoff₂] at hoff
  omega

/-- The formula of `allocClus` is the same place. -/
theorem SuperBlock.Fits.alloc (h : (readSuperBlock b).Fits) (hc : (readSuperBlock b).InRange c) :
    allocSec (readSuperBlock b) c = fatSecOfClus (readSuperBlock b) c ∧
      4 * allocIndex (readSuperBlock b) c = fatOffsetOfClus (readSuperBlock b) c := by
  obtain ⟨-, hrsvd, -⟩ := readSuperBlock_bounds b
  obtain ⟨hsec, hoff⟩ := h.entry hc
  have hshift := h.shift
  obtain ⟨-, hhi⟩ := hc
  rw [hsec, hoff]
  unfold allocSec allocIndex
  rw [h.bytsPerSec, u32]
  omega

end Read

/-- **Clusters and their entries.** On a volume whose boot sector fits, clusters have sectors of their
own inside the data area and entries of their own inside the first FAT, and the entry that `allocClus`
writes is the one that `fatSecOfClus` and `fatOffsetOfClus` name. -/
theorem clusters_addressed (b : Sector) (h : (readSuperBlock b).Fits) :
    (∀ c d, (readSuperBlock b).InRange c → (readSuperBlock b).InRange d → c ≠ d →
      Disjoint (clusSectors (readSuperBlock b) c) (clusSectors (readSuperBlock b) d)) ∧
    (∀ c, (readSuperBlock b).InRange c → clusSectors (readSuperBlock b) c ⊆
      Set.Ico (readSuperBlock b).firstDataSec (readSuperBlock b).totSec) ∧
    Set.InjOn (fun c => (fatSecOfClus (readSuperBlock b) c, fatOffsetOfClus (readSuperBlock b) c))
      {c | (readSuperBlock b).InRange c} ∧
    (∀ c, (readSuperBlock b).InRange c →
      fatSecOfClus (readSuperBlock b) c ∈ Set.Ico (readSuperBlock b).rsvdSecCnt
        ((readSuperBlock b).rsvdSecCnt + (readSuperBlock b).FATsz) ∧
      fatOffsetOfClus (readSuperBlock b) c + 4 ≤ 512) ∧
    (∀ c, (readSuperBlock b).InRange c → allocSec (readSuperBlock b) c = fatSecOfClus (readSuperBlock b) c ∧
      4 * allocIndex (readSuperBlock b) c = fatOffsetOfClus (readSuperBlock b) c) ∧
    ∀ fs c fs', fs.superBlock = readSuperBlock b → (readSuperBlock b).InRange c → allocClus fs = .ok (c, fs') →
      fs'.disk = zeroSectors (bwrite fs.disk (fatSecOfClus (readSuperBlock b) c)
          (setU32 (fs.disk (fatSecOfClus (readSuperBlock b) c)) (fatOffsetOfClus (readSuperBlock b) c) (FAT32_EOC + 7)))
        (firstSecOfClus (readSuperBlock b) c) (readSuperBlock b).secPerClus := by
  refine ⟨fun c d hc hd hne => h.disjoint hc hd hne, fun c hc => ?_, h.entry_injOn, fun c hc => h.entry_mem hc,
    fun c hc => h.alloc hc, fun fs c fs' hsb hc halloc => ?_⟩
  · obtain ⟨hfirst, hend⟩ := h.firstSec hc
    unfold clusSectors
    rw [hfirst]
    exact Set.Ico_subset_Ico (Nat.le_add_right _ _) hend
  · obtain ⟨hsec, hidx⟩ := h.alloc hc
    rw [allocClus_disk halloc, hsb, hsec, hidx]

/-- A volume of 128 sectors, whose FAT of one sector has an entry for each of its 126 clusters and the two
below them. -/
theorem clusters_addressed_small : (readSuperBlock (smallDisk 128 0)).Fits ∧
    Disjoint (clusSectors (readSuperBlock (smallDisk 128 0)) 2) (clusSectors (readSuperBlock (smallDisk 128 0)) 127) := by
  have hfits : (readSuperBlock (smallDisk 128 0)).Fits :=
    ⟨by decide, by decide, by decide, by decide, by decide⟩
  exact ⟨hfits, (clusters_addressed _ hfits).1 2 127 (by decide) (by decide) (by decide)⟩

end Exaros.Fat
