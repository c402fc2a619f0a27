import Exaros.Fat.Reloc

/-!
# Images

A file of a volume can hold a volume of its own: `mountBlockRead` reads a sector of it from the sector of the parent
that `getSectorNumber` finds. The byte offset of the sector is kept in 32 bits, so sectors past the end come back
to the beginning, and the test for the end lets the end itself pass.
-/

namespace Exaros.Fat

/-- `getSectorNumber`, for an image in file system `fs`. -/
def getSectorNumber (fs : FileSystem) (dm : DirMeta) (dataSectorNum : Nat) : Except Panic (Int × FileSystem × DirMeta) :=
  -- an `int`, compared and passed on as a `u32`
  let offset := u32 (dataSectorNum <<< 9)
  if dm.fileSize < offset then .ok (-1, fs, dm)
  else do
    let (_, fs, dm) ← relocClus fs dm offset false
    return (i32 (u32 (firstSecOfClus fs.superBlock dm.curClus + offset % fs.superBlock.bytsPerClus / fs.superBlock.bytsPerSec)), fs, dm)

/-- `mountBlockRead` of an image that is a file; `none` is a null pointer. -/
def mountBlockRead (fs : FileSystem) (dm : DirMeta) (blockNum : Nat) : Except Panic (Option Sector × FileSystem × DirMeta) := do
  let (parentBlockNum, fs, dm) ← getSectorNumber fs dm blockNum
  return (if parentBlockNum < 0 then none else some (fs.disk parentBlockNum.toNat), fs, dm)

/-- The sector of the volume that holds byte `a` of a file with chain `L`. -/
def sectorOf (sb : SuperBlock) (L : List Nat) (a : Nat) : Nat :=
  sb.firstDataSec + (L.getD (a / sb.bytsPerClus) 0 - 2) * sb.secPerClus + a % sb.bytsPerClus / 512

/-- The cache of the file comes as far as position `num`, with the inodes that the pool has. -/
def CacheReaches (fs : FileSystem) (dm : DirMeta) (num : Nat) : Prop :=
  (num < dm.inodeMaxCluster → num < INODE_THIRD_LEVEL_TOP) ∧ (dm.inodeMaxCluster ≤ num → dm.inodeMaxCluster ≤ INODE_THIRD_LEVEL_TOP) ∧
    inodesBetween dm.inodeMaxCluster (num + 1) ≤ freeInodes fs

/-- A sector of the image is the sector of the volume with its bytes, and there is none from the end of the file on. -/
structure MapsSector (fs : FileSystem) (dm : DirMeta) (L : List Nat) (k : Nat) : Prop where
  past : dm.fileSize ≤ k * 512 → ∃ fs' dm', getSectorNumber fs dm k = .ok (-1, fs', dm') ∧ mountBlockRead fs dm k = .ok (none, fs', dm')
  inside : k * 512 < dm.fileSize → ∃ fs' dm' block, getSectorNumber fs dm k = .ok ((sectorOf fs.superBlock L (k * 512) : Int), fs', dm') ∧
    mountBlockRead fs dm k = .ok (some block, fs', dm') ∧ ∀ j < 512, block j = chainByte fs L (k * 512 + j)

section Reloc

variable {fs fs' : FileSystem} {dm dm' : DirMeta} {L : List Nat} {off n : Nat} {r : Int}

/-- **`relocClus` within the chain** returns exactly where the cache comes as far. -/
theorem exists_relocClus_iff (hok : fs.superBlock.Ok) (hb : BitmapOk fs) (h : FileOk fs dm L)
    (hin : off / fs.superBlock.bytsPerClus < L.length) :
    (∃ r, relocClus fs dm off false = .ok r) ↔ CacheReaches fs dm (off / fs.superBlock.bytsPerClus) := by
  have hne : L ≠ [] := List.ne_nil_of_length_pos (Nat.zero_lt_of_lt hin)
  have hpos := h.pos hne
  constructor
  · rintro ⟨⟨r, fs', dm'⟩, hr⟩
    unfold relocClus at hr
    rw [if_neg (h.asserts hne)] at hr
    simp only at hr
    split at hr
    · rename_i hlt
      obtain ⟨dm₁, hfind, -⟩ := except_bind_ok hr
      have htop : off / fs.superBlock.bytsPerClus < INODE_THIRD_LEVEL_TOP := by
        by_contra hno
        unfold metaFindInode at hfind
        rw [if_neg fun hboth => hno hboth.2] at hfind
        cases hfind
      refine ⟨fun _ => htop, fun hge => absurd hlt (Nat.not_lt_of_le hge), ?_⟩
      unfold inodesBetween
      rw [Finset.Ico_eq_empty (by omega), Finset.sum_empty]
      exact Nat.zero_le _
    · rename_i hge
      obtain ⟨dm₁, hfind, hr⟩ := except_bind_ok hr
      obtain ⟨⟨r', fs₂, dm₂⟩, hloop, -⟩ := except_bind_ok hr
      have htop : dm.inodeMaxCluster - 1 < INODE_THIRD_LEVEL_TOP := by
        by_contra hno
        unfold metaFindInode at hfind
        rw [if_neg fun hboth => hno hboth.2] at hfind
        cases hfind
      obtain ⟨hat, cur, cnt, rfl⟩ := atEnd_metaFindInode h hne hfind
      have hcnt := hat.cnt
      simp only at hcnt
      have hw := relocLoop_walked _ hok hb (h.setCur cur cnt) hat hloop
      have hin' := hw.inside
      simp only at hin'
      obtain ⟨-, -, hk'⟩ := hin' (by omega)
      have hpool := hw.ext.pool
      simp only at hpool
      have hlast : dm₂.inodeMaxCluster = off / fs.superBlock.bytsPerClus + 1 := by omega
      rw [hlast] at hpool
      exact ⟨fun hlt => absurd hlt hge, fun _ => by omega, by omega⟩
  · rintro ⟨hcached, htop, hpool⟩
    unfold relocClus
    rw [if_neg (h.asserts hne)]
    simp only
    split
    · rename_i hlt
      have hfind : metaFindInode fs dm (off / fs.superBlock.bytsPerClus) = .ok _ := if_pos ⟨hlt, hcached hlt⟩
      exact ⟨_, by rw [hfind]; rfl⟩
    · rename_i hge
      have htop := htop (Nat.le_of_not_lt hge)
      have hfind : metaFindInode fs dm (dm.inodeMaxCluster - 1) = .ok _ := if_pos ⟨by omega, by omega⟩
      obtain ⟨hat, cur, cnt, hdm₁⟩ := atEnd_metaFindInode h hne hfind
      rw [hfind]
      rw [hdm₁] at hat ⊢
      have hcnt := hat.cnt
      simp only at hcnt
      have hlast : dm.inodeMaxCluster + (off / fs.superBlock.bytsPerClus - cnt) = off / fs.superBlock.bytsPerClus + 1 := by omega
      have hmin : min (off / fs.superBlock.bytsPerClus + 1) L.length = off / fs.superBlock.bytsPerClus + 1 := by omega
      obtain ⟨p, hloop⟩ := exists_relocLoop_walked (off / fs.superBlock.bytsPerClus - cnt) hok hb (h.setCur cur cnt) hat
        (by show inodesBetween dm.inodeMaxCluster (min (dm.inodeMaxCluster + _) _) ≤ _; rw [hlast, hmin]; exact hpool)
      refine ⟨(if p.1.isSome then ((off % fs.superBlock.bytsPerClus : Nat) : Int) else -1, p.2), ?_⟩
      show (relocLoop false (_ - cnt) fs _).bind _ = _
      rw [hloop]
      rfl

/-- At the end of the chain the file is put back to its first cluster. -/
theorem relocLoop_none (n : Nat) (hr : relocLoop false n fs dm = .ok (none, fs', dm')) : dm'.curClus = dm'.firstClus := by
  induction n generalizing fs dm with
  | zero => cases hr
  | succ n ih =>
    rw [relocLoop] at hr
    obtain ⟨next, -, hr⟩ := except_bind_ok hr
    cases next with
    | none =>
      cases hr
      rfl
    | some p =>
      obtain ⟨⟨fs₁, dm₁⟩, -, hr⟩ := except_bind_ok hr
      exact ih hr

/-- Past the end of the chain `relocClus` stands on the first cluster. -/
theorem relocClus_past (hok : fs.superBlock.Ok) (hb : BitmapOk fs) (h : FileOk fs dm L)
    (hr : relocClus fs dm off false = .ok (r, fs', dm')) (hge : L.length ≤ off / fs.superBlock.bytsPerClus) :
    dm'.curClus = L.headD 0 := by
  have hne := ne_nil_of_relocClus h hr
  have hfound := relocClus_found hok hb h hne hr
  have hle := h.le_length hne
  unfold relocClus at hr
  rw [if_neg (h.asserts hne)] at hr
  simp only at hr
  rw [if_neg (by omega)] at hr
  obtain ⟨dm₁, hfind, hr⟩ := except_bind_ok hr
  obtain ⟨⟨r', fs₂, dm₂⟩, hloop, hr⟩ := except_bind_ok hr
  obtain ⟨hfs, hdm⟩ := Prod.mk.inj (Prod.mk.inj (Except.ok.inj hr)).2
  subst hfs hdm
  obtain ⟨hat, cur, cnt, rfl⟩ := atEnd_metaFindInode h hne hfind
  have hcnt := hat.cnt
  simp only at hcnt
  have hw := relocLoop_walked _ hok hb (h.setCur cur cnt) hat hloop
  have hpast := hw.past
  simp only at hpast
  rw [hpast (by omega)] at hloop
  rw [relocLoop_none _ hloop, hfound.ext.loc.fileOk.first]

/-- `relocClus` stands on a cluster of the file, whatever it returns. -/
theorem relocClus_cur (hok : fs.superBlock.Ok) (hb : BitmapOk fs) (h : FileOk fs dm L) (hr : relocClus fs dm off false = .ok (r, fs', dm')) :
    dm'.curClus ∈ L := by
  have hne := ne_nil_of_relocClus h hr
  by_cases hin : off / fs.superBlock.bytsPerClus < L.length
  · exact List.mem_of_getElem? ((relocClus_found hok hb h hne hr).inside hin).2
  · rw [relocClus_past hok hb h hr (Nat.le_of_not_lt hin)]
    cases L with
    | nil => exact absurd rfl hne
    | cons c L => exact List.mem_cons_self

end Reloc

section Sector

variable {fs fs' : FileSystem} {dm dm' : DirMeta} {L : List Nat} {c k : Nat} {r : Int}

/-- The number of a sector in a data cluster. -/
theorem sector_eq (hok : fs.superBlock.Ok) (hend : fs.superBlock.firstDataSec + fs.superBlock.dataClusCnt * fs.superBlock.secPerClus < 2 ^ 32)
    (hc : fs.superBlock.InRange c) (off : Nat) :
    u32 (firstSecOfClus fs.superBlock c + off % fs.superBlock.bytsPerClus / fs.superBlock.bytsPerSec) =
        fs.superBlock.firstDataSec + (c - 2) * fs.superBlock.secPerClus + off % fs.superBlock.bytsPerClus / 512 ∧
      fs.superBlock.firstDataSec + (c - 2) * fs.superBlock.secPerClus + off % fs.superBlock.bytsPerClus / 512 < 2 ^ 32 - 1 := by
  have hmod := Nat.mod_lt off hok.bpc_pos
  have hbpc := hok.bytsPerClus
  have hle : (c - 2 + 1) * fs.superBlock.secPerClus ≤ fs.superBlock.dataClusCnt * fs.superBlock.secPerClus :=
    Nat.mul_le_mul_right _ (by have := hc.1; have := hc.2; omega)
  rw [Nat.add_mul, Nat.one_mul] at hle
  have hlt : fs.superBlock.firstDataSec + (c - 2) * fs.superBlock.secPerClus + off % fs.superBlock.bytsPerClus / 512 < 2 ^ 32 - 1 := by
    omega
  rw [firstSecOfClus_eq hok hc, hok.bytsPerSec]
  exact ⟨Nat.mod_eq_of_lt (by omega), hlt⟩

theorem i32_eq_iff {x : Nat} : i32 x = (x : Int) ↔ x < 2 ^ 31 := by
  unfold i32
  split
  · rename_i hx
    exact iff_of_true rfl hx
  · rename_i hx
    exact iff_of_false (by omega) hx

/-- `getSectorNumber` past the end. -/
theorem getSectorNumber_past (h : dm.fileSize < u32 (k <<< 9)) :
    getSectorNumber fs dm k = .ok (-1, fs, dm) ∧ mountBlockRead fs dm k = .ok (none, fs, dm) := by
  have hsec : getSectorNumber fs dm k = .ok (-1, fs, dm) := by
    unfold getSectorNumber
    rw [if_pos h]
  refine ⟨hsec, ?_⟩
  unfold mountBlockRead
  rw [hsec]
  rfl

/-- Before the end, or what its 32 bits take for it. -/
theorem getSectorNumber_inside (fs : FileSystem) (h : ¬ dm.fileSize < u32 (k <<< 9)) : getSectorNumber fs dm k =
    (relocClus fs dm (u32 (k <<< 9)) false).bind fun p => .ok (i32 (u32 (firstSecOfClus p.2.1.superBlock p.2.2.curClus +
      u32 (k <<< 9) % p.2.1.superBlock.bytsPerClus / p.2.1.superBlock.bytsPerSec)), p.2.1, p.2.2) := by
  unfold getSectorNumber
  rw [if_neg h]
  rfl

/-- The bytes of a sector lie in the cluster of its first, one after another. -/
theorem sector_split (spc k : Nat) {j : Nat} (hj : j < 512) :
    (k * 512 + j) / (spc * 512) = k * 512 / (spc * 512) ∧ (k * 512 + j) % (spc * 512) = k * 512 % (spc * 512) + j ∧
      k * 512 % (spc * 512) = k * 512 % (spc * 512) / 512 * 512 := by
  have hdiv : (k * 512 + j) / 512 = k := by omega
  have hmod : (k * 512 + j) % 512 = j := by omega
  have hwhole : k * 512 / 512 = k := Nat.mul_div_cancel k (by decide)
  have hnone : k * 512 % 512 = 0 := Nat.mul_mod_left k 512
  rw [Nat.mul_comm spc 512, ← Nat.div_div_eq_div_mul, ← Nat.div_div_eq_div_mul, Nat.mod_mul, Nat.mod_mul, hdiv, hmod, hwhole, hnone]
  omega

theorem sector_inside {k a n spc j : Nat} (hin : k * 512 < a) (ha : a ≤ n * (spc * 512)) (hj : j < 512) : k * 512 + j < n * (spc * 512) := by
  rw [← Nat.mul_assoc] at ha ⊢
  have hlt : k < n * spc := Nat.lt_of_mul_lt_mul_right (Nat.lt_of_lt_of_le hin ha)
  have hle : (k + 1) * 512 ≤ n * spc * 512 := Nat.mul_le_mul_right 512 hlt
  rw [Nat.add_mul, Nat.one_mul] at hle
  exact Nat.lt_of_lt_of_le (Nat.add_lt_add_left hj _) hle

theorem u32_shift (k : Nat) : u32 (k <<< 9) = k * 512 % 2 ^ 32 := by
  unfold u32
  rw [Nat.shiftLeft_eq]

end Sector

/-- **Image sectors**: what is mounted from a file reads its sectors, exactly where the sector begins before the end
of the file, is numbered below 2³¹ and is reached by the cache, or begins past the end in 32 bits as well. -/
theorem mapsSector_iff {fs : FileSystem} {dm : DirMeta} {L : List Nat} {k : Nat} (hok : fs.superBlock.Ok) (hb : BitmapOk fs)
    (hend : fs.superBlock.firstDataSec + fs.superBlock.dataClusCnt * fs.superBlock.secPerClus < 2 ^ 32) (h : FileOk fs dm L)
    (hsize : dm.fileSize < 2 ^ 32) (hchain : dm.fileSize ≤ L.length * fs.superBlock.bytsPerClus) :
    MapsSector fs dm L k ↔
      k * 512 < dm.fileSize ∧ sectorOf fs.superBlock L (k * 512) < 2 ^ 31 ∧ CacheReaches fs dm (k * 512 / fs.superBlock.bytsPerClus) ∨
      dm.fileSize ≤ k * 512 ∧ dm.fileSize < k * 512 % 2 ^ 32 := by
  have hpos := hok.bpc_pos
  by_cases hin : k * 512 < dm.fileSize
  · have hoff : u32 (k <<< 9) = k * 512 := by
      rw [u32_shift]
      exact Nat.mod_eq_of_lt (by omega)
    have hbefore : ¬ dm.fileSize < u32 (k <<< 9) := by omega
    have hnum : k * 512 / fs.superBlock.bytsPerClus < L.length := (Nat.div_lt_iff_lt_mul hpos).mpr (Nat.lt_of_lt_of_le hin hchain)
    have hne : L ≠ [] := List.ne_nil_of_length_pos (Nat.zero_lt_of_lt hnum)
    have hcall := getSectorNumber_inside fs hbefore
    have hreloc := exists_relocClus_iff hok hb h hnum
    -- where `relocClus` returns, it stands on the cluster of the byte
    have hstands : ∀ r fs' dm', relocClus fs dm (k * 512) false = .ok (r, fs', dm') → fs'.superBlock = fs.superBlock ∧
        dm'.curClus ∈ L ∧ L.getD (k * 512 / fs.superBlock.bytsPerClus) 0 = dm'.curClus ∧
        ∀ j < 512, chainByte fs' L (k * 512 + j) = chainByte fs L (k * 512 + j) := by
      intro r fs' dm' hr
      have hfound := relocClus_found hok hb h hne hr
      have hcur := (hfound.inside hnum).2
      refine ⟨hfound.ext.loc.superBlock, List.mem_of_getElem? hcur, ?_, fun j hj => ?_⟩
      · rw [List.getD_eq_getElem?_getD, hcur]
        rfl
      · have hlt : k * 512 + j < L.length * fs.superBlock.bytsPerClus := by
          rw [hok.bytsPerClus] at hchain ⊢
          exact sector_inside hin hchain hj
        rw [hfound.ext.bytes _ hlt, if_pos hlt]
    constructor
    · intro hmaps
      obtain ⟨fs', dm', block, hsec, -⟩ := hmaps.inside hin
      rw [hcall, hoff] at hsec
      obtain ⟨⟨r, fs₁, dm₁⟩, hr, hsec⟩ := except_bind_ok hsec
      obtain ⟨hsb, hmem, hcur, -⟩ := hstands r fs₁ dm₁ hr
      have hval := (Prod.mk.inj (Except.ok.inj hsec)).1
      simp only [hsb] at hval
      obtain ⟨heq, -⟩ := sector_eq hok hend (h.chain.inRange _ hmem) (k * 512)
      rw [heq] at hval
      have hsector : sectorOf fs.superBlock L (k * 512) =
          fs.superBlock.firstDataSec + (dm₁.curClus - 2) * fs.superBlock.secPerClus + k * 512 % fs.superBlock.bytsPerClus / 512 := by
        unfold sectorOf
        rw [hcur]
      rw [← hsector] at hval
      exact .inl ⟨hin, i32_eq_iff.mp hval, hreloc.mp ⟨_, hr⟩⟩
    · rintro (⟨-, hlow, hreaches⟩ | ⟨hout, -⟩)
      · obtain ⟨⟨r, fs₁, dm₁⟩, hr⟩ := hreloc.mpr hreaches
        obtain ⟨hsb, hmem, hcur, hbytes⟩ := hstands r fs₁ dm₁ hr
        obtain ⟨heq, -⟩ := sector_eq hok hend (h.chain.inRange _ hmem) (k * 512)
        have hsector : sectorOf fs.superBlock L (k * 512) =
            fs.superBlock.firstDataSec + (dm₁.curClus - 2) * fs.superBlock.secPerClus + k * 512 % fs.superBlock.bytsPerClus / 512 := by
          unfold sectorOf
          rw [hcur]
        have hsec : getSectorNumber fs dm k = .ok ((sectorOf fs.superBlock L (k * 512) : Int), fs₁, dm₁) := by
          rw [hcall, hoff, hr]
          simp only [Except.bind, hsb]
          rw [heq, ← hsector, i32_eq_iff.mpr hlow]
        have hread : mountBlockRead fs dm k = .ok (some (fs₁.disk (sectorOf fs.superBlock L (k * 512))), fs₁, dm₁) := by
          unfold mountBlockRead
          rw [hsec, Loop.ok_bind]
          simp only
          rw [if_neg (Int.not_lt.mpr (Int.natCast_nonneg _)), Int.toNat_natCast]
          rfl
        refine ⟨fun hout => absurd hin (Nat.not_lt_of_le hout), fun _ => ⟨fs₁, dm₁, _, hsec, hread, fun j hj => ?_⟩⟩
        have hbyte := hbytes j hj
        have hsector := byteAt_sector fs₁.disk (sectorOf fs.superBlock L (k * 512)) hj
        rw [← hbyte, ← hsector]
        unfold chainByte sectorOf clusAddr
        rw [hsb, hok.bytsPerClus]
        obtain ⟨hdiv, hmod, hwhole⟩ := sector_split fs.superBlock.secPerClus k hj
        rw [hdiv, hmod, Nat.add_mul _ (_ / 512), ← hwhole, Nat.add_assoc]
      · omega
  · have hout : dm.fileSize ≤ k * 512 := Nat.le_of_not_lt hin
    constructor
    · intro hmaps
      obtain ⟨fs', dm', hsec, -⟩ := hmaps.past hout
      refine .inr ⟨hout, ?_⟩
      rw [← u32_shift]
      by_contra hbefore
      rw [getSectorNumber_inside fs hbefore] at hsec
      obtain ⟨⟨r, fs₁, dm₁⟩, hr, hsec⟩ := except_bind_ok hsec
      have hne := ne_nil_of_relocClus h hr
      have hsb : fs₁.superBlock = fs.superBlock := (relocClus_found hok hb h hne hr).ext.loc.superBlock
      have hval := (Prod.mk.inj (Except.ok.inj hsec)).1
      simp only [hsb] at hval
      obtain ⟨heq, hlt⟩ := sector_eq hok hend (h.chain.inRange _ (relocClus_cur hok hb h hr)) (u32 (k <<< 9))
      rw [heq] at hval
      unfold i32 at hval
      split at hval
      · omega
      · omega
    · rintro (⟨hlt, -⟩ | ⟨-, hwrap⟩)
      · exact absurd hlt hin
      · rw [← u32_shift] at hwrap
        exact ⟨fun _ => ⟨fs, dm, getSectorNumber_past hwrap⟩, fun hlt => absurd hlt hin⟩

/-- A file of one sector, in cluster 2 of the small volume. -/
def oneSector : DirMeta := ⟨0, 2, 512, 2, 1, 0, fun _ => 2, 0, .regular⟩

theorem fileOk_oneSector : FileOk (smallFs 4) oneSector [2] := by
  have hinv := (fatInit_smallState small_ok_four (by decide)).inv
  have hfile := hinv.files.file 0
  have hchain : (smallState 4).chainOf 0 = [2] := chainOf_small small_ok_four (by decide)
  rw [hchain] at hfile
  exact ⟨hfile.chain, rfl, fun _ => Nat.zero_lt_one, Nat.le_refl 1, hfile.cached, hfile.inodeOk⟩

/-- Its first sector is mapped. -/
theorem mapsSector_iff_first : MapsSector (smallFs 4) oneSector [2] 0 := by
  have hinv := (fatInit_smallState small_ok_four (by decide)).inv
  have hend : (smallFs 4).superBlock.firstDataSec + (smallFs 4).superBlock.dataClusCnt * (smallFs 4).superBlock.secPerClus < 2 ^ 32 := by
    decide
  have hchain : oneSector.fileSize ≤ [2].length * (smallFs 4).superBlock.bytsPerClus := by decide
  refine (mapsSector_iff small_ok_four hinv.bitmap hend fileOk_oneSector (by decide) hchain).mpr (.inl ⟨by decide, by decide, ?_, ?_, ?_⟩)
  · exact fun _ => by decide
  · exact fun _ => by decide
  · decide +kernel

/-- The sector at its end is taken for one of the file. -/
theorem getSectorNumber_end : (getSectorNumber (smallFs 4) oneSector 1).toOption.map Prod.fst = some 2 ∧
    ¬ MapsSector (smallFs 4) oneSector [2] 1 := by
  have hval : (getSectorNumber (smallFs 4) oneSector 1).toOption.map Prod.fst = some 2 := by decide +kernel
  refine ⟨hval, fun hmaps => ?_⟩
  obtain ⟨fs', dm', hsec, -⟩ := hmaps.past (by decide)
  rw [hsec] at hval
  cases hval

end Exaros.Fat
