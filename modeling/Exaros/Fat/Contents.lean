import Exaros.Fat.Allocation

/-!
# Files as byte arrays

What the files of a volume are for: each is an array of bytes. `FatState.contents` reads the array
from the disk, through the FAT; `metaWrite`, `metaRead` and `metaTrunc` act on it as `overwrite`, a
slice and the empty array do, and on no other file.

The gap that a write past the end leaves reads as zeros because `allocClus` clears every cluster and
nothing is ever written past the size of a file. That is known of the files `metaAlloc` created, not
of loaded ones, so the runs below operate on the former.
-/

namespace Exaros.Fat

/-! ## The arrays -/

/-- Bytes `off` to `off + n - 1` replaced, the gap filled with zeros if they start past the end. -/
def overwrite (bs : List Byte) (src : Nat → Byte) (off n : Nat) : List Byte :=
  if n = 0 then bs
  else (List.range (max bs.length (off + n))).map fun j =>
    if off ≤ j ∧ j < off + n then src (j - off) else bs.getD j 0

/-- The bytes of a file with the chain `L`. -/
def fileBytes (fs : FileSystem) (dm : DirMeta) (L : List Nat) : List Byte :=
  (List.range dm.fileSize).map (chainByte fs L)

/-- The bytes of file `i`. -/
def FatState.contents (s : FatState) (i : Nat) : List Byte := fileBytes s.fs (s.dirMetas i) (s.chainOf i)

@[simp] theorem length_fileBytes (fs : FileSystem) (dm : DirMeta) (L : List Nat) :
    (fileBytes fs dm L).length = dm.fileSize := by
  simp [fileBytes]

theorem getD_fileBytes (fs : FileSystem) (dm : DirMeta) (L : List Nat) (j : Nat) :
    (fileBytes fs dm L).getD j 0 = if j < dm.fileSize then chainByte fs L j else 0 := by
  split
  · rename_i hlt
    rw [List.getD_eq_getElem _ _ (by simpa using hlt)]
    simp only [fileBytes, List.getElem_map, List.getElem_range]
  · rename_i hge
    rw [List.getD_eq_default _ _ (by simpa using hge)]

theorem take_drop_fileBytes (fs : FileSystem) (dm : DirMeta) (L : List Nat) (off n : Nat) :
    ((fileBytes fs dm L).drop off).take n =
      (List.range (min n (dm.fileSize - off))).map fun j => chainByte fs L (off + j) := by
  refine List.ext_getElem (by simp) fun k h1 h2 => ?_
  rw [List.getElem_take, List.getElem_drop, List.getElem_map, List.getElem_range]
  simp only [fileBytes, List.getElem_map, List.getElem_range]

/-! ## Files that `metaAlloc` created -/

/-- A file that is cached as a whole and has only zeros past its size. -/
structure Plain (fs : FileSystem) (dm : DirMeta) (L : List Nat) : Prop where
  full : dm.inodeMaxCluster = L.length
  top : L.length ≤ INODE_THIRD_LEVEL_TOP
  size_lt : dm.fileSize < 2 ^ 32
  tail : ∀ j, dm.fileSize ≤ j → j < L.length * fs.superBlock.bytsPerClus → chainByte fs L j = 0
  cur : dm.curClus < FAT32_EOC

/-- A well-formed volume: the invariant holds, and no file is longer than its chain. -/
structure Volume (s : FatState) : Prop where
  inv : FatInv s s.chainOf
  sized : ∀ i, (s.dirMetas i).fileSize ≤ (s.chainOf i).length * s.fs.superBlock.bytsPerClus

/-- A regular file created since the volume was in state `s₀`. -/
structure Regular (s₀ s : FatState) (i : Nat) : Prop where
  created : i ∈ s₀.free ∧ i ∉ s.free
  dev : (s.dirMetas i).dev = .regular
  no_directory : (s.dirMetas i).attr &&& ATTR_DIRECTORY = 0
  writable : (s.dirMetas i).attr &&& ATTR_READ_ONLY = 0

/-- The volume and the pool have what a write needs, and the positions stay below the third level's
end. -/
structure Suffices (s : FatState) (i off n : Nat) : Prop where
  clusters : writeSpan s.fs.superBlock off n ≤ (s.chainOf i).length + freeClusters s.fs
  positions : span s.fs.superBlock off (off + n) ≤ INODE_THIRD_LEVEL_TOP
  inodes : inodesBetween (s.dirMetas i).inodeMaxCluster (span s.fs.superBlock off (off + n)) ≤ freeInodes s.fs

/-- The steps on the files created since `s₀`. -/
inductive FileRun (s₀ : FatState) : FatState → FatState → Prop
  | create {s s' : FatState} {attr i : Nat} (hfit : attr = ATTR_DIRECTORY → 0 < freeClusters s.fs)
      (hr : s.create attr = .ok (i, s')) : FileRun s₀ s s'
  | write {s s' : FatState} {i off n : Nat} {src : Nat → Byte} {r : Int} (hi : Regular s₀ s i)
      (hoff : off + n < 2 ^ 32) (hfit : Suffices s i off n) (hr : s.write i src off n = .ok (r, s')) : FileRun s₀ s s'
  | read {s s' : FatState} {i off n : Nat} {r : Int} {dst : List Byte} (hi : Regular s₀ s i)
      (hoff : off + n < 2 ^ 32) (hr : s.read i off n = .ok (r, dst, s')) : FileRun s₀ s s'
  | trunc {s s' : FatState} {i : Nat} (hi : Regular s₀ s i) (hr : s.trunc i = .ok s') : FileRun s₀ s s'

/-- The invariant of these runs. -/
structure FileInv (s₀ s : FatState) : Prop where
  volume : Volume s
  plain : ∀ i ∈ s₀.free, i ∉ s.free → (s.dirMetas i).attr &&& ATTR_DIRECTORY = 0 →
    Plain s.fs (s.dirMetas i) (s.chainOf i)

section Step

variable {s₀ s s' : FatState} {i : Nat} {L' : List Nat} {off n : Nat}

theorem FileStep.chainOf (hs : FileStep s s.chainOf i s' L') :
    s'.chainOf i = L' ∧ ∀ j, j ≠ i → s'.chainOf j = s.chainOf j := by
  rw [hs.inv.chainOf]
  exact ⟨if_pos rfl, fun j hj => if_neg hj⟩

/-- The bytes of the other files. -/
theorem FileStep.chainByte (hs : FileStep s s.chainOf i s' L') (h : FatInv s s.chainOf) {j k : Nat} (hj : j ≠ i)
    (hk : k < (s.chainOf j).length * s.fs.superBlock.bytsPerClus) :
    chainByte s'.fs (s.chainOf j) k = Fat.chainByte s.fs (s.chainOf j) k :=
  chainByte_frame hs.loc h.superBlock h.bitmap (h.files.file j).chain (h.files.clusters j i hj) hk

/-- An operation on one file does not change another. -/
theorem FileStep.contents (hs : FileStep s s.chainOf i s' L') (h : Volume s) {j : Nat} (hj : j ≠ i) :
    s'.contents j = s.contents j := by
  unfold FatState.contents fileBytes
  rw [hs.others j hj, hs.chainOf.2 j hj]
  refine List.map_congr_left fun k hk => hs.chainByte h.inv hj ?_
  have := List.mem_range.mp hk
  have := h.sized j
  omega

/-- The invariant after an operation on file `i`, given what it leaves in that file. -/
theorem FileInv.step (h : FileInv s₀ s) (hs : FileStep s s.chainOf i s' L') (hfree : ∀ j, j ≠ i → j ∉ s'.free → j ∉ s.free)
    (hsize : (s'.dirMetas i).fileSize ≤ L'.length * s.fs.superBlock.bytsPerClus)
    (hplain : i ∈ s₀.free → i ∉ s'.free → (s'.dirMetas i).attr &&& ATTR_DIRECTORY = 0 → Plain s'.fs (s'.dirMetas i) L') :
    FileInv s₀ s' := by
  obtain ⟨hself, hother⟩ := hs.chainOf
  have hsb := hs.loc.superBlock
  have hinv : FatInv s' s'.chainOf := by
    rw [hs.inv.chainOf]
    exact hs.inv
  refine ⟨⟨hinv, fun j => ?_⟩, fun j hj₀ hj hattr => ?_⟩
  · rw [hsb]
    by_cases hji : j = i
    · rw [hji, hself]
      exact hsize
    · rw [hother j hji, hs.others j hji]
      exact h.volume.sized j
  · by_cases hji : j = i
    · subst hji
      rw [hself]
      exact hplain hj₀ hj hattr
    · rw [hs.others j hji] at hattr ⊢
      rw [hother j hji]
      have hp := h.plain j hj₀ (hfree j hji hj) hattr
      refine ⟨hp.full, hp.top, hp.size_lt, fun k hk hlt => ?_, hp.cur⟩
      rw [hsb] at hlt
      rw [hs.chainByte h.volume.inv hji hlt]
      exact hp.tail k hk hlt

/-! ## The operations -/

/-- The written file. -/
theorem MetaWritten.plain {fs fs' : FileSystem} {dm dm' : DirMeta} {L : List Nat} {src : Nat → Byte}
    (hw : MetaWritten fs dm L src off n fs' dm' L') (hok : fs.superBlock.Ok) (hp : Plain fs dm L)
    (hsize : dm.fileSize ≤ L.length * fs.superBlock.bytsPerClus) (hoff : off + n < 2 ^ 32)
    (htop : span fs.superBlock off (off + n) ≤ INODE_THIRD_LEVEL_TOP) :
    Plain fs' dm' L' ∧ dm'.fileSize ≤ L'.length * fs.superBlock.bytsPerClus := by
  obtain ⟨dm₁, hwr, hdm⟩ := hw.written
  have hsb := hwr.loc.superBlock
  have hlen := hwr.length_le fs.superBlock.bytsPerClus
  have hin := hwr.inside
  have hnew : dm'.fileSize = grownSize dm off n := by rw [hdm]
  have hlength := hw.length
  have hle : dm.fileSize ≤ grownSize dm off n ∧ (0 < n → off + n ≤ grownSize dm off n) ∧
      grownSize dm off n < 2 ^ 32 ∧ grownSize dm off n ≤ L'.length * fs.superBlock.bytsPerClus := by
    have := hp.size_lt
    unfold grownSize
    split
    · have := hin (by omega)
      omega
    · omega
  rw [hnew]
  refine ⟨⟨hw.full hp.full, ?_, by rw [hnew]; exact hle.2.2.1, fun j hj hlt => ?_, ?_⟩, hle.2.2.2⟩
  · have := hp.top
    have h1 : 1 ≤ INODE_THIRD_LEVEL_TOP := by decide
    unfold writeSpan at hlength
    omega
  · rw [hnew] at hj
    rw [hsb] at hlt
    rw [hwr.bytes j hlt, if_neg (by omega)]
    split
    · rename_i hold
      exact hp.tail j (by omega) hold
    · rfl
  · rcases hw.cur with hmem | hsame
    · have hin := hwr.loc.fileOk.chain.inRange _ hmem
      rw [hsb] at hin
      exact (hok.inRange_bounds hin).2
    · rw [hsame]
      exact hp.cur

/-- The size after a write. -/
theorem grownSize_eq (dm : DirMeta) (off n : Nat) :
    grownSize dm off n = if n = 0 then dm.fileSize else max dm.fileSize (off + n) := by
  unfold grownSize
  split <;> split <;> omega

/-- The written bytes. -/
theorem MetaWritten.fileBytes {fs fs' : FileSystem} {dm dm' : DirMeta} {L : List Nat} {src : Nat → Byte}
    (hw : MetaWritten fs dm L src off n fs' dm' L') (hp : Plain fs dm L)
    (hsize : dm.fileSize ≤ L.length * fs.superBlock.bytsPerClus)
    (hsize' : dm'.fileSize ≤ L'.length * fs.superBlock.bytsPerClus) :
    fileBytes fs' dm' L' = overwrite (Fat.fileBytes fs dm L) src off n := by
  obtain ⟨dm₁, hwr, hdm⟩ := hw.written
  have hnew : dm'.fileSize = grownSize dm off n := by rw [hdm]
  have hbyte : ∀ j < dm'.fileSize, chainByte fs' L' j =
      if off ≤ j ∧ j < off + n then src (j - off) else (Fat.fileBytes fs dm L).getD j 0 := by
    intro j hj
    rw [hwr.bytes j (by omega), getD_fileBytes]
    by_cases hwin : off ≤ j ∧ j < off + n
    · rw [if_pos hwin, if_pos hwin]
    · rw [if_neg hwin, if_neg hwin]
      by_cases hold : j < dm.fileSize
      · rw [if_pos (by omega), if_pos hold]
      · -- past the old size: zeros of the old chain, or of a new cluster
        rw [if_neg hold]
        split
        · rename_i hlt
          exact hp.tail j (by omega) hlt
        · rfl
  have heq : Fat.fileBytes fs' dm' L' = (List.range dm'.fileSize).map fun j =>
      if off ≤ j ∧ j < off + n then src (j - off) else (Fat.fileBytes fs dm L).getD j 0 :=
    List.map_congr_left fun j hj => hbyte j (List.mem_range.mp hj)
  rw [heq, hnew, grownSize_eq]
  unfold overwrite
  rw [length_fileBytes]
  split
  · rename_i hn
    refine List.ext_getElem (by simp) fun k h1 h2 => ?_
    rw [List.getElem_map, List.getElem_range, if_neg (by omega), List.getD_eq_getElem _ _ h2]
  · rfl

/-- `metaWrite` on a regular file, with what it needs at hand. -/
theorem FileInv.write (h : FileInv s₀ s) (hi : Regular s₀ s i) (src : Nat → Byte) (hoff : off + n < 2 ^ 32)
    (hfit : Suffices s i off n) :
    ∃ s', s.write i src off n = .ok (i32 n, s') ∧ FileInv s₀ s' ∧
      s'.contents i = overwrite (s.contents i) src off n ∧ ∀ j, j ≠ i → s'.contents j = s.contents j := by
  have hinv := h.volume.inv
  have hp := h.plain i hi.created.1 hi.created.2 hi.no_directory
  have hacc : ¬ WriteRefused (s.dirMetas i) off n := by
    have hu : u32 (off + n) = off + n := Nat.mod_eq_of_lt hoff
    unfold WriteRefused
    rw [hi.dev, hi.writable, hu]
    rintro (hd | hc | hc | hc)
    · cases hd
    · omega
    · omega
    · exact hc rfl
  obtain ⟨⟨r, fs', dm'⟩, hmeta⟩ := exists_metaWrite src hinv.superBlock hinv.bitmap (hinv.files.file i) hacc
    hfit.clusters hfit.positions hfit.inodes
  have hr : s.write i src off n = .ok (r, s.update i fs' dm') := by
    unfold FatState.write
    rw [hmeta]
    rfl
  obtain ⟨L', hs, hwritten⟩ := hinv.write hi.created.2 (fun _ => hfit.clusters) hr
  obtain ⟨rfl, hw⟩ := hwritten hacc
  obtain ⟨hplain, hsize⟩ := hw.plain hinv.superBlock hp (h.volume.sized i) hoff hfit.positions
  refine ⟨_, hr, h.step hs (fun _ _ hj => hj) hsize fun _ _ _ => hplain, ?_, fun j hj => hs.contents h.volume hj⟩
  unfold FatState.contents
  rw [hs.chainOf.1]
  exact hw.fileBytes hp (h.volume.sized i) hsize

/-- `metaRead` on a regular file. -/
theorem FileInv.read (h : FileInv s₀ s) (hi : Regular s₀ s i) (hoff : off + n < 2 ^ 32) :
    ∃ s', s.read i off n = .ok (i32 (min n ((s.contents i).length - off)), ((s.contents i).drop off).take n, s') ∧
      FileInv s₀ s' ∧ ∀ j, s'.contents j = s.contents j := by
  have hinv := h.volume.inv
  have hp := h.plain i hi.created.1 hi.created.2 hi.no_directory
  have hfile := hinv.files.file i
  obtain ⟨cur, cnt, hcur, hmeta⟩ := metaRead_eq hinv.superBlock hfile (by rw [hi.dev]; decide) hi.no_directory hp.full
    hp.top (h.volume.sized i) hp.size_lt hp.cur hoff
  have hs := hinv.fileStep_live hi.created.2 (Ext.setCur hinv.bitmap hfile cur cnt).loc
  have hself : (s.update i s.fs { s.dirMetas i with curClus := cur, clusCnt := cnt }).dirMetas i =
      { s.dirMetas i with curClus := cur, clusCnt := cnt } := if_pos rfl
  refine ⟨_, ?_, h.step hs (fun _ _ hj => hj) ?_ fun _ _ _ => ?_, fun j => ?_⟩
  rotate_left
  · rw [hself]
    exact h.volume.sized i
  · rw [hself]
    exact ⟨hp.full, hp.top, hp.size_lt, hp.tail, hcur⟩
  · by_cases hj : j = i
    · subst hj
      unfold FatState.contents
      rw [hs.chainOf.1, hself]
      rfl
    · exact hs.contents h.volume hj
  · unfold FatState.read
    rw [hmeta, FatState.contents, take_drop_fileBytes, length_fileBytes]
    rfl

/-- `metaTrunc` on a regular file. -/
theorem FileInv.trunc (h : FileInv s₀ s) (hi : Regular s₀ s i) :
    ∃ s', s.trunc i = .ok s' ∧ FileInv s₀ s' ∧ s'.contents i = [] ∧ ∀ j, j ≠ i → s'.contents j = s.contents j := by
  have hinv := h.volume.inv
  have hp := h.plain i hi.created.1 hi.created.2 hi.no_directory
  obtain ⟨s', hr, hs, hfree, hdm⟩ := hinv.trunc hi.created.2
  refine ⟨s', hr, h.step hs (fun j _ hj => by rw [← hfree]; exact hj) ?_ fun _ _ _ => ?_, ?_, fun j hj =>
    hs.contents h.volume hj⟩
  · rw [hdm]
    exact Nat.zero_le _
  · rw [hdm]
    refine ⟨rfl, Nat.zero_le _, Nat.two_pow_pos 32, fun j _ hlt => ?_, hp.cur⟩
    rw [List.length_nil, Nat.zero_mul] at hlt
    exact absurd hlt (Nat.not_lt_zero j)
  · unfold FatState.contents fileBytes
    rw [hdm]
    rfl

/-- Creating a file. -/
theorem FileInv.create (h : FileInv s₀ s) {attr : Nat} (hfit : attr = ATTR_DIRECTORY → 0 < freeClusters s.fs)
    (hr : s.create attr = .ok (i, s')) : FileInv s₀ s' := by
  obtain ⟨hfree, L', hs, hsize, hkind⟩ := h.volume.inv.create hfit hr
  refine h.step hs (fun j hj hnot hin => ?_) (by rw [hsize]; exact Nat.zero_le _) fun _ _ hattr => ?_
  · rw [hfree] at hin
    exact hnot ((List.mem_cons.mp hin).resolve_left hj)
  · rcases hkind with hdir | ⟨rfl, hk, hcur⟩
    · rw [hdir] at hattr
      exact absurd hattr (by decide)
    · refine ⟨hk, Nat.zero_le _, by rw [hsize]; decide, fun j _ hlt => ?_, by rw [hcur]; decide⟩
      rw [List.length_nil, Nat.zero_mul] at hlt
      exact absurd hlt (Nat.not_lt_zero j)

/-- **One step.** Every operation keeps the invariant. -/
theorem FileInv.run (h : FileInv s₀ s) (hr : FileRun s₀ s s') : FileInv s₀ s' := by
  cases hr with
  | create hfit hr => exact h.create hfit hr
  | write hi hoff hfit hr =>
    obtain ⟨s₁, hr₁, hinv, -⟩ := h.write hi _ hoff hfit
    rw [hr₁] at hr
    cases hr
    exact hinv
  | read hi hoff hr =>
    obtain ⟨s₁, hr₁, hinv, -⟩ := h.read hi hoff
    rw [hr₁] at hr
    cases hr
    exact hinv
  | trunc hi hr =>
    obtain ⟨s₁, hr₁, hinv, -⟩ := h.trunc hi
    rw [hr₁] at hr
    obtain rfl := Except.ok.inj hr
    exact hinv

end Step

/-! ## The result -/

theorem FileInv.reach {s₀ s : FatState} (h₀ : Volume s₀) (h : Run.Reach (· = s₀) (FileRun s₀) s) : FileInv s₀ s := by
  refine h.invariant (fun s hs => ?_) fun s s' hinv hr => hinv.run hr
  subst hs
  exact ⟨h₀, fun i hi hn => absurd hi hn⟩

theorem i32_of_lt {n : Nat} (h : n < 2 ^ 31) : i32 n = n := if_pos h

/-- **Files are byte arrays.** After any run, on any file created in it: `metaWrite` returns `n` and
replaces the bytes it was given, `metaRead` returns the bytes asked for, `metaTrunc` empties the file,
and none of them changes another file. The length of `contents` is the size of the file. -/
theorem files_are_byte_arrays {s₀ s : FatState} (h₀ : Volume s₀) (h : Run.Reach (· = s₀) (FileRun s₀) s) :
    (∀ i src off n, Regular s₀ s i → off + n < 2 ^ 32 → n < 2 ^ 31 → Suffices s i off n →
      ∃ s', s.write i src off n = .ok ((n : Int), s') ∧ s'.contents i = overwrite (s.contents i) src off n ∧
        ∀ j, j ≠ i → s'.contents j = s.contents j) ∧
    (∀ i off n, Regular s₀ s i → off + n < 2 ^ 32 →
      ∃ s', s.read i off n =
          .ok (i32 (min n ((s.contents i).length - off)), ((s.contents i).drop off).take n, s') ∧
        ∀ j, s'.contents j = s.contents j) ∧
    (∀ i, Regular s₀ s i →
      ∃ s', s.trunc i = .ok s' ∧ s'.contents i = [] ∧ ∀ j, j ≠ i → s'.contents j = s.contents j) := by
  have hinv := FileInv.reach h₀ h
  refine ⟨fun i src off n hi hoff hn hfit => ?_, fun i off n hi hoff => ?_, fun i hi => ?_⟩
  · obtain ⟨s', hr, -, hself, hother⟩ := hinv.write hi src hoff hfit
    rw [i32_of_lt hn] at hr
    exact ⟨s', hr, hself, hother⟩
  · obtain ⟨s', hr, -, hall⟩ := hinv.read hi hoff
    exact ⟨s', hr, hall⟩
  · obtain ⟨s', hr, -, hself, hother⟩ := hinv.trunc hi
    exact ⟨s', hr, hself, hother⟩

/-- The small volume is well formed. -/
theorem volume_small : Volume (smallState 4) := by
  refine ⟨(fatInit_smallState small_ok_four (by decide)).inv, fun i => ?_⟩
  have hsize : ((smallState 4).dirMetas i).fileSize = 0 := by
    by_cases hi : i = 0
    · subst hi
      rfl
    · show (if i = 0 then _ else emptyMeta).fileSize = 0
      rw [if_neg hi]
      rfl
  rw [hsize]
  exact Nat.zero_le _

/-- A file made on the small volume takes a first write. -/
theorem files_are_byte_arrays_small : ∃ s, Run.Reach (· = smallState 4) (FileRun (smallState 4)) s ∧
    Regular (smallState 4) s 1 ∧ s.contents 1 = [] ∧
    ∃ s', s.write 1 (fun i => BitVec.ofNat 8 (65 + i)) 1 2 = .ok (2, s') ∧ s'.contents 1 = [0, 65, 66] ∧
      s'.contents 0 = s.contents 0 := by
  obtain ⟨s, hcreate, hs⟩ : ∃ s, (smallState 4).create 0 = .ok (1, s) ∧ s.free = [] ∧ s.fs = smallFs 4 ∧
      s.dirMetas 1 = { emptyMeta with attr := ATTR_ARCHIVE } := ⟨_, rfl, rfl, rfl, rfl⟩
  obtain ⟨hfree, hfs, hdm⟩ := hs
  have hreach : Run.Reach (· = smallState 4) (FileRun (smallState 4)) s :=
    .step (.init rfl) (.create (by decide) hcreate)
  have hempty : s.contents 1 = [] := by
    unfold FatState.contents fileBytes
    rw [hdm]
    rfl
  have hreg : Regular (smallState 4) s 1 := by
    refine ⟨⟨List.mem_singleton_self 1, by rw [hfree]; exact List.not_mem_nil⟩, ?_, ?_, ?_⟩ <;> rw [hdm] <;> rfl
  have hroom : 0 < freeClusters s.fs := by
    rw [hfs]
    exact freeClusters_small
  have hsuff : Suffices s 1 1 2 := by
    have hspan : span s.fs.superBlock 1 3 = 1 := by rw [hfs]; decide
    refine ⟨?_, ?_, ?_⟩
    · unfold writeSpan
      rw [hspan]
      omega
    · rw [hspan]
      decide
    · rw [hspan, hdm]
      exact Nat.zero_le _
  obtain ⟨s', hr, hself, hother⟩ := (files_are_byte_arrays volume_small hreach).1 1
    (fun i => BitVec.ofNat 8 (65 + i)) 1 2 hreg (by decide) (by decide) hsuff
  refine ⟨s, hreach, hreg, hempty, s', hr, ?_, hother 0 (by decide)⟩
  rw [hself, hempty]
  decide

end Exaros.Fat
