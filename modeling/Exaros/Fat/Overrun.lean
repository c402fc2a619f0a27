import Exaros.Fat.Pool

/-!
# The inode pool when it runs out

`inodeAlloc` bounds its scan by `sizeof(inodeBitmap)`, the bytes of the bitmap, where it has only an
eighth as many words. With a clear bit in the bitmap the scan ends before it leaves it, and is the one
of `Exaros.Fat.inodeAlloc`. In a full pool it goes on over the memory behind the bitmap: what it
returns is then no inode, and `metaCacheInode` stores through it.

Here a bitmap is the memory from `inodeBitmap` on, and `metaCacheInode` records the inodes it stores
through. Over the runs of the calls on caches, all of these are inodes of the pool exactly when each
call finds the inodes its position needs.
-/

namespace Exaros.Fat.Overrun

/-- `sizeof(inodeBitmap)`, which bounds the scan. -/
def sizeofInodeBitmap : Nat := INODE_NUM / 64 * 8

/-- What one scan does. -/
structure Scan where
  /-- what `inodeAlloc` returns -/
  ret : Int
  /-- the bitmap, and the memory behind it, afterwards -/
  words : Bitmap.Words
  /-- the words read -/
  read : List Nat

/-- The words that a scan of `n` words from word `i` on reads. -/
def wordsRead (bm : Bitmap.Words) : Nat → Nat → List Nat
  | 0, _ => []
  | n + 1, i => i :: if ~~~ bm i ≠ 0 then [] else wordsRead bm n (i + 1)

/-- `inodeAlloc` over the words of memory. -/
def scan (bm : Bitmap.Words) : Scan :=
  match Bitmap.findClear bm sizeofInodeBitmap 0 with
  | none => ⟨-1, bm, wordsRead bm sizeofInodeBitmap 0⟩
  | some x => ⟨x, Bitmap.set bm x, wordsRead bm sizeofInodeBitmap 0⟩

/-- `inodeAlloc` as its callers use it: the number is stored in a `u32`. -/
def inodeAlloc (fs : FileSystem) : Nat × FileSystem :=
  (((scan fs.inodeBitmap).ret % 2 ^ 32).toNat, { fs with inodeBitmap := (scan fs.inodeBitmap).words })

/-- `metaCacheInode`, with the indices `x` of its stores to `inodes[x]`. -/
def metaCacheInode (fs : FileSystem) (dm : DirMeta) (clus : Nat) :
    Except Panic (FileSystem × DirMeta × List Nat) :=
  let pos := dm.clusCnt
  if pos ≠ dm.inodeMaxCluster then .error .metaCacheInode
  else
    let dm := dm.bump
    if pos < INODE_SECOND_LEVEL_BOTTOM then .ok (fs, dm.setItem pos clus, [])
    else if pos < INODE_THIRD_LEVEL_BOTTOM then
      let idx1 := INODE_SECOND_ITEM_BASE + (pos - INODE_SECOND_LEVEL_BOTTOM) / INODE_ITEM_NUM
      let idx2 := (pos - INODE_SECOND_LEVEL_BOTTOM) % INODE_ITEM_NUM
      if idx2 = 0 then
        let r := inodeAlloc fs
        .ok (setInode r.2 r.1 idx2 clus, dm.setItem idx1 r.1, [r.1])
      else .ok (setInode fs (dm.item idx1) idx2 clus, dm, [dm.item idx1])
    else if pos < INODE_THIRD_LEVEL_TOP then
      let idx1 := INODE_THIRD_ITEM_BASE + (pos - INODE_THIRD_LEVEL_BOTTOM) / INODE_ITEM_NUM / INODE_ITEM_NUM
      let idx2 := (pos - INODE_THIRD_LEVEL_BOTTOM) / INODE_ITEM_NUM % INODE_ITEM_NUM
      let idx3 := (pos - INODE_THIRD_LEVEL_BOTTOM) % INODE_ITEM_NUM
      if idx3 = 0 then
        let r := inodeAlloc fs
        if idx2 = 0 then
          let q := inodeAlloc r.2
          let fs := setInode q.2 r.1 idx2 q.1
          .ok (setInode fs (fs.inodes r.1 idx2) idx3 clus, dm.setItem idx1 r.1, [r.1, fs.inodes r.1 idx2])
        else
          let fs := setInode r.2 (dm.item idx1) idx2 r.1
          .ok (setInode fs (fs.inodes (dm.item idx1) idx2) idx3 clus, dm,
            [dm.item idx1, fs.inodes (dm.item idx1) idx2])
      else
        .ok (setInode fs (fs.inodes (dm.item idx1) idx2) idx3 clus, dm, [fs.inodes (dm.item idx1) idx2])
    else .ok (fs, dm, [])

/-! ## The scan -/

section Scan

variable {bm : Bitmap.Words} {n i x : Nat}

/-- A scan reads no word behind the one with a clear bit. -/
theorem le_of_mem_wordsRead {w : Nat} (hw : w ∈ wordsRead bm n i) (hi : i ≤ x / 64)
    (hx : Bitmap.get bm x = false) : w ≤ x / 64 := by
  induction n generalizing i with
  | zero => cases hw
  | succ n ih =>
    rcases List.mem_cons.mp hw with rfl | hw
    · exact hi
    · split at hw
      · cases hw
      · rename_i hfull
        have hne : i ≠ x / 64 := fun heq => by
          have := Bitmap.not_word_eq_zero.mp (not_not.mp hfull) x heq.symm
          rw [hx] at this
          exact Bool.noConfusion this
        apply ih hw
        omega

/-- It reads on behind words that are full. -/
theorem mem_wordsRead {k : Nat} (hk : k < n) (hfull : ∀ w, i ≤ w → w < i + k → ~~~ bm w = 0) :
    i + k ∈ wordsRead bm n i := by
  induction n generalizing i k with
  | zero => exact absurd hk (Nat.not_lt_zero k)
  | succ n ih =>
    unfold wordsRead
    cases k with
    | zero => exact List.mem_cons_self ..
    | succ k =>
      have hhere : ¬ ~~~ bm i ≠ 0 := not_not.mpr (hfull i (Nat.le_refl i) (by omega))
      rw [if_neg hhere, Nat.add_comm k 1, ← Nat.add_assoc]
      refine List.mem_cons_of_mem _ (ih (by omega) fun w hw hwk => hfull w (by omega) (by omega))

/-- With a clear bit in the pool, the scan takes the least one. -/
theorem scan_of_clear (hlt : x < INODE_NUM) (hx : Bitmap.get bm x = false) :
    ∃ c < INODE_NUM, Bitmap.findClear bm (INODE_NUM / 64) 0 = some c ∧ (scan bm).ret = c ∧
      Bitmap.get bm c = false ∧ (∀ y < c, Bitmap.get bm y = true) ∧ (scan bm).words = Bitmap.set bm c ∧
      ∀ w ∈ (scan bm).read, w ≤ c / 64 := by
  have hnum : INODE_NUM = 1024 := rfl
  obtain ⟨c, hc⟩ := Bitmap.exists_findClear (n := INODE_NUM / 64) (i := 0) (by omega) (by omega) hx
  obtain ⟨d, hd⟩ := Bitmap.exists_findClear (n := sizeofInodeBitmap) (i := 0) (by omega)
    (by unfold sizeofInodeBitmap; omega) hx
  obtain ⟨-, hclt, hcfree, hcleast⟩ := Bitmap.findClear_eq_some hc
  obtain ⟨-, -, hdfree, hdleast⟩ := Bitmap.findClear_eq_some hd
  -- both scans end at the least clear bit
  have hdc : d = c := by
    rcases Nat.lt_trichotomy d c with hlt | heq | hgt
    · have := hcleast d (by omega) hlt
      rw [hdfree] at this
      exact Bool.noConfusion this
    · exact heq
    · have := hdleast c (by omega) hgt
      rw [hcfree] at this
      exact Bool.noConfusion this
  subst hdc
  have hscan : scan bm = ⟨d, Bitmap.set bm d, wordsRead bm sizeofInodeBitmap 0⟩ := by
    unfold scan
    rw [hd]
  rw [hscan]
  exact ⟨d, by omega, hc, rfl, hcfree, fun y hy => hcleast y (by omega) hy, rfl, fun w hw =>
    le_of_mem_wordsRead hw (Nat.zero_le _) hcfree⟩

/-- In a full pool the scan reads the word behind the bitmap. -/
theorem mem_read_of_full (h : ∀ x < INODE_NUM, Bitmap.get bm x = true) : INODE_NUM / 64 ∈ (scan bm).read := by
  have hmem : 0 + INODE_NUM / 64 ∈ wordsRead bm sizeofInodeBitmap 0 := by
    apply mem_wordsRead
    · decide
    · exact fun w _ hw => Bitmap.not_word_eq_zero.mpr fun c hc => h c (by omega)
  rw [Nat.zero_add] at hmem
  unfold scan
  split <;> exact hmem

end Scan

/-- What `inodeAlloc` is there for: it takes the least clear bit of the pool, says so if there is none,
and keeps to the words of the bitmap. -/
structure AllocMeets (bm : Bitmap.Words) : Prop where
  least : (∃ x < INODE_NUM, Bitmap.get bm x = false) → ∃ c < INODE_NUM, (scan bm).ret = c ∧
    Bitmap.get bm c = false ∧ (∀ y < c, Bitmap.get bm y = true) ∧ (scan bm).words = Bitmap.set bm c
  full : (scan bm).ret = -1 ↔ ∀ x < INODE_NUM, Bitmap.get bm x = true
  unchanged : (scan bm).ret = -1 → (scan bm).words = bm
  reads : ∀ w ∈ (scan bm).read, w < INODE_NUM / 64
  writes : ∀ w, (scan bm).words w ≠ bm w → w < INODE_NUM / 64

/-- **`inodeAlloc`** does so exactly in a pool that is not full. -/
theorem allocMeets_iff (bm : Bitmap.Words) : AllocMeets bm ↔ ∃ x < INODE_NUM, Bitmap.get bm x = false := by
  have hnum : INODE_NUM = 1024 := rfl
  constructor
  · intro h
    by_contra hnone
    have hfull : ∀ x < INODE_NUM, Bitmap.get bm x = true := by
      intro x hx
      rw [← Bool.not_eq_false]
      exact fun hclear => hnone ⟨x, hx, hclear⟩
    exact absurd (h.reads _ (mem_read_of_full hfull)) (Nat.lt_irrefl _)
  · rintro ⟨x, hlt, hx⟩
    obtain ⟨c, hclt, -, hret, hfree, hleast, hwords, hread⟩ := scan_of_clear hlt hx
    refine ⟨fun _ => ⟨c, hclt, hret, hfree, hleast, hwords⟩, ⟨fun h => ?_, fun h => ?_⟩, fun h => ?_, fun w hw => ?_,
      fun w hw => ?_⟩
    · omega
    · rw [h x hlt] at hx
      exact Bool.noConfusion hx
    · omega
    · have := hread w hw
      omega
    · rw [hwords] at hw
      by_cases heq : w = c / 64
      · omega
      · exact absurd (if_neg heq) hw

/-! ## Allocation against the pool -/

section Alloc

variable {fs fs' : FileSystem} {x : Nat}

/-- The pool has an inode: both models take the same one. -/
theorem inodeAlloc_of_free (h : Fat.inodeAlloc fs = .ok (x, fs')) : inodeAlloc fs = (x, fs') := by
  obtain ⟨hx, hlt, rfl⟩ := inodeAlloc_eq_ok h
  obtain ⟨c, hclt, hfind, hret, -, -, hwords, -⟩ := scan_of_clear hlt hx
  have hnum : INODE_NUM = 1024 := rfl
  have hcx : c = x := by
    unfold Fat.inodeAlloc at h
    rw [hfind] at h
    exact (Prod.mk.inj (Except.ok.inj h)).1
  subst hcx
  unfold inodeAlloc
  rw [hret, hwords]
  have hu : ((c : Int) % 2 ^ 32).toNat = c := by omega
  rw [hu]

theorem full_of_freeInodes (h : freeInodes fs = 0) : ∀ y < INODE_NUM, Bitmap.get fs.inodeBitmap y = true := by
  intro y hy
  by_contra hclear
  rw [Bool.not_eq_true] at hclear
  have hset := Bitmap.freeCount_set (Nat.zero_le y) hy hclear
  unfold freeInodes at h
  omega

/-- The pool is full: the number is past its inodes. -/
theorem le_inodeAlloc_of_full (h : freeInodes fs = 0) : INODE_NUM ≤ (inodeAlloc fs).1 := by
  unfold inodeAlloc scan
  cases hf : Bitmap.findClear fs.inodeBitmap sizeofInodeBitmap 0 with
  | none =>
    show INODE_NUM ≤ ((-1 : Int) % 2 ^ 32).toNat
    decide
  | some c =>
    obtain ⟨-, hlt, hfree, -⟩ := Bitmap.findClear_eq_some hf
    have hge : INODE_NUM ≤ c := by
      by_contra hclt
      have := full_of_freeInodes h c (by omega)
      rw [hfree] at this
      exact Bool.noConfusion this
    have hsize : sizeofInodeBitmap = 128 := rfl
    show INODE_NUM ≤ ((c : Int) % 2 ^ 32).toNat
    omega

/-- An allocation marks an inode of the pool and no other bit. -/
theorem bits_of_inodeAlloc (h : Fat.inodeAlloc fs = .ok (x, fs')) {y : Nat} (hy : INODE_NUM ≤ y) :
    Bitmap.get fs'.inodeBitmap y = Bitmap.get fs.inodeBitmap y := by
  obtain ⟨-, hlt, rfl⟩ := inodeAlloc_eq_ok h
  have hne : y ≠ x := by omega
  simp [Bitmap.get_set, hne]

end Alloc

/-! ## One more position -/

section Equations

variable {fs : FileSystem} {dm : DirMeta} {clus : Nat}

theorem metaCacheInode_first (hc : dm.clusCnt = dm.inodeMaxCluster) (h : dm.inodeMaxCluster < 8) :
    metaCacheInode fs dm clus = .ok (fs, dm.bump.setItem dm.inodeMaxCluster clus, []) := by
  have hb : INODE_SECOND_LEVEL_BOTTOM = 8 := rfl
  unfold metaCacheInode
  rw [hc, hb]
  simp only [ne_eq, not_true_eq_false, if_false, if_pos h]

theorem metaCacheInode_second {j i : Nat} (hc : dm.clusCnt = dm.inodeMaxCluster)
    (hm : dm.inodeMaxCluster = 8 + 64 * j + i) (hj : j < 16) (hi : i < 64) :
    metaCacheInode fs dm clus =
      if i = 0 then
        .ok (setInode (inodeAlloc fs).2 (inodeAlloc fs).1 i clus, dm.bump.setItem (8 + j) (inodeAlloc fs).1,
          [(inodeAlloc fs).1])
      else .ok (setInode fs (dm.item (8 + j)) i clus, dm.bump, [dm.item (8 + j)]) := by
  have hb : INODE_SECOND_LEVEL_BOTTOM = 8 := rfl
  have ht : INODE_THIRD_LEVEL_BOTTOM = 1032 := rfl
  have hn : INODE_ITEM_NUM = 64 := rfl
  have hs : INODE_SECOND_ITEM_BASE = 8 := rfl
  have h1 : ¬ 8 + 64 * j + i < 8 := by omega
  have h2 : 8 + 64 * j + i < 1032 := by omega
  have h3 : (8 + 64 * j + i - 8) / 64 = j := by omega
  have h4 : (8 + 64 * j + i - 8) % 64 = i := by omega
  unfold metaCacheInode
  rw [hc, hm, hb, ht, hn, hs]
  simp only [ne_eq, not_true_eq_false, if_false, if_neg h1, if_pos h2, h3, h4]
  rfl

/-- The third level, when the search for an inode may run past the pool. -/
theorem metaCacheInode_third {j l i : Nat} (hc : dm.clusCnt = dm.inodeMaxCluster)
    (hm : dm.inodeMaxCluster = 1032 + 4096 * j + 64 * l + i) (hj : j < 40) (hl : l < 64) (hi : i < 64) :
    metaCacheInode fs dm clus =
      if i = 0 then
        if l = 0 then
          .ok (setInode (setInode (inodeAlloc (inodeAlloc fs).2).2 (inodeAlloc fs).1 l (inodeAlloc (inodeAlloc fs).2).1)
              (inodeAlloc (inodeAlloc fs).2).1 i clus,
            dm.bump.setItem (24 + j) (inodeAlloc fs).1, [(inodeAlloc fs).1, (inodeAlloc (inodeAlloc fs).2).1])
        else
          .ok (setInode (setInode (inodeAlloc fs).2 (dm.item (24 + j)) l (inodeAlloc fs).1) (inodeAlloc fs).1 i clus,
            dm.bump, [dm.item (24 + j), (inodeAlloc fs).1])
      else
        .ok (setInode fs (fs.inodes (dm.item (24 + j)) l) i clus, dm.bump, [fs.inodes (dm.item (24 + j)) l]) := by
  have hb : INODE_SECOND_LEVEL_BOTTOM = 8 := rfl
  have ht : INODE_THIRD_LEVEL_BOTTOM = 1032 := rfl
  have htt : INODE_THIRD_LEVEL_TOP = 164872 := rfl
  have hn : INODE_ITEM_NUM = 64 := rfl
  have hs : INODE_THIRD_ITEM_BASE = 24 := rfl
  have h1 : ¬ 1032 + 4096 * j + 64 * l + i < 8 := by omega
  have h2 : ¬ 1032 + 4096 * j + 64 * l + i < 1032 := by omega
  have h3 : 1032 + 4096 * j + 64 * l + i < 164872 := by omega
  have h4 : (1032 + 4096 * j + 64 * l + i - 1032) / 64 / 64 = j := by omega
  have h5 : (1032 + 4096 * j + 64 * l + i - 1032) / 64 % 64 = l := by omega
  have h6 : (1032 + 4096 * j + 64 * l + i - 1032) % 64 = i := by omega
  -- what was just stored is read back
  have hread : ∀ (fs : FileSystem) (x i y : Nat), (setInode fs x i y).inodes x i = y := fun _ _ _ _ =>
    if_pos ⟨rfl, rfl⟩
  unfold metaCacheInode
  rw [hc, hm, hb, ht, htt, hn, hs]
  simp only [ne_eq, not_true_eq_false, if_false, if_neg h1, if_neg h2, if_pos h3, h4, h5, h6, hread]
  rfl

theorem metaCacheInode_past (hc : dm.clusCnt = dm.inodeMaxCluster) (h : INODE_THIRD_LEVEL_TOP ≤ dm.inodeMaxCluster) :
    metaCacheInode fs dm clus = .ok (fs, dm.bump, []) := by
  have hb : INODE_SECOND_LEVEL_BOTTOM = 8 := rfl
  have ht : INODE_THIRD_LEVEL_BOTTOM = 1032 := rfl
  have htt : INODE_THIRD_LEVEL_TOP = 164872 := rfl
  rw [htt] at h
  have h1 : ¬ dm.inodeMaxCluster < 8 := by omega
  have h2 : ¬ dm.inodeMaxCluster < 1032 := by omega
  have h3 : ¬ dm.inodeMaxCluster < 164872 := by omega
  unfold metaCacheInode
  rw [hc, hb, ht, htt]
  simp only [ne_eq, not_true_eq_false, if_false, if_neg h1, if_neg h2, if_neg h3]

end Equations

/-- The inodes a cache refers to are inodes of the pool. -/
def Within (fs : FileSystem) (dm : DirMeta) : Prop :=
  ∀ x, Owns fs dm.item dm.inodeMaxCluster x → x < INODE_NUM

/-- The pool has the inodes that the next position of a cache takes. -/
def Room (fs : FileSystem) (dm : DirMeta) : Prop :=
  dm.inodeMaxCluster < INODE_THIRD_LEVEL_TOP → inodeNeed dm.inodeMaxCluster ≤ freeInodes fs

section Step

variable {fs : FileSystem} {dm : DirMeta}

theorem inodeNeed_second (j i : Nat) (hj : j < 16) (hi : i < 64) :
    inodeNeed (8 + 64 * j + i) = if i = 0 then 1 else 0 := by
  have h4 : (8 + 64 * j + i - 8) % 64 = i := by omega
  unfold inodeNeed
  rw [if_neg (by omega), if_pos (by omega), h4]

theorem inodeNeed_third (j l i : Nat) (hl : l < 64) (hi : i < 64) :
    inodeNeed (1032 + 4096 * j + 64 * l + i) = if i = 0 then (if l = 0 then 2 else 1) else 0 := by
  have h5 : (1032 + 4096 * j + 64 * l + i - 1032) / 64 % 64 = l := by omega
  have h6 : (1032 + 4096 * j + 64 * l + i - 1032) % 64 = i := by omega
  unfold inodeNeed
  rw [if_neg (by omega), if_neg (by omega), h5, h6]

/-- Where the pool has room, both models do the same, and the stores stay in the pool. -/
theorem metaCacheInode_of_room (clus : Nat) (hw : Within fs dm) (hc : dm.clusCnt = dm.inodeMaxCluster) (hroom : Room fs dm) :
    ∃ fs' dm' stores, Fat.metaCacheInode fs dm clus = .ok (fs', dm') ∧
      metaCacheInode fs dm clus = .ok (fs', dm', stores) ∧ (∀ x ∈ stores, x < INODE_NUM) ∧
      ∀ y, INODE_NUM ≤ y → Bitmap.get fs'.inodeBitmap y = Bitmap.get fs.inodeBitmap y := by
  by_cases htop : INODE_THIRD_LEVEL_TOP ≤ dm.inodeMaxCluster
  · exact ⟨fs, dm.bump, [], Fat.metaCacheInode_past hc rfl htop, metaCacheInode_past hc htop, by simp, fun _ _ => rfl⟩
  have hneed := hroom (Nat.not_le.mp htop)
  rcases pos_cases (Nat.not_le.mp htop) with h8 | ⟨j, i, hj, hi, hm⟩ | ⟨j, l, i, hj, hl, hi, hm⟩
  · exact ⟨_, _, [], Fat.metaCacheInode_first hc rfl h8, metaCacheInode_first hc h8, by simp, fun _ _ => rfl⟩
  · rw [Fat.metaCacheInode_second (hc.trans hm) hm hj hi, metaCacheInode_second hc hm hj hi]
    rw [hm, inodeNeed_second j i hj hi] at hneed
    by_cases hi0 : i = 0
    · rw [if_pos hi0] at hneed
      obtain ⟨x, fs₁, ha⟩ := exists_inodeAlloc hneed
      rw [if_pos hi0, if_pos hi0, inodeAlloc_of_free ha, ha]
      refine ⟨_, _, _, rfl, rfl, ?_, fun y hy => bits_of_inodeAlloc ha hy⟩
      intro y hy
      rw [List.mem_singleton.mp hy]
      exact (inodeAlloc_eq_ok ha).2.1
    · rw [if_neg hi0, if_neg hi0]
      refine ⟨_, _, _, rfl, rfl, ?_, fun _ _ => rfl⟩
      intro y hy
      rw [List.mem_singleton.mp hy]
      exact hw _ ⟨.second j, ⟨hj, by simp only [InodeKey.start]; omega⟩, rfl⟩
  · rw [Fat.metaCacheInode_third (hc.trans hm) hm hj hl hi, metaCacheInode_third hc hm hj hl hi]
    rw [hm, inodeNeed_third j l i hl hi] at hneed
    by_cases hi0 : i = 0
    · rw [if_pos hi0] at hneed
      rw [if_pos hi0, if_pos hi0]
      by_cases hl0 : l = 0
      · rw [if_pos hl0] at hneed
        have hpos : 0 < freeInodes fs := by omega
        obtain ⟨x, fs₁, ha⟩ := exists_inodeAlloc hpos
        have hcount := freeInodes_alloc ha
        have hpos₁ : 0 < freeInodes fs₁ := by omega
        obtain ⟨y, fs₂, ha₂⟩ := exists_inodeAlloc hpos₁
        rw [if_pos hl0, if_pos hl0, inodeAlloc_of_free ha, inodeAlloc_of_free ha₂, ha]
        refine ⟨setInode (setInode fs₂ x l y) y i clus, dm.bump.setItem (24 + j) x, [x, y], ?_, rfl, ?_, fun z hz =>
          (bits_of_inodeAlloc ha₂ hz).trans (bits_of_inodeAlloc ha hz)⟩
        · simp only [Except.bind, ha₂]
        · intro z hz
          rcases List.mem_cons.mp hz with rfl | hz
          · exact (inodeAlloc_eq_ok ha).2.1
          · rw [List.mem_singleton.mp hz]
            exact (inodeAlloc_eq_ok ha₂).2.1
      · rw [if_neg hl0] at hneed
        obtain ⟨x, fs₁, ha⟩ := exists_inodeAlloc hneed
        rw [if_neg hl0, if_neg hl0, inodeAlloc_of_free ha, ha]
        refine ⟨_, _, _, rfl, rfl, ?_, fun y hy => bits_of_inodeAlloc ha hy⟩
        intro z hz
        rcases List.mem_cons.mp hz with rfl | hz
        · exact hw _ ⟨.third j, ⟨hj, by simp only [InodeKey.start]; omega⟩, rfl⟩
        · rw [List.mem_singleton.mp hz]
          exact (inodeAlloc_eq_ok ha).2.1
    · rw [if_neg hi0, if_neg hi0]
      refine ⟨_, _, _, rfl, rfl, ?_, fun _ _ => rfl⟩
      intro z hz
      rw [List.mem_singleton.mp hz]
      exact hw _ ⟨.leaf j l, ⟨⟨hj, hl⟩, by simp only [InodeKey.start]; omega⟩, rfl⟩

/-- Where it has not, a store leaves the pool. -/
theorem exists_store_past (clus : Nat) (hc : dm.clusCnt = dm.inodeMaxCluster) (hroom : ¬ Room fs dm) :
    ∃ fs' dm' stores, metaCacheInode fs dm clus = .ok (fs', dm', stores) ∧ ∃ x ∈ stores, INODE_NUM ≤ x := by
  obtain ⟨htop, hneed⟩ := Classical.not_imp.mp hroom
  rcases pos_cases htop with h8 | ⟨j, i, hj, hi, hm⟩ | ⟨j, l, i, hj, hl, hi, hm⟩
  · refine absurd ?_ hneed
    unfold inodeNeed
    rw [if_pos h8]
    exact Nat.zero_le _
  · rw [hm, inodeNeed_second j i hj hi] at hneed
    by_cases hi0 : i = 0
    · rw [if_pos hi0] at hneed
      have hfull : freeInodes fs = 0 := by omega
      rw [metaCacheInode_second hc hm hj hi, if_pos hi0]
      exact ⟨_, _, _, rfl, _, List.mem_singleton_self _, le_inodeAlloc_of_full hfull⟩
    · rw [if_neg hi0] at hneed
      exact absurd (Nat.zero_le _) hneed
  · rw [hm, inodeNeed_third j l i hl hi] at hneed
    by_cases hi0 : i = 0
    · rw [if_pos hi0] at hneed
      rw [metaCacheInode_third hc hm hj hl hi, if_pos hi0]
      by_cases hl0 : l = 0
      · rw [if_pos hl0] at hneed
        rw [if_pos hl0]
        refine ⟨_, _, _, rfl, ?_⟩
        by_cases hfull : freeInodes fs = 0
        · exact ⟨_, List.mem_cons_self .., le_inodeAlloc_of_full hfull⟩
        -- the last inode goes to the third level, and there is none left for the leaf
        · obtain ⟨x, fs₁, ha⟩ := exists_inodeAlloc (Nat.pos_of_ne_zero hfull)
          have hcount := freeInodes_alloc ha
          have hfull₁ : freeInodes fs₁ = 0 := by omega
          rw [inodeAlloc_of_free ha]
          exact ⟨_, List.mem_cons_of_mem _ (List.mem_singleton_self _), le_inodeAlloc_of_full hfull₁⟩
      · rw [if_neg hl0] at hneed
        have hfull : freeInodes fs = 0 := by omega
        rw [if_neg hl0]
        exact ⟨_, _, _, rfl, _, List.mem_cons_of_mem _ (List.mem_singleton_self _), le_inodeAlloc_of_full hfull⟩
    · rw [if_neg hi0] at hneed
      exact absurd (Nat.zero_le _) hneed

end Step

/-! ## The caches of all files -/

/-- The pool and the files that draw on it. -/
structure World where
  fs : FileSystem
  files : Nat → DirMeta

/-- What the file system does with a cache. -/
inductive Op where
  /-- `metaCacheInode` -/
  | cache (f clus : Nat)
  /-- `metaFreeInode` -/
  | free (f : Nat)
  /-- the callers that write `item[0]` and set `inodeMaxCluster` to 1 -/
  | start (f clus : Nat)
  /-- `metaFindInode`, and the callers that count `clusCnt` -/
  | seek (f pos : Nat)

/-- The world with file `f` and the pool replaced. -/
def World.put (w : World) (f : Nat) (fs : FileSystem) (dm : DirMeta) : World :=
  ⟨fs, fun g => if g = f then dm else w.files g⟩

/-- One call, with the indices it stores to `inodes[]` through. -/
def World.step (w : World) : Op → Except Panic (World × List Nat)
  | .cache f clus => (metaCacheInode w.fs (w.files f) clus).map fun r => (w.put f r.1 r.2.1, r.2.2)
  | .free f => (metaFreeInode w.fs (w.files f)).map fun r => (w.put f r.1 r.2, [])
  | .start f clus => .ok (w.put f w.fs { (w.files f).setItem 0 clus with inodeMaxCluster := 1 }, [])
  | .seek f pos => .ok (w.put f w.fs { w.files f with clusCnt := pos }, [])

/-- A step of a run: where it was taken, and what it stored through. -/
structure Visit where
  before : World
  op : Op
  stores : List Nat

inductive Run : World → List Visit → World → Prop
  | nil (w : World) : Run w [] w
  | cons {w w₁ w₂ : World} {op : Op} {stores : List Nat} {visits : List Visit} :
    w.step op = .ok (w₁, stores) → Run w₁ visits w₂ → Run w (⟨w, op, stores⟩ :: visits) w₂

/-- The stores of a step are to inodes of the pool. -/
def Visit.Inside (v : Visit) : Prop := ∀ x ∈ v.stores, x < INODE_NUM

/-- A step that caches a position finds the inodes that it takes. -/
def Visit.Roomy (v : Visit) : Prop :=
  match v.op with
  | .cache f _ => Room v.before.fs (v.before.files f)
  | _ => True

/-- Nothing is cached yet beyond a first cluster. -/
def World.Fresh (w : World) : Prop := ∀ f, (w.files f).inodeMaxCluster ≤ 1

/-- Each cache refers to inodes of the pool that are in use, and no inode belongs to two. -/
structure Sound (w : World) : Prop where
  file : ∀ f, InodeOk w.fs (w.files f).item (w.files f).inodeMaxCluster
  disjoint : ∀ f g, f ≠ g → ∀ x, Owns w.fs (w.files f).item (w.files f).inodeMaxCluster x →
    ¬ Owns w.fs (w.files g).item (w.files g).inodeMaxCluster x
  within : ∀ f, Within w.fs (w.files f)

section Runs

variable {w w' : World} {f : Nat} {fs' : FileSystem} {dm' : DirMeta}

theorem not_owns_of_le_one {fs : FileSystem} {item : Nat → Nat} {k x : Nat} (hk : k ≤ 1) : ¬ Owns fs item k x := by
  intro h
  obtain ⟨key, hl, -⟩ := h
  exact not_live_of_le_one hk hl

theorem inodeOk_of_le_one {fs : FileSystem} {item : Nat → Nat} {k : Nat} (hk : k ≤ 1) : InodeOk fs item k :=
  ⟨fun _ hl => absurd hl (not_live_of_le_one hk), fun _ _ hl => absurd hl (not_live_of_le_one hk)⟩

theorem World.Fresh.sound (h : w.Fresh) : Sound w :=
  ⟨fun f => inodeOk_of_le_one (h f), fun f _ _ _ hx => absurd hx (not_owns_of_le_one (h f)), fun f _ hx =>
    absurd hx (not_owns_of_le_one (h f))⟩

/-- A step on one file that takes only free inodes of the pool and keeps those of the others. -/
theorem Sound.put (h : Sound w) (hfile : InodeOk fs' dm'.item dm'.inodeMaxCluster)
    (hothers : ∀ x, Bitmap.get w.fs.inodeBitmap x = true →
      ¬ Owns w.fs (w.files f).item (w.files f).inodeMaxCluster x →
      Bitmap.get fs'.inodeBitmap x = true ∧ fs'.inodes x = w.fs.inodes x)
    (howns : ∀ x, Owns fs' dm'.item dm'.inodeMaxCluster x →
      Owns w.fs (w.files f).item (w.files f).inodeMaxCluster x ∨ Bitmap.get w.fs.inodeBitmap x = false)
    (hwithin : Within fs' dm') : Sound (w.put f fs' dm') := by
  have hframe : ∀ {g}, g ≠ f → InodeOk fs' (w.files g).item (w.files g).inodeMaxCluster ∧
      ∀ x, Owns fs' (w.files g).item (w.files g).inodeMaxCluster x ↔
        Owns w.fs (w.files g).item (w.files g).inodeMaxCluster x := fun {g} hg =>
    inodeOk_frame hothers (h.file g) (h.disjoint g f hg)
  have hsame : (w.put f fs' dm').files f = dm' := if_pos rfl
  have hother : ∀ {g}, g ≠ f → (w.put f fs' dm').files g = w.files g := fun hg => if_neg hg
  have hfs : (w.put f fs' dm').fs = fs' := rfl
  -- what the file has now was its own or free, so no other file has it
  have hnew : ∀ {g}, g ≠ f → ∀ x, Owns fs' dm'.item dm'.inodeMaxCluster x →
      ¬ Owns w.fs (w.files g).item (w.files g).inodeMaxCluster x := by
    intro g hg x hx hxg
    rcases howns x hx with hold | hclear
    · exact h.disjoint f g (Ne.symm hg) x hold hxg
    · obtain ⟨key, hl, rfl⟩ := hxg
      rw [(h.file g).used key hl] at hclear
      exact Bool.noConfusion hclear
  refine ⟨fun g => ?_, fun g k hgk x hx hx' => ?_, fun g => ?_⟩
  · by_cases hg : g = f
    · rw [hg, hsame]
      exact hfile
    · rw [hother hg]
      exact (hframe hg).1
  · rw [hfs] at hx hx'
    by_cases hg : g = f
    · have hk : k ≠ f := fun hk => hgk (hg.trans hk.symm)
      rw [hg, hsame] at hx
      rw [hother hk, (hframe hk).2 x] at hx'
      exact hnew hk x hx hx'
    · rw [hother hg, (hframe hg).2 x] at hx
      by_cases hk : k = f
      · rw [hk, hsame] at hx'
        exact hnew hg x hx' hx
      · rw [hother hk, (hframe hk).2 x] at hx'
        exact h.disjoint g k hgk x hx hx'
  · by_cases hg : g = f
    · rw [hg, hsame]
      exact hwithin
    · intro x hx
      rw [hother hg, hfs, (hframe hg).2 x] at hx
      exact h.within g x hx

/-- **Caching** a position for which the pool has room. -/
theorem Sound.cache (h : Sound w) (clus : Nat) (hc : (w.files f).clusCnt = (w.files f).inodeMaxCluster)
    (hroom : Room w.fs (w.files f)) :
    ∃ fs' dm' stores, metaCacheInode w.fs (w.files f) clus = .ok (fs', dm', stores) ∧ (∀ x ∈ stores, x < INODE_NUM) ∧
      Sound (w.put f fs' dm') := by
  obtain ⟨fs', dm', stores, hfat, hstep, hin, hbits⟩ := metaCacheInode_of_room clus (h.within f) hc hroom
  obtain ⟨hpool, -⟩ := poolStep_metaCacheInode (h.file f) hfat
  refine ⟨fs', dm', stores, hstep, hin, h.put hpool.inodeOk hpool.others hpool.owns fun x hx => ?_⟩
  rcases hpool.owns x hx with hold | hclear
  · exact h.within f x hold
  · by_contra hge
    obtain ⟨key, hl, rfl⟩ := hx
    have hset := hpool.inodeOk.used key hl
    rw [hbits _ (Nat.not_lt.mp hge), hclear] at hset
    exact Bool.noConfusion hset

/-- Files with no pool inodes after the step, which clears only bits of the file's own. -/
theorem Sound.drop (h : Sound w) {bm : Bitmap.Words}
    (hbm : ∀ x, ¬ Owns w.fs (w.files f).item (w.files f).inodeMaxCluster x →
      Bitmap.get bm x = Bitmap.get w.fs.inodeBitmap x) (hk : dm'.inodeMaxCluster ≤ 1) :
    Sound (w.put f { w.fs with inodeBitmap := bm } dm') := by
  refine h.put (inodeOk_of_le_one hk) (fun x hx hown => ⟨?_, rfl⟩) (fun x hx => absurd hx (not_owns_of_le_one hk))
    fun x hx => absurd hx (not_owns_of_le_one hk)
  rw [hbm x hown]
  exact hx

/-- **One step** stays in the pool exactly if it has room, and then keeps the invariant. -/
theorem Sound.step (h : Sound w) {op : Op} {stores : List Nat} (hstep : w.step op = .ok (w', stores)) :
    ((∀ x ∈ stores, x < INODE_NUM) ↔ Visit.Roomy ⟨w, op, stores⟩) ∧ (Visit.Roomy ⟨w, op, stores⟩ → Sound w') := by
  cases op with
  | cache f clus =>
    obtain ⟨⟨fs', dm', stores'⟩, hcache, heq⟩ := Loop.map_ok hstep
    obtain ⟨rfl, rfl⟩ := Prod.mk.inj heq
    have hc : (w.files f).clusCnt = (w.files f).inodeMaxCluster := by
      by_contra hne
      unfold metaCacheInode at hcache
      simp only [if_pos (show (w.files f).clusCnt ≠ (w.files f).inodeMaxCluster from hne)] at hcache
      cases hcache
    by_cases hroom : Room w.fs (w.files f)
    · obtain ⟨_, _, _, hcache', hin, hsound⟩ := h.cache clus hc hroom
      obtain ⟨rfl, hrest⟩ := Prod.mk.inj (Except.ok.inj (hcache.symm.trans hcache'))
      obtain ⟨rfl, rfl⟩ := Prod.mk.inj hrest
      exact ⟨⟨fun _ => hroom, fun _ => hin⟩, fun _ => hsound⟩
    · obtain ⟨_, _, _, hcache', x, hx, hge⟩ := exists_store_past clus hc hroom
      obtain ⟨-, hrest⟩ := Prod.mk.inj (Except.ok.inj (hcache.symm.trans hcache'))
      obtain ⟨-, rfl⟩ := Prod.mk.inj hrest
      refine ⟨⟨fun hin => absurd (hin x hx) (Nat.not_lt.mpr hge), fun hr => absurd hr hroom⟩, fun hr => absurd hr hroom⟩
  | free f =>
    obtain ⟨⟨fs', dm'⟩, hfree, heq⟩ := Loop.map_ok hstep
    obtain ⟨rfl, rfl⟩ := Prod.mk.inj heq
    obtain ⟨bm, hfree', hbm, -⟩ := metaFreeInode_ok (w.files f) (h.file f)
    obtain ⟨rfl, rfl⟩ := Prod.mk.inj (Except.ok.inj (hfree.symm.trans hfree'))
    exact ⟨⟨fun _ => trivial, fun _ x hx => by cases hx⟩, fun _ => h.drop hbm (Nat.zero_le 1)⟩
  | start f clus =>
    cases hstep
    exact ⟨⟨fun _ => trivial, fun _ x hx => by cases hx⟩, fun _ => h.drop (fun _ _ => rfl) (Nat.le_refl 1)⟩
  | seek f pos =>
    cases hstep
    exact ⟨⟨fun _ => trivial, fun _ x hx => by cases hx⟩, fun _ =>
      h.put (h.file f) (fun _ hx _ => ⟨hx, rfl⟩) (fun _ hx => .inl hx) (h.within f)⟩

/-- **A run** stays in the pool exactly if each of its steps has room. -/
theorem Sound.run {visits : List Visit} (h : Sound w) (hrun : Run w visits w') :
    (∀ v ∈ visits, v.Inside) ↔ ∀ v ∈ visits, v.Roomy := by
  induction hrun with
  | nil => exact ⟨fun _ => List.forall_mem_nil _, fun _ => List.forall_mem_nil _⟩
  | cons hstep _ ih =>
    obtain ⟨hiff, hsound⟩ := h.step hstep
    constructor
    · intro hin v hv
      obtain ⟨hhead, htail⟩ := List.forall_mem_cons.mp hin
      have hroom := hiff.mp hhead
      rcases List.mem_cons.mp hv with rfl | hv
      · exact hroom
      · exact (ih (hsound hroom)).mp htail v hv
    · intro hroom v hv
      obtain ⟨hhead, htail⟩ := List.forall_mem_cons.mp hroom
      rcases List.mem_cons.mp hv with rfl | hv
      · exact hiff.mpr hhead
      · exact (ih (hsound hhead)).mpr htail v hv

end Runs

/-- **The inode pool.** `inodeAlloc` does what it is there for exactly if the pool is not full, and in the
runs of the calls on caches every store to `inodes[]` is to an inode of the pool exactly if each position
cached finds the inodes it takes. -/
theorem inodePool_iff (bm : Bitmap.Words) {w w' : World} {visits : List Visit} (hfresh : w.Fresh) (hrun : Run w visits w') :
    (AllocMeets bm ↔ ∃ x < INODE_NUM, Bitmap.get bm x = false) ∧
      ((∀ v ∈ visits, v.Inside) ↔ ∀ v ∈ visits, v.Roomy) :=
  ⟨allocMeets_iff bm, hfresh.sound.run hrun⟩

section Instances

variable {w : World}

/-- The call returns if its assertion holds. -/
theorem exists_metaCacheInode (fs : FileSystem) {dm : DirMeta} (clus : Nat) (hc : dm.clusCnt = dm.inodeMaxCluster) :
    ∃ r, metaCacheInode fs dm clus = .ok r ∧ r.2.1.inodeMaxCluster = dm.inodeMaxCluster + 1 := by
  unfold metaCacheInode
  simp only [ne_eq, hc, not_true_eq_false, if_false]
  split_ifs <;> exact ⟨_, rfl, rfl⟩

/-- There are runs that cache any number of positions of a file. -/
theorem exists_run (w : World) (f n : Nat) :
    ∃ visits w', Run w visits w' ∧ (w'.files f).inodeMaxCluster = (w.files f).inodeMaxCluster + n := by
  induction n generalizing w with
  | zero => exact ⟨[], w, .nil w, rfl⟩
  | succ n ih =>
    -- one position: `clusCnt` is put behind the cached ones, and the cluster cached
    have hseek : w.step (.seek f (w.files f).inodeMaxCluster) =
        .ok (w.put f w.fs { w.files f with clusCnt := (w.files f).inodeMaxCluster }, []) := rfl
    have hfile : (w.put f w.fs { w.files f with clusCnt := (w.files f).inodeMaxCluster }).files f =
        { w.files f with clusCnt := (w.files f).inodeMaxCluster } := if_pos rfl
    obtain ⟨⟨fs', dm', stores⟩, hcache, hk⟩ := exists_metaCacheInode w.fs f
      (show ({ w.files f with clusCnt := (w.files f).inodeMaxCluster } : DirMeta).clusCnt = (w.files f).inodeMaxCluster
        from rfl)
    have hstep : (w.put f w.fs { w.files f with clusCnt := (w.files f).inodeMaxCluster }).step (.cache f f) =
        .ok ((w.put f w.fs { w.files f with clusCnt := (w.files f).inodeMaxCluster }).put f fs' dm', stores) := by
      unfold World.step
      simp only
      rw [hfile]
      show (metaCacheInode w.fs _ f).map _ = _
      rw [hcache]
      rfl
    obtain ⟨visits, w', hrun, hlen⟩ :=
      ih ((w.put f w.fs { w.files f with clusCnt := (w.files f).inodeMaxCluster }).put f fs' dm')
    refine ⟨_, w', .cons hseek (.cons hstep hrun), hlen.trans ?_⟩
    have hput : ((w.put f w.fs { w.files f with clusCnt := (w.files f).inodeMaxCluster }).put f fs' dm').files f =
        dm' := if_pos rfl
    rw [hput]
    have hk' : dm'.inodeMaxCluster = (w.files f).inodeMaxCluster + 1 := hk
    omega

/-- A file of which nothing is cached. -/
def blank : DirMeta := ⟨0, 0, 0, 0, 0, 0, fun _ => 0, 0, .regular⟩

/-- An empty pool and no file with a cache. -/
def noFiles : World := ⟨smallFs 4, fun _ => blank⟩

/-- A file of nine clusters takes an inode of the pool. -/
theorem inodePool_nine : ∃ visits w', Run noFiles visits w' ∧ (w'.files 0).inodeMaxCluster = 9 ∧
    (AllocMeets noFiles.fs.inodeBitmap ↔ ∃ x < INODE_NUM, Bitmap.get noFiles.fs.inodeBitmap x = false) ∧
    ((∀ v ∈ visits, v.Inside) ↔ ∀ v ∈ visits, v.Roomy) := by
  obtain ⟨visits, w', hrun, hk⟩ := exists_run noFiles 0 9
  exact ⟨visits, w', hrun, hk, inodePool_iff _ (fun _ => Nat.zero_le 1) hrun⟩

/-- All inodes are in use, and the memory behind the bitmap is zero. -/
def fullPool : Bitmap.Words := fun i => if i < INODE_NUM / 64 then BitVec.allOnes 64 else 0

/-- The scan of a full pool returns the number 1024, and a file whose ninth cluster is cached stores
through it. -/
theorem fullPool_overrun : ¬ AllocMeets fullPool ∧ (scan fullPool).ret = 1024 ∧
    ((metaCacheInode { smallFs 4 with inodeBitmap := fullPool } { blank with clusCnt := 8, inodeMaxCluster := 8 } 2).toOption.map
      fun r => r.2.2) = some [1024] := by
  refine ⟨fun h => ?_, by decide +kernel, by decide +kernel⟩
  exact absurd (h.reads 16 (by decide +kernel)) (by decide)

end Instances

end Exaros.Fat.Overrun
