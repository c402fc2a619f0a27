import Exaros.Fat.Image

/-!
# Places in a file

What keeps the times of files looks for an entry of a directory with `relocClus` and `rwClus`, and does not look at
what `relocClus` returns: past the end of the directory the offset is -1, which `rwClus` takes for 2³² - 1. `place` is
where a caller comes to stand, `placeByte` are the bytes that `rwClus` moves from there, and `reloc_clus` is the copy
of `relocClus` that refuses positions the cache has no room for.
-/

namespace Exaros.Fat

/-- The cluster and the offset a caller of `relocClus` goes on with, in a file with chain `L`. -/
def place (sb : SuperBlock) (L : List Nat) (off : Nat) : Nat × Nat :=
  if off / sb.bytsPerClus < L.length then (L.getD (off / sb.bytsPerClus) 0, off % sb.bytsPerClus) else (L.headD 0, 2 ^ 32 - 1)

/-- An `int` kept in a `u32`. -/
def toU32 (r : Int) : Nat := (r % 2 ^ 32).toNat

/-- Byte `j` of what `rwClus` moves from offset `off` of sector `sec` on; sectors are numbered in 32 bits. -/
def rwByte (sec off j : Nat) : Nat := u32 (sec + (off % 512 + j) / 512) * 512 + (off % 512 + j) % 512

/-- Byte `j` from a place on. -/
def placeByte (sb : SuperBlock) (p : Nat × Nat) (j : Nat) : Nat := rwByte (u32 (firstSecOfClus sb p.1 + p.2 / 512)) p.2 j

/-! ## The copy of `relocClus` -/

/-- The end of a turn of `reloc_clus`: as `metaCacheInode`, but "panic" past the third level. -/
def cache_clus (fs : FileSystem) (dm : DirMeta) (clus : Nat) : Except Panic (FileSystem × DirMeta) :=
  if dm.clusCnt = dm.inodeMaxCluster ∧ INODE_THIRD_LEVEL_TOP ≤ dm.clusCnt then .error .relocClus
  else metaCacheInode fs dm clus

/-- The loop of `reloc_clus`, for `n` turns. -/
def reloc_loop (alloc : Bool) : Nat → FileSystem → DirMeta → Except Panic (Option Unit × FileSystem × DirMeta)
  | 0, fs, dm => .ok (some (), fs, dm)
  | n + 1, fs, dm => do
    match ← nextClus alloc fs dm.curClus with
    | none => return (none, fs, { dm with curClus := dm.firstClus, clusCnt := 0 })
    | some (clus, fs) =>
      let (fs, dm) ← cache_clus fs { dm with curClus := clus, clusCnt := dm.clusCnt + 1 } clus
      reloc_loop alloc n fs dm

/-- `reloc_clus` -/
def reloc_clus (fs : FileSystem) (dm : DirMeta) (off : Nat) (alloc : Bool) :
    Except Panic (Int × FileSystem × DirMeta) :=
  if dm.firstClus = 0 ∨ dm.inodeMaxCluster = 0 ∨ dm.firstClus ≠ dm.item 0 then .error .relocClus
  else
    let clus_num := off / fs.superBlock.bytsPerClus
    let ret := off % fs.superBlock.bytsPerClus
    if clus_num < dm.inodeMaxCluster then do
      let dm ← metaFindInode fs dm clus_num
      return (ret, fs, dm)
    else do
      let dm ← metaFindInode fs dm (dm.inodeMaxCluster - 1)
      let (r, fs, dm) ← reloc_loop alloc (clus_num - dm.clusCnt) fs dm
      return (if r.isSome then ret else -1, fs, dm)

section Copy

variable {fs fs' : FileSystem} {dm dm' : DirMeta} {alloc : Bool} {r : Int} {off : Nat}

theorem cache_clus_ok {clus : Nat} {p : FileSystem × DirMeta} (hr : cache_clus fs dm clus = .ok p) :
    metaCacheInode fs dm clus = .ok p := by
  unfold cache_clus at hr
  split at hr
  · cases hr
  · exact hr

theorem reloc_loop_ok (n : Nat) {p : Option Unit × FileSystem × DirMeta} (hr : reloc_loop alloc n fs dm = .ok p) :
    relocLoop alloc n fs dm = .ok p := by
  induction n generalizing fs dm with
  | zero => exact hr
  | succ n ih =>
    rw [reloc_loop] at hr
    obtain ⟨next, hnext, hr⟩ := except_bind_ok hr
    rw [relocLoop, hnext]
    cases next with
    | none => exact hr
    | some q =>
      obtain ⟨q', hcache, hr⟩ := except_bind_ok hr
      show Except.bind (metaCacheInode q.2 _ q.1) _ = _
      rw [cache_clus_ok hcache]
      exact ih hr

/-- Where the copy returns, it has done what `relocClus` does. -/
theorem reloc_clus_ok {p : Int × FileSystem × DirMeta} (hr : reloc_clus fs dm off alloc = .ok p) :
    relocClus fs dm off alloc = .ok p := by
  unfold reloc_clus at hr
  unfold relocClus
  split at hr
  · cases hr
  · rename_i hassert
    rw [if_neg hassert]
    simp only at hr ⊢
    split at hr
    · rename_i hlt
      rw [if_pos hlt]
      exact hr
    · rename_i hge
      rw [if_neg hge]
      obtain ⟨dm₁, hfind, hr⟩ := except_bind_ok hr
      obtain ⟨q, hloop, hr⟩ := except_bind_ok hr
      rw [hfind]
      show Except.bind (relocLoop alloc _ fs dm₁) _ = _
      rw [reloc_loop_ok _ hloop]
      exact hr

end Copy

/-! ## What `relocClus` without `alloc` looks at and changes -/

section Reloc

variable {fs fs' : FileSystem} {dm dm' : DirMeta} {L : List Nat} {d : Disk} {c off n : Nat} {r : Int}

/-- Only the pool of inodes changes. -/
def PoolOnly (fs fs' : FileSystem) : Prop := ∃ inodes inodeBitmap, fs' = { fs with inodes, inodeBitmap }

theorem PoolOnly.refl (fs : FileSystem) : PoolOnly fs fs := ⟨fs.inodes, fs.inodeBitmap, rfl⟩

theorem PoolOnly.trans {fs'' : FileSystem} (h : PoolOnly fs fs') (h' : PoolOnly fs' fs'') : PoolOnly fs fs'' := by
  obtain ⟨_, _, rfl⟩ := h
  obtain ⟨i, b, rfl⟩ := h'
  exact ⟨i, b, rfl⟩

theorem PoolOnly.disk (h : PoolOnly fs fs') : fs'.disk = fs.disk := by
  obtain ⟨_, _, rfl⟩ := h
  rfl

theorem inodeAlloc_poolOnly {x : Nat} (h : inodeAlloc fs = .ok (x, fs')) : PoolOnly fs fs' := by
  obtain ⟨-, -, rfl⟩ := inodeAlloc_eq_ok h
  exact ⟨_, _, rfl⟩

/-- Caching a cluster takes from the pool only. -/
theorem metaCacheInode_poolOnly {clus : Nat} (h : metaCacheInode fs dm clus = .ok (fs', dm')) :
    PoolOnly fs fs' ∧ ∃ item k, dm' = { dm with item, inodeMaxCluster := k } := by
  have hset : ∀ fs x i, PoolOnly fs (setInode fs x i clus) := fun fs x i => ⟨_, _, rfl⟩
  have hset₁ : ∀ fs x i y, PoolOnly fs (setInode fs x i y) := fun fs x i y => ⟨_, _, rfl⟩
  unfold metaCacheInode at h
  by_cases hpos : dm.clusCnt = dm.inodeMaxCluster
  · simp only [ne_eq, hpos, not_true, if_false] at h
    split at h
    · cases h
      exact ⟨.refl fs, _, _, rfl⟩
    · split at h
      · split at h
        · obtain ⟨p, hp, h⟩ := except_bind_ok h
          cases h
          exact ⟨(inodeAlloc_poolOnly hp).trans (hset _ _ _), _, _, rfl⟩
        · cases h
          exact ⟨hset _ _ _, _, _, rfl⟩
      · split at h
        · split at h
          · split at h
            · obtain ⟨p, hp, h⟩ := except_bind_ok h
              obtain ⟨q, hq, h⟩ := except_bind_ok h
              cases h
              exact ⟨(((inodeAlloc_poolOnly hp).trans (inodeAlloc_poolOnly hq)).trans (hset₁ _ _ _ _)).trans (hset _ _ _), _, _, rfl⟩
            · obtain ⟨p, hp, h⟩ := except_bind_ok h
              cases h
              exact ⟨((inodeAlloc_poolOnly hp).trans (hset₁ _ _ _ _)).trans (hset _ _ _), _, _, rfl⟩
          · cases h
            exact ⟨hset _ _ _, _, _, rfl⟩
        · cases h
          exact ⟨.refl fs, _, _, rfl⟩
  · simp only [ne_eq, hpos, not_false_eq_true, if_true] at h
    cases h

/-- From a cluster of a chain on, the FAT leads along the chain. -/
theorem nextClus_chain (hok : fs.superBlock.Ok) (h : IsChain fs L) (hc : c ∈ L) :
    nextClus false fs c = .ok none ∨ ∃ c' ∈ L, nextClus false fs c = .ok (some (c', fs)) := by
  unfold nextClus
  rw [readFat_eq hok (h.inRange c hc).2]
  rcases h.entry hc with ⟨c', hc', he⟩ | hlast
  · refine .inr ⟨c', hc', ?_⟩
    rw [he]
    simp only [isEoc_inRange hok (h.inRange c' hc')]
    rfl
  · left
    simp only [isEoc_last hlast]
    rfl

theorem relocLoop_poolOnly (n : Nat) {r : Option Unit} (hok : fs.superBlock.Ok) (h : IsChain fs L) (hcur : dm.curClus ∈ L)
    (hr : relocLoop false n fs dm = .ok (r, fs', dm')) :
    PoolOnly fs fs' ∧ ∃ cur cnt item k, dm' = { dm with curClus := cur, clusCnt := cnt, item, inodeMaxCluster := k } := by
  induction n generalizing fs dm with
  | zero =>
    cases hr
    exact ⟨.refl _, _, _, _, _, rfl⟩
  | succ n ih =>
    rw [relocLoop] at hr
    obtain ⟨next, hstep, hr⟩ := except_bind_ok hr
    rcases nextClus_chain hok h hcur with hnext | ⟨c', hc', hnext⟩
    · obtain rfl := Except.ok.inj (hnext.symm.trans hstep)
      cases hr
      exact ⟨.refl _, _, _, _, _, rfl⟩
    · obtain rfl := Except.ok.inj (hnext.symm.trans hstep)
      obtain ⟨⟨fs₁, dm₁⟩, hcache, hr⟩ := except_bind_ok hr
      obtain ⟨⟨inodes, inodeBitmap, rfl⟩, item, k, rfl⟩ := metaCacheInode_poolOnly hcache
      have hrest : relocLoop false n { fs with inodes, inodeBitmap }
          { dm with curClus := c', clusCnt := dm.clusCnt + 1, item, inodeMaxCluster := k } = .ok (r, fs', dm') := hr
      have hok₁ : ({ fs with inodes, inodeBitmap } : FileSystem).superBlock.Ok := hok
      have h₁ : IsChain { fs with inodes, inodeBitmap } L := h.congr rfl fun _ _ => rfl
      obtain ⟨hpool, cur, cnt, item', k', hdm⟩ := ih hok₁ h₁ (by exact hc') hrest
      exact ⟨PoolOnly.trans ⟨inodes, inodeBitmap, rfl⟩ hpool, cur, cnt, item', k', hdm⟩

/-- `relocClus` changes the pool, and where the file stands and what of it is cached. -/
theorem relocClus_poolOnly (hok : fs.superBlock.Ok) (h : FileOk fs dm L) (hr : relocClus fs dm off false = .ok (r, fs', dm')) :
    PoolOnly fs fs' ∧ ∃ cur cnt item k, dm' = { dm with curClus := cur, clusCnt := cnt, item, inodeMaxCluster := k } := by
  have hne := ne_nil_of_relocClus h hr
  unfold relocClus at hr
  rw [if_neg (h.asserts hne)] at hr
  simp only at hr
  split at hr
  · obtain ⟨dm₁, hfind, hr⟩ := except_bind_ok hr
    cases hr
    unfold metaFindInode at hfind
    split at hfind
    · cases hfind
      exact ⟨.refl fs, _, _, _, _, rfl⟩
    · cases hfind
  · obtain ⟨dm₁, hfind, hr⟩ := except_bind_ok hr
    obtain ⟨⟨r', fs₂, dm₂⟩, hloop, hr⟩ := except_bind_ok hr
    cases hr
    obtain ⟨hat, cur, cnt, rfl⟩ := atEnd_metaFindInode h hne hfind
    obtain ⟨hpool, cur', cnt', item, k, hdm⟩ := relocLoop_poolOnly _ hok h.chain (List.mem_of_getElem? hat.cur) hloop
    exact ⟨hpool, cur', cnt', item, k, hdm⟩

theorem inodeAlloc_disk (fs : FileSystem) (d : Disk) :
    inodeAlloc { fs with disk := d } = (inodeAlloc fs).map fun p => (p.1, { p.2 with disk := d }) := by
  unfold inodeAlloc
  cases Bitmap.findClear fs.inodeBitmap (INODE_NUM / 64) 0 with
  | none => rfl
  | some x => rfl

/-- The cache does not look at the blocks. -/
theorem metaCacheInode_disk (fs : FileSystem) (dm : DirMeta) (clus : Nat) (d : Disk) :
    metaCacheInode { fs with disk := d } dm clus = (metaCacheInode fs dm clus).map fun p => ({ p.1 with disk := d }, p.2) := by
  unfold metaCacheInode
  by_cases hpos : dm.clusCnt = dm.inodeMaxCluster
  · simp only [ne_eq, hpos, not_true, if_false, inodeAlloc_disk]
    split
    · rfl
    · split
      · split
        · cases inodeAlloc fs with
          | error e => rfl
          | ok p => rfl
        · rfl
      · split
        · split
          · split
            · cases inodeAlloc fs with
              | error e => rfl
              | ok p =>
                simp only [Except.map, bind, Except.bind, inodeAlloc_disk]
                cases inodeAlloc p.2 with
                | error e => rfl
                | ok q => rfl
            · cases inodeAlloc fs with
              | error e => rfl
              | ok p => rfl
          · rfl
        · rfl
  · simp only [ne_eq, hpos, not_false_eq_true, if_true]
    rfl

/-- The loop reads nothing of the disk but the links of the chain. -/
theorem relocLoop_disk (n : Nat) (hok : fs.superBlock.Ok) (h : IsChain fs L) (hcur : dm.curClus ∈ L)
    (hfat : ∀ c ∈ L, fatEntry { fs with disk := d } c = fatEntry fs c) :
    relocLoop false n { fs with disk := d } dm =
      (relocLoop false n fs dm).map fun p => (p.1, { p.2.1 with disk := d }, p.2.2) := by
  induction n generalizing fs dm with
  | zero => rfl
  | succ n ih =>
    have hin := h.inRange _ hcur
    have hentry : readFat { fs with disk := d } dm.curClus = fatEntry { fs with disk := d } dm.curClus := readFat_eq hok hin.2
    have hread : readFat { fs with disk := d } dm.curClus = readFat fs dm.curClus := by
      rw [hentry, hfat _ hcur, readFat_eq hok hin.2]
    have hnext' : nextClus false { fs with disk := d } dm.curClus =
        (nextClus false fs dm.curClus).map fun q => q.map fun p => (p.1, { fs with disk := d }) := by
      unfold nextClus
      rw [hread]
      by_cases heoc : isEoc (readFat fs dm.curClus) = true
      · simp only [heoc, if_true]
        rfl
      · simp only [heoc]
        rfl
    rw [relocLoop, relocLoop, hnext']
    rcases nextClus_chain hok h hcur with hnext | ⟨c', hc', hnext⟩
    · rw [hnext]
      rfl
    · rw [hnext]
      show Except.bind (metaCacheInode { fs with disk := d } _ c') _ = Except.map _ (Except.bind (metaCacheInode fs _ c') _)
      rw [metaCacheInode_disk]
      cases hcache : metaCacheInode fs { dm with curClus := c', clusCnt := dm.clusCnt + 1 } c' with
      | error e => rfl
      | ok p =>
        obtain ⟨fs₁, dm₁⟩ := p
        obtain ⟨⟨inodes, inodeBitmap, rfl⟩, item, k, rfl⟩ := metaCacheInode_poolOnly hcache
        have hok₁ : ({ fs with inodes, inodeBitmap } : FileSystem).superBlock.Ok := hok
        have h₁ : IsChain { fs with inodes, inodeBitmap } L := h.congr rfl fun _ _ => rfl
        exact ih hok₁ h₁ (by exact hc') hfat

/-- **`relocClus` on other blocks** does the same, where the chain has the same entries. -/
theorem relocClus_disk (hok : fs.superBlock.Ok) (h : FileOk fs dm L)
    (hfat : ∀ c ∈ L, fatEntry { fs with disk := d } c = fatEntry fs c) (off : Nat) :
    relocClus { fs with disk := d } dm off false =
      (relocClus fs dm off false).map fun p => (p.1, { p.2.1 with disk := d }, p.2.2) := by
  unfold relocClus
  split
  · rfl
  · rename_i hassert
    have hne : L ≠ [] := by
      rintro rfl
      exact hassert (.inl h.first)
    simp only
    split
    · show Except.bind (metaFindInode fs dm _) _ = Except.map _ (Except.bind (metaFindInode fs dm _) _)
      cases metaFindInode fs dm (off / fs.superBlock.bytsPerClus) with
      | error e => rfl
      | ok dm₁ => rfl
    · show Except.bind (metaFindInode fs dm _) _ = Except.map _ (Except.bind (metaFindInode fs dm _) _)
      cases hfind : metaFindInode fs dm (dm.inodeMaxCluster - 1) with
      | error e => rfl
      | ok dm₁ =>
        have hcur := (atEnd_metaFindInode h hne hfind).1.cur
        show Except.bind (relocLoop false _ { fs with disk := d } dm₁) _ = Except.map _ (Except.bind (relocLoop false _ fs dm₁) _)
        rw [relocLoop_disk _ hok h.chain (List.mem_of_getElem? hcur) hfat]
        cases relocLoop false (off / fs.superBlock.bytsPerClus - dm₁.clusCnt) fs dm₁ with
        | error e => rfl
        | ok p => rfl

/-! ## The place -/

/-- **The place** that `relocClus` leads to. -/
theorem relocClus_place (hok : fs.superBlock.Ok) (hb : BitmapOk fs) (h : FileOk fs dm L) (hoff : off < 2 ^ 32)
    (hr : relocClus fs dm off false = .ok (r, fs', dm')) : (dm'.curClus, toU32 r) = place fs.superBlock L off := by
  have hne := ne_nil_of_relocClus h hr
  have hfound := relocClus_found hok hb h hne hr
  unfold place
  by_cases hin : off / fs.superBlock.bytsPerClus < L.length
  · obtain ⟨rfl, hcur⟩ := hfound.inside hin
    have hsmall : off % fs.superBlock.bytsPerClus < 2 ^ 32 := Nat.lt_of_le_of_lt (Nat.mod_le _ _) hoff
    rw [if_pos hin, List.getD_eq_getElem?_getD, hcur]
    refine Prod.ext rfl ?_
    show (((off % fs.superBlock.bytsPerClus : Nat) : Int) % 2 ^ 32).toNat = _
    omega
  · rw [if_neg hin, relocClus_past hok hb h hr (Nat.le_of_not_lt hin), hfound.past (Nat.le_of_not_lt hin)]
    rfl

/-! ## Coming to a place once more -/

/-- What is cached leads to position `num`, or to the end of the chain before it. -/
def Held (dm : DirMeta) (L : List Nat) (num : Nat) : Prop :=
  min (num + 1) L.length ≤ dm.inodeMaxCluster ∧ min (num + 1) L.length ≤ INODE_THIRD_LEVEL_TOP

/-- It takes no inode then. -/
theorem Held.relocClus (hheld : Held dm L (off / fs.superBlock.bytsPerClus)) (hok : fs.superBlock.Ok) (hb : BitmapOk fs)
    (h : FileOk fs dm L) (hne : L ≠ []) : ∃ p, relocClus fs dm off false = .ok p := by
  refine exists_relocClus_found hok hb h hne off hheld.2 ?_
  unfold inodesBetween
  rw [Finset.Ico_eq_empty (Nat.not_lt_of_le hheld.1), Finset.sum_empty]
  exact Nat.zero_le _

/-- How many positions the loop caches. -/
theorem reloc_loop_held (n : Nat) {r : Option Unit} (hok : fs.superBlock.Ok) (hb : BitmapOk fs) (h : FileOk fs dm L) (hat : AtEnd dm L)
    (htop : dm.inodeMaxCluster ≤ INODE_THIRD_LEVEL_TOP) (hr : reloc_loop false n fs dm = .ok (r, fs', dm')) :
    min (dm.inodeMaxCluster + n) L.length ≤ dm'.inodeMaxCluster ∧ dm'.inodeMaxCluster ≤ INODE_THIRD_LEVEL_TOP := by
  have hle := h.le_length hat.ne_nil
  induction n generalizing fs dm with
  | zero =>
    cases hr
    exact ⟨Nat.min_le_left _ _, htop⟩
  | succ n ih =>
    rw [reloc_loop] at hr
    obtain ⟨next, hnext, hr⟩ := except_bind_ok hr
    by_cases hlt : dm.inodeMaxCluster < L.length
    · obtain ⟨c, hc, hmid⟩ := nextClus_mid hok h hat false hlt
      obtain rfl := Except.ok.inj (hmid.symm.trans hnext)
      obtain ⟨⟨fs₁, dm₁⟩, hcache, hr⟩ := except_bind_ok hr
      obtain ⟨he, hat₁, hk₁⟩ := ext_turn hb h hat hc (cache_clus_ok hcache)
      have hroom : dm.inodeMaxCluster < INODE_THIRD_LEVEL_TOP := by
        by_contra hno
        have hcnt := hat.cnt
        unfold cache_clus at hcache
        rw [if_pos ⟨hcnt, by show _ ≤ dm.clusCnt + 1; omega⟩] at hcache
        cases hcache
      obtain ⟨hreach, htop'⟩ := ih (by rw [he.loc.superBlock]; exact hok) he.loc.bitmapOk he.loc.fileOk hat₁ (by omega) hr
        (he.loc.fileOk.le_length hat.ne_nil)
      exact ⟨by omega, htop'⟩
    · obtain rfl := Except.ok.inj ((nextClus_stop hok h hat (by omega)).symm.trans hnext)
      cases hr
      exact ⟨by show _ ≤ dm.inodeMaxCluster; omega, htop⟩

/-- **After `reloc_clus`** the cache leads to the position. -/
theorem reloc_clus_held (hok : fs.superBlock.Ok) (hb : BitmapOk fs) (h : FileOk fs dm L)
    (hr : reloc_clus fs dm off false = .ok (r, fs', dm')) : Held dm' L (off / fs.superBlock.bytsPerClus) := by
  have hne := ne_nil_of_relocClus h (reloc_clus_ok hr)
  unfold reloc_clus at hr
  rw [if_neg (h.asserts hne)] at hr
  simp only at hr
  split at hr
  · rename_i hlt
    obtain ⟨dm₁, hfind, hr⟩ := except_bind_ok hr
    cases hr
    unfold metaFindInode at hfind
    split at hfind
    · rename_i hboth
      cases hfind
      have htop := hboth.2
      exact ⟨by show _ ≤ dm.inodeMaxCluster; omega, by omega⟩
    · cases hfind
  · rename_i hge
    obtain ⟨dm₁, hfind, hr⟩ := except_bind_ok hr
    obtain ⟨⟨r', fs₂, dm₂⟩, hloop, hr⟩ := except_bind_ok hr
    cases hr
    have htop : dm.inodeMaxCluster - 1 < INODE_THIRD_LEVEL_TOP := by
      by_contra hno
      unfold metaFindInode at hfind
      rw [if_neg fun hboth => hno hboth.2] at hfind
      cases hfind
    obtain ⟨hat, cur, cnt, rfl⟩ := atEnd_metaFindInode h hne hfind
    have hcnt := hat.cnt
    simp only at hcnt hloop
    obtain ⟨hreach, htop'⟩ := reloc_loop_held _ hok hb (h.setCur cur cnt) hat (by show dm.inodeMaxCluster ≤ _; omega) hloop
    have hlast : dm.inodeMaxCluster + (off / fs.superBlock.bytsPerClus - cnt) = off / fs.superBlock.bytsPerClus + 1 := by omega
    simp only [hlast] at hreach
    exact ⟨hreach, Nat.le_trans hreach htop'⟩

theorem Held.mono {num : Nat} (h : Held dm L num) (hle : dm.inodeMaxCluster ≤ dm'.inodeMaxCluster) : Held dm' L num :=
  ⟨Nat.le_trans h.1 hle, h.2⟩

end Reloc

/-! ## What `rwClus` moves -/

section Rw

variable {d : Disk} {sec off n j : Nat}

theorem rwByte_fit (hsec : sec < 2 ^ 32) (hj : off % 512 + j < 512) : rwByte sec off j = sec * 512 + off % 512 + j := by
  have hu : u32 sec = sec := Nat.mod_eq_of_lt hsec
  have hzero : (off % 512 + j) / 512 = 0 := Nat.div_eq_of_lt hj
  unfold rwByte
  rw [hzero, Nat.mod_eq_of_lt hj, Nat.add_zero, hu, Nat.add_assoc]

/-- Past the end of its sector the bytes go on in the next one. -/
theorem rwByte_next (hj : 512 ≤ off % 512 + j) (hj' : off % 512 + j < 1024) :
    rwByte sec off j = u32 (sec + 1) * 512 + (off % 512 + j - 512) := by
  have hone : (off % 512 + j) / 512 = 1 := by omega
  have hmod : (off % 512 + j) % 512 = off % 512 + j - 512 := by omega
  unfold rwByte
  rw [hone, hmod]

/-- The loop of `rwClus` reads up to a sector. -/
theorem rwReadLoop_byte (d : Disk) (hsec : sec < 2 ^ 32) (hn : n ≤ 512) :
    rwReadLoop d n n sec off 0 [] = (n, (List.range n).map fun j => byteAt d (rwByte sec off j)) := by
  by_cases hfit : off % 512 + n ≤ 512
  · have heq := rwReadLoop_eq n d sec off 0 [] (Nat.zero_le n) (Nat.le_refl _) (by omega)
    rw [heq, List.nil_append, Nat.sub_zero]
    refine congrArg (Prod.mk n) (List.map_congr_left fun j hj => ?_)
    rw [rwByte_fit hsec (by have := List.mem_range.mp hj; omega)]
  · obtain ⟨k, rfl⟩ : ∃ k, n = k + 1 := ⟨n - 1, by omega⟩
    obtain ⟨m, hm⟩ : ∃ m, m = 512 - off % 512 := ⟨_, rfl⟩
    have hturn : rwTurn off 0 (k + 1) = m := by
      unfold rwTurn
      simp only [show BUFFER_SIZE = 512 from rfl]
      rw [if_neg (by omega)]
      exact hm.symm
    have hrest := rwReadLoop_eq (n := k + 1) k d (u32 (sec + 1)) (off + m) (0 + m)
      ((List.range m).map fun j => d sec (off % 512 + j)) (by omega) (by omega) (by unfold u32; omega)
    rw [rwReadLoop, if_pos (Nat.succ_pos k)]
    simp only [hturn, List.nil_append, show BUFFER_SIZE = 512 from rfl]
    rw [hrest]
    refine congrArg (Prod.mk (k + 1)) ?_
    have hsplit : k + 1 = m + (k + 1 - (0 + m)) := by omega
    have hzero : (off + m) % 512 = 0 := by omega
    conv => rhs; rw [hsplit]
    rw [List.range_add, List.map_append, List.map_map]
    refine congrArg₂ (· ++ ·) (List.map_congr_left fun j hj => ?_) (List.map_congr_left fun j hj => ?_)
    · have hj := List.mem_range.mp hj
      rw [rwByte_fit hsec (by omega), Nat.add_assoc, byteAt_sector d sec (by omega)]
    · have hj := List.mem_range.mp hj
      show _ = byteAt d (rwByte sec off (m + j))
      rw [rwByte_next (by omega) (by omega), hzero]
      exact congrArg (byteAt d) (by omega)

/-- The loop of `rwClus` writes up to a sector. -/
theorem rwWriteLoop_byte (src : Nat → Byte) (d : Disk) (hsec : sec < 2 ^ 32) (hn : n ≤ 512) :
    (∀ j < n, byteAt (rwWriteLoop src n n d sec off 0).2 (rwByte sec off j) = src j) ∧
      ∀ a, (∀ j < n, a ≠ rwByte sec off j) → byteAt (rwWriteLoop src n n d sec off 0).2 a = byteAt d a := by
  by_cases hfit : off % 512 + n ≤ 512
  · obtain ⟨-, hbyte⟩ := rwWriteLoop_eq src n d sec off 0 (Nat.zero_le n) (Nat.le_refl _) (by omega)
    constructor
    · intro j hj
      rw [hbyte, rwByte_fit hsec (by omega), if_pos (by omega)]
      exact congrArg src (by omega)
    · intro a ha
      rw [hbyte]
      refine if_neg fun hin => ha (a - (sec * 512 + off % 512)) (by omega) ?_
      rw [rwByte_fit hsec (by omega)]
      omega
  · obtain ⟨k, rfl⟩ : ∃ k, n = k + 1 := ⟨n - 1, by omega⟩
    obtain ⟨m, hm⟩ : ∃ m, m = 512 - off % 512 := ⟨_, rfl⟩
    have hturn : rwTurn off 0 (k + 1) = m := by
      unfold rwTurn
      simp only [show BUFFER_SIZE = 512 from rfl]
      rw [if_neg (by omega)]
      exact hm.symm
    obtain ⟨d', hd'⟩ : ∃ d', d' = bwrite d sec (copyin (d sec) (off % 512) m fun i => src (0 + i)) := ⟨_, rfl⟩
    have heq : rwWriteLoop src (k + 1) (k + 1) d sec off 0 = rwWriteLoop src (k + 1) k d' (u32 (sec + 1)) (off + m) (0 + m) := by
      rw [rwWriteLoop, if_pos (Nat.succ_pos k)]
      simp only [hturn, show BUFFER_SIZE = 512 from rfl]
      rw [hd']
    have hfirst := byteAt_copyin d sec (off % 512) m (fun i => src (0 + i)) (by omega)
    rw [← hd'] at hfirst
    obtain ⟨-, hrest⟩ := rwWriteLoop_eq (n := k + 1) src k d' (u32 (sec + 1)) (off + m) (0 + m) (by omega) (by omega)
      (by unfold u32; omega)
    have hzero : (off + m) % 512 = 0 := by omega
    have hne : u32 (sec + 1) ≠ sec := by
      unfold u32
      omega
    rw [heq]
    rw [hzero] at hrest
    constructor
    · intro j hj
      by_cases hin : j < m
      · rw [hrest, rwByte_fit hsec (by omega), if_neg (by omega), hfirst, if_pos (by omega)]
        exact congrArg src (by omega)
      · rw [hrest, rwByte_next (by omega) (by omega), if_pos (by omega)]
        exact congrArg src (by omega)
    · intro a ha
      have hleft : ¬ (sec * 512 + off % 512 ≤ a ∧ a < sec * 512 + off % 512 + m) := by
        intro hin
        refine ha (a - (sec * 512 + off % 512)) (by omega) ?_
        rw [rwByte_fit hsec (by omega)]
        omega
      have hright : ¬ (u32 (sec + 1) * 512 + 0 ≤ a ∧ a < u32 (sec + 1) * 512 + 0 + (k + 1 - (0 + m))) := by
        intro hin
        refine ha (a - u32 (sec + 1) * 512 + m) (by omega) ?_
        rw [rwByte_next (by omega) (by omega)]
        omega
      rw [hrest, if_neg hright, hfirst, if_neg hleft]

end Rw

/-! ## An entry of a directory -/

/-- How `metaStat` and `eSetTime` find the short entry of a file from the offset in its `DirMeta`: the entry there is
taken for the first of a long name, whose byte 0 counts the long entries. -/
def findEntry (reloc : FileSystem → DirMeta → Nat → Bool → Except Panic (Int × FileSystem × DirMeta)) (fs : FileSystem)
    (parent : DirMeta) (off : Nat) : Except Panic (Nat × List Byte × FileSystem × DirMeta) := do
  let (r, fs, parent) ← reloc fs parent off false
  let (_, entcnt) ← rwClusRead fs parent.curClus (toU32 r) 1
  let (r, fs, parent) ← reloc fs parent (u32 (off + ((entcnt.getD 0 0).toNat &&& 0xffffffbf) <<< 5)) false
  let (_, de) ← rwClusRead fs parent.curClus (toU32 r) 32
  return (toU32 r, de, fs, parent)

/-- The offset that the count at `off` leads to. -/
def entryOff (fs : FileSystem) (L : List Nat) (off : Nat) : Nat :=
  u32 (off + ((byteAt fs.disk (placeByte fs.superBlock (place fs.superBlock L off) 0)).toNat &&& 0xffffffbf) <<< 5)

/-- Byte `j` of the entry that is found from `off`. -/
def entryByte (fs : FileSystem) (L : List Nat) (off j : Nat) : Nat :=
  placeByte fs.superBlock (place fs.superBlock L (entryOff fs L off)) j

/-- What has been found: the place and its bytes. -/
structure EntryFound (fs : FileSystem) (dm : DirMeta) (L : List Nat) (off o : Nat) (de : List Byte) (fs' : FileSystem) (dm' : DirMeta) :
    Prop where
  ext : Ext fs dm L fs' dm' L
  pool : PoolOnly fs fs'
  file : ∃ cur cnt item k, dm' = { dm with curClus := cur, clusCnt := cnt, item, inodeMaxCluster := k }
  place : (dm'.curClus, o) = place fs.superBlock L (entryOff fs L off)
  entry : de = (List.range 32).map fun j => byteAt fs.disk (entryByte fs L off j)

section Entry

variable {fs fs' : FileSystem} {dm dm' : DirMeta} {L : List Nat} {d : Disk} {c o off n : Nat} {r : Int} {de : List Byte}

theorem aligned_mod (hok : fs.superBlock.Ok) (h : off % 32 = 0) : off % fs.superBlock.bytsPerClus % 32 = 0 := by
  have hdvd : 32 ∣ fs.superBlock.bytsPerClus := by
    rw [hok.bytsPerClus]
    exact Nat.dvd_mul_left_of_dvd (by decide) _
  rw [Nat.mod_mod_of_dvd _ hdvd]
  exact h

/-- A place lies at a multiple of 32 or one byte before one. -/
theorem place_mod (hok : fs.superBlock.Ok) (h : off % 32 = 0) :
    (place fs.superBlock L off).2 % 32 = 0 ∨ (place fs.superBlock L off).2 % 32 = 31 := by
  unfold place
  split
  · exact .inl (aligned_mod hok h)
  · right
    show (2 ^ 32 - 1) % 32 = 31
    decide

theorem placeByte_mod (sb : SuperBlock) (p : Nat × Nat) (j : Nat) : placeByte sb p j % 32 = (p.2 + j) % 32 := by
  unfold placeByte rwByte
  omega

/-- What an entry takes passes the check of `rwClus`. -/
theorem place_check (hok : fs.superBlock.Ok) (h : off % 32 = 0) (hn : n ≤ 32) (hpos : 0 < n) :
    ¬ fs.superBlock.bytsPerClus < u32 ((place fs.superBlock L off).2 + n) := by
  have hspc := hok.secPerClus
  have hbpc := hok.bytsPerClus
  unfold place u32
  split
  · have hmod := aligned_mod hok h
    have hlt := Nat.mod_lt off hok.bpc_pos
    have hfit : off % fs.superBlock.bytsPerClus + n ≤ fs.superBlock.bytsPerClus := by omega
    exact Nat.not_lt_of_le (Nat.le_trans (Nat.mod_le _ _) hfit)
  · show ¬ _ < (2 ^ 32 - 1 + n) % 2 ^ 32
    omega

theorem rwClusRead_byte (hok : fs.superBlock.Ok) (hn : n ≤ 512) (hcheck : ¬ fs.superBlock.bytsPerClus < u32 (o + n)) :
    rwClusRead fs c o n = .ok (n, (List.range n).map fun j => byteAt fs.disk (placeByte fs.superBlock (c, o) j)) := by
  have hsec : u32 (firstSecOfClus fs.superBlock c + o / 512) < 2 ^ 32 := Nat.mod_lt _ (Nat.two_pow_pos 32)
  unfold rwClusRead
  rw [if_neg hcheck]
  simp only [hok.bytsPerSec]
  rw [rwReadLoop_byte fs.disk hsec hn]
  unfold placeByte rwByte
  simp only [Nat.mod_mod]

/-- What a write of part of a cluster leaves on the disk. -/
theorem rwClusWrite_byte (hok : fs.superBlock.Ok) (src : Nat → Byte) (hn : n ≤ 512)
    (hcheck : ¬ fs.superBlock.bytsPerClus < u32 (o + n)) :
    ∃ k d, rwClusWrite fs c src o n = .ok (k, { fs with disk := d }) ∧
      (∀ j < n, byteAt d (placeByte fs.superBlock (c, o) j) = src j) ∧
      ∀ a, (∀ j < n, a ≠ placeByte fs.superBlock (c, o) j) → byteAt d a = byteAt fs.disk a := by
  obtain ⟨sec, hsec⟩ : ∃ sec, sec = u32 (firstSecOfClus fs.superBlock c + o / 512) := ⟨_, rfl⟩
  have hlt : sec < 2 ^ 32 := by
    rw [hsec]
    exact Nat.mod_lt _ (Nat.two_pow_pos 32)
  have hbyte : ∀ j, placeByte fs.superBlock (c, o) j = rwByte sec (o % 512) j := by
    intro j
    unfold placeByte rwByte
    simp only [Nat.mod_mod, hsec]
  have hwrite : rwClusWrite fs c src o n = .ok ((rwWriteLoop src n n fs.disk sec (o % 512) 0).1,
      { fs with disk := (rwWriteLoop src n n fs.disk sec (o % 512) 0).2 }) := by
    unfold rwClusWrite
    rw [if_neg hcheck]
    simp only [hok.bytsPerSec, hsec]
  obtain ⟨hin, hout⟩ : (∀ j < n, _ = src j) ∧ ∀ a, _ → _ = byteAt fs.disk a := rwWriteLoop_byte src fs.disk hlt hn
  refine ⟨_, _, hwrite, fun j hj => ?_, fun a ha => hout a fun j hj => ?_⟩
  · rw [hbyte]
    exact hin j hj
  · rw [← hbyte]
    exact ha j hj

theorem entryOff_aligned (fs : FileSystem) (L : List Nat) (h : off % 32 = 0) : entryOff fs L off % 32 = 0 := by
  unfold entryOff u32
  rw [Nat.shiftLeft_eq]
  omega

theorem entryOff_lt (fs : FileSystem) (L : List Nat) (off : Nat) : entryOff fs L off < 2 ^ 32 := Nat.mod_lt _ (Nat.two_pow_pos 32)

/-- What is read at a place `relocClus` led to. -/
theorem read_place (hok : fs.superBlock.Ok) (hb : BitmapOk fs) (h : FileOk fs dm L) (hoff : off < 2 ^ 32) (hal : off % 32 = 0)
    (hr : relocClus fs dm off false = .ok (r, fs', dm')) (hsb : fs'.superBlock = fs.superBlock) (hn : n ≤ 32) (hpos : 0 < n) :
    rwClusRead fs' dm'.curClus (toU32 r) n =
      .ok (n, (List.range n).map fun j => byteAt fs'.disk (placeByte fs.superBlock (place fs.superBlock L off) j)) := by
  have hplace := relocClus_place hok hb h hoff hr
  have hcheck := place_check (L := L) hok hal hn hpos
  rw [← hplace] at hcheck
  rw [← hsb] at hcheck hok
  rw [rwClusRead_byte hok (Nat.le_trans hn (by decide)) hcheck, hsb, hplace]

/-- The search is the two calls, one from the offset and one from where the count leads. -/
theorem findEntry_iff {reloc : FileSystem → DirMeta → Nat → Bool → Except Panic (Int × FileSystem × DirMeta)}
    (hcopy : ∀ fs dm off p, reloc fs dm off false = .ok p → relocClus fs dm off false = .ok p) (hok : fs.superBlock.Ok)
    (hb : BitmapOk fs) (h : FileOk fs dm L) (hoff : off < 2 ^ 32) (hal : off % 32 = 0) :
    findEntry reloc fs dm off = .ok (o, de, fs', dm') ↔ ∃ r₁ fs₁ dm₁ r₂, reloc fs dm off false = .ok (r₁, fs₁, dm₁) ∧
      reloc fs₁ dm₁ (entryOff fs L off) false = .ok (r₂, fs', dm') ∧ o = toU32 r₂ ∧
      de = (List.range 32).map fun j => byteAt fs.disk (entryByte fs L off j) := by
  -- what the two reads return, after the calls before them
  have hfirst : ∀ {r₁ fs₁ dm₁}, reloc fs dm off false = .ok (r₁, fs₁, dm₁) → FileOk fs₁ dm₁ L ∧ BitmapOk fs₁ ∧
      fs₁.superBlock = fs.superBlock ∧ fs₁.disk = fs.disk ∧ rwClusRead fs₁ dm₁.curClus (toU32 r₁) 1 =
        .ok (1, (List.range 1).map fun j => byteAt fs.disk (placeByte fs.superBlock (place fs.superBlock L off) j)) := by
    intro r₁ fs₁ dm₁ hr
    have hr := hcopy _ _ _ _ hr
    have hext := (relocClus_found hok hb h (ne_nil_of_relocClus h hr) hr).ext
    have hdisk : fs₁.disk = fs.disk := (relocClus_poolOnly hok h hr).1.disk
    have hread := read_place hok hb h hoff hal hr hext.loc.superBlock (show 1 ≤ 32 by decide) (by decide)
    rw [hdisk] at hread
    exact ⟨hext.loc.fileOk, hext.loc.bitmapOk, hext.loc.superBlock, hdisk, hread⟩
  have hsecond : ∀ {r₁ fs₁ dm₁ r₂ fs₂ dm₂}, reloc fs dm off false = .ok (r₁, fs₁, dm₁) →
      reloc fs₁ dm₁ (entryOff fs L off) false = .ok (r₂, fs₂, dm₂) → rwClusRead fs₂ dm₂.curClus (toU32 r₂) 32 =
        .ok (32, (List.range 32).map fun j => byteAt fs.disk (entryByte fs L off j)) := by
    intro r₁ fs₁ dm₁ r₂ fs₂ dm₂ hr₁ hr₂
    obtain ⟨h₁, hb₁, hsb, hdisk, -⟩ := hfirst hr₁
    have hr₂ := hcopy _ _ _ _ hr₂
    have hok₁ : fs₁.superBlock.Ok := by
      rw [hsb]
      exact hok
    have hext := (relocClus_found hok₁ hb₁ h₁ (ne_nil_of_relocClus h₁ hr₂) hr₂).ext
    have hread := read_place hok₁ hb₁ h₁ (entryOff_lt fs L off) (entryOff_aligned fs L hal) hr₂ hext.loc.superBlock
      (Nat.le_refl 32) (by decide)
    rw [(relocClus_poolOnly hok₁ h₁ hr₂).1.disk, hdisk, hsb] at hread
    exact hread
  constructor
  · intro hr
    obtain ⟨⟨r₁, fs₁, dm₁⟩, hr₁, hr⟩ := except_bind_ok hr
    obtain ⟨⟨k, entcnt⟩, hcnt, hr⟩ := except_bind_ok hr
    obtain ⟨-, -, -, -, hread⟩ := hfirst hr₁
    obtain ⟨rfl, rfl⟩ := Prod.mk.inj (Except.ok.inj (hread.symm.trans hcnt))
    obtain ⟨⟨r₂, fs₂, dm₂⟩, hr₂, hr⟩ := except_bind_ok hr
    obtain ⟨⟨k', e⟩, hentry, hr⟩ := except_bind_ok hr
    obtain ⟨rfl, rfl⟩ := Prod.mk.inj (Except.ok.inj ((hsecond hr₁ hr₂).symm.trans hentry))
    cases hr
    exact ⟨r₁, fs₁, dm₁, r₂, hr₁, hr₂, rfl, rfl⟩
  · rintro ⟨r₁, fs₁, dm₁, r₂, hr₁, hr₂, rfl, rfl⟩
    obtain ⟨-, -, -, -, hread⟩ := hfirst hr₁
    have hread' := hsecond hr₁ hr₂
    show Except.bind (reloc fs dm off false) _ = _
    rw [hr₁]
    show Except.bind (rwClusRead fs₁ dm₁.curClus (toU32 r₁) 1) _ = _
    rw [hread]
    show Except.bind (reloc fs₁ dm₁ (entryOff fs L off) false) _ = _
    rw [hr₂]
    show Except.bind (rwClusRead fs' dm'.curClus (toU32 r₂) 32) _ = _
    rw [hread']
    rfl

/-- Within the chain the bytes of an entry lie together in one cluster. -/
theorem entryByte_inside (hok : fs.superBlock.Ok) (hL : IsChain fs L) (hal : off % 32 = 0)
    (hin : entryOff fs L off / fs.superBlock.bytsPerClus < L.length) {j : Nat} (hj : j < 32) :
    entryByte fs L off j = clusAddr fs.superBlock (L.getD (entryOff fs L off / fs.superBlock.bytsPerClus) 0) +
        (entryOff fs L off % fs.superBlock.bytsPerClus + j) ∧
      entryOff fs L off % fs.superBlock.bytsPerClus + j < fs.superBlock.bytsPerClus := by
  have hmem : L.getD (entryOff fs L off / fs.superBlock.bytsPerClus) 0 ∈ L := by
    rw [List.getD_eq_getElem _ _ hin]
    exact List.getElem_mem hin
  have hlt := Nat.mod_lt (entryOff fs L off) hok.bpc_pos
  have hmod := aligned_mod hok (entryOff_aligned fs L hal)
  have hbpc := hok.bytsPerClus
  obtain ⟨hsec, -⟩ := rwClus_sec hok (hL.inRange _ hmem) hlt
  unfold entryByte place
  rw [if_pos hin]
  unfold placeByte
  generalize entryOff fs L off % fs.superBlock.bytsPerClus = r at *
  have hr : r % 512 + j < 512 := by omega
  have hu : u32 (firstSecOfClus fs.superBlock (L.getD (entryOff fs L off / fs.superBlock.bytsPerClus) 0) + r / 512) < 2 ^ 32 :=
    Nat.mod_lt _ (Nat.two_pow_pos 32)
  rw [hok.bytsPerSec, Nat.mod_mod] at hsec
  rw [rwByte_fit hu hr, hsec]
  omega

section Calls

variable (hok : fs.superBlock.Ok) (hb : BitmapOk fs) (h : FileOk fs dm L) (hoff : off < 2 ^ 32) (hal : off % 32 = 0)

include hok hb h hoff hal

/-- **The entry that is found**, when the search returns. -/
theorem findEntry_found (hr : findEntry relocClus fs dm off = .ok (o, de, fs', dm')) : EntryFound fs dm L off o de fs' dm' := by
  obtain ⟨r₁, fs₁, dm₁, r₂, hr₁, hr₂, rfl, rfl⟩ := (findEntry_iff (fun _ _ _ _ => id) hok hb h hoff hal).mp hr
  have hne := ne_nil_of_relocClus h hr₁
  have hext₁ := (relocClus_found hok hb h hne hr₁).ext
  have hsb := hext₁.loc.superBlock
  have hok₁ : fs₁.superBlock.Ok := by
    rw [hsb]
    exact hok
  have hext₂ := (relocClus_found hok₁ hext₁.loc.bitmapOk hext₁.loc.fileOk hne hr₂).ext
  obtain ⟨hpool₁, cur₁, cnt₁, item₁, k₁, hdm₁⟩ := relocClus_poolOnly hok h hr₁
  obtain ⟨hpool₂, cur₂, cnt₂, item₂, k₂, hdm₂⟩ := relocClus_poolOnly hok₁ hext₁.loc.fileOk hr₂
  have hplace := relocClus_place hok₁ hext₁.loc.bitmapOk hext₁.loc.fileOk (entryOff_lt fs L off) hr₂
  rw [hsb] at hplace
  exact ⟨hext₁.trans hext₂, hpool₁.trans hpool₂, ⟨cur₂, cnt₂, item₂, k₂, by rw [hdm₂, hdm₁]⟩, hplace, rfl⟩

/-- The copy finds what the original finds, and leaves a cache that leads there again. -/
theorem findEntry_copy (hr : findEntry reloc_clus fs dm off = .ok (o, de, fs', dm')) :
    findEntry relocClus fs dm off = .ok (o, de, fs', dm') ∧ L ≠ [] ∧ Held dm' L (off / fs.superBlock.bytsPerClus) ∧
      Held dm' L (entryOff fs L off / fs.superBlock.bytsPerClus) := by
  obtain ⟨r₁, fs₁, dm₁, r₂, hr₁, hr₂, rfl, rfl⟩ := (findEntry_iff (fun _ _ _ _ => reloc_clus_ok) hok hb h hoff hal).mp hr
  have hne := ne_nil_of_relocClus h (reloc_clus_ok hr₁)
  have hext₁ := (relocClus_found hok hb h hne (reloc_clus_ok hr₁)).ext
  have hsb := hext₁.loc.superBlock
  have hok₁ : fs₁.superBlock.Ok := by
    rw [hsb]
    exact hok
  have hext₂ := (relocClus_found hok₁ hext₁.loc.bitmapOk hext₁.loc.fileOk hne (reloc_clus_ok hr₂)).ext
  have hheld₂ := reloc_clus_held hok₁ hext₁.loc.bitmapOk hext₁.loc.fileOk hr₂
  rw [hsb] at hheld₂
  exact ⟨(findEntry_iff (fun _ _ _ _ => id) hok hb h hoff hal).mpr
      ⟨r₁, fs₁, dm₁, r₂, reloc_clus_ok hr₁, reloc_clus_ok hr₂, rfl, rfl⟩,
    hne, (reloc_clus_held hok hb h hr₁).mono hext₂.count, hheld₂⟩

/-- The entry is found where what is cached leads to it. -/
theorem exists_findEntry (hne : L ≠ []) (hheld₁ : Held dm L (off / fs.superBlock.bytsPerClus))
    (hheld₂ : Held dm L (entryOff fs L off / fs.superBlock.bytsPerClus)) :
    ∃ o de fs' dm', findEntry relocClus fs dm off = .ok (o, de, fs', dm') := by
  obtain ⟨⟨r₁, fs₁, dm₁⟩, hr₁⟩ := hheld₁.relocClus hok hb h hne
  have hext₁ := (relocClus_found hok hb h hne hr₁).ext
  have hsb := hext₁.loc.superBlock
  have hok₁ : fs₁.superBlock.Ok := by
    rw [hsb]
    exact hok
  have hheld : Held dm₁ L (entryOff fs L off / fs₁.superBlock.bytsPerClus) := by
    rw [hsb]
    exact hheld₂.mono hext₁.count
  obtain ⟨⟨r₂, fs₂, dm₂⟩, hr₂⟩ := hheld.relocClus hok₁ hext₁.loc.bitmapOk hext₁.loc.fileOk hne
  exact ⟨_, _, _, _, (findEntry_iff (fun _ _ _ _ => id) hok hb h hoff hal).mpr ⟨r₁, fs₁, dm₁, r₂, hr₁, hr₂, rfl, rfl⟩⟩

/-- **On other blocks**, with the same chain and the same count, the same entry is found. -/
theorem findEntry_disk (hfat : ∀ c ∈ L, fatEntry { fs with disk := d } c = fatEntry fs c)
    (hcount : byteAt d (placeByte fs.superBlock (place fs.superBlock L off) 0) =
      byteAt fs.disk (placeByte fs.superBlock (place fs.superBlock L off) 0))
    (hr : findEntry relocClus fs dm off = .ok (o, de, fs', dm')) :
    findEntry relocClus { fs with disk := d } dm off =
      .ok (o, (List.range 32).map fun j => byteAt d (entryByte fs L off j), { fs' with disk := d }, dm') := by
  obtain ⟨r₁, fs₁, dm₁, r₂, hr₁, hr₂, rfl, rfl⟩ := (findEntry_iff (fun _ _ _ _ => id) hok hb h hoff hal).mp hr
  have hext₁ := (relocClus_found hok hb h (ne_nil_of_relocClus h hr₁) hr₁).ext
  obtain ⟨⟨inodes₁, bits₁, rfl⟩, -⟩ := relocClus_poolOnly hok h hr₁
  have hok₁ : ({ fs with inodes := inodes₁, inodeBitmap := bits₁ } : FileSystem).superBlock.Ok := hok
  obtain ⟨⟨inodes₂, bits₂, rfl⟩, -⟩ := relocClus_poolOnly hok₁ hext₁.loc.fileOk hr₂
  have hreloc₁ := relocClus_disk hok h hfat off
  have hreloc₂ := relocClus_disk hok₁ hext₁.loc.fileOk hfat (entryOff fs L off)
  rw [hr₁] at hreloc₁
  rw [hr₂] at hreloc₂
  have hplace₁ := relocClus_place hok hb h hoff hr₁
  have hplace₂ := relocClus_place hok₁ hext₁.loc.bitmapOk hext₁.loc.fileOk (entryOff_lt fs L off) hr₂
  have hcheck₁ := place_check (L := L) hok hal (show 1 ≤ 32 by decide) (by decide)
  have hcheck₂ := place_check (L := L) hok (entryOff_aligned fs L hal) (Nat.le_refl 32) (by decide)
  rw [← hplace₁] at hcheck₁ hcount
  rw [← hplace₂] at hcheck₂
  have hread₁ : rwClusRead { fs with disk := d, inodes := inodes₁, inodeBitmap := bits₁ } dm₁.curClus (toU32 r₁) 1 = .ok (1, _) :=
    rwClusRead_byte hok (by decide) hcheck₁
  have hread₂ : rwClusRead { fs with disk := d, inodes := inodes₂, inodeBitmap := bits₂ } dm'.curClus (toU32 r₂) 32 = .ok (32, _) :=
    rwClusRead_byte hok (by decide) hcheck₂
  show Except.bind (relocClus { fs with disk := d } dm off false) _ = _
  rw [hreloc₁]
  show Except.bind (rwClusRead _ dm₁.curClus (toU32 r₁) 1) _ = _
  rw [hread₁]
  have hentry : u32 (off + ((byteAt d (placeByte fs.superBlock (dm₁.curClus, toU32 r₁) 0)).toNat &&& 0xffffffbf) <<< 5) =
      entryOff fs L off := by
    rw [hcount, hplace₁]
    rfl
  show Except.bind (relocClus _ dm₁ (u32 (off + ((byteAt d (placeByte fs.superBlock (dm₁.curClus, toU32 r₁) 0)).toNat &&& 0xffffffbf) <<< 5))
    false) _ = _
  rw [hentry]
  rw [hreloc₂]
  show Except.bind (rwClusRead _ dm'.curClus (toU32 r₂) 32) _ = _
  rw [hread₂]
  unfold entryByte
  rw [← hplace₂]
  rfl

end Calls

end Entry

end Exaros.Fat
