import Exaros.Fat.Cluster

/-!
# The cluster cache of a file

`kernel/fs/inode.c`: each `DirMeta` caches the cluster numbers of a prefix of its chain, the first
eight in place, the next 16 × 64 through a second-level inode and the last 40 × 64 × 64 through a
third level, inodes being taken from a pool the files share.

`InodeKey` names the pool inodes a cache of `k` clusters uses, by the position each starts at.
`InodeOk` says that they are distinct inodes in use; `metaCacheInode` and `metaFreeInode` keep it
and touch no other inode.
-/

namespace Exaros.Fat

def INODE_NUM : Nat := 1024
def INODE_ITEM_NUM : Nat := 64
def INODE_SECOND_ITEM_BASE : Nat := 8
def INODE_THIRD_ITEM_BASE : Nat := 24
def INODE_SECOND_LEVEL_BOTTOM : Nat := INODE_SECOND_ITEM_BASE
def INODE_SECOND_LEVEL_TOP : Nat :=
  INODE_SECOND_LEVEL_BOTTOM + (INODE_THIRD_ITEM_BASE - INODE_SECOND_ITEM_BASE) * INODE_ITEM_NUM
def INODE_THIRD_LEVEL_BOTTOM : Nat := INODE_SECOND_LEVEL_TOP
def INODE_THIRD_LEVEL_TOP : Nat :=
  INODE_THIRD_LEVEL_BOTTOM + (INODE_ITEM_NUM - INODE_THIRD_ITEM_BASE) * INODE_ITEM_NUM * INODE_ITEM_NUM

/-- The device kinds `metaRead` and `metaWrite` treat apart. -/
inductive Dev where
  | regular | zero | osrelease | none
deriving DecidableEq, Repr

def ATTR_READ_ONLY : Nat := 0x01
def ATTR_DIRECTORY : Nat := 0x10
def ATTR_ARCHIVE : Nat := 0x20
def ATTR_LINK : Nat := 0x40
def DT_LNK : Nat := 10

/-- The fields of a `DirMeta` the file operations use. -/
structure DirMeta where
  attr : Nat
  firstClus : Nat
  fileSize : Nat
  curClus : Nat
  /-- how many clusters are cached -/
  inodeMaxCluster : Nat
  clusCnt : Nat
  /-- `inode.item` -/
  item : Nat → Nat
  reserve : Nat
  dev : Dev

/-! ## The pool -/

/-- `inodeAlloc`, where the pool has an inode left. In a full pool the source does not stop: it scans on past the 16
words of the bitmap and may return an index from 1024 on (`Exaros.Fat.Overrun`). Here the model stops, and what a
theorem says of this error is about the model only. -/
def inodeAlloc (fs : FileSystem) : Except Panic (Nat × FileSystem) :=
  match Bitmap.findClear fs.inodeBitmap (INODE_NUM / 64) 0 with
  | none => .error .inodeAlloc
  | some x => .ok (x, { fs with inodeBitmap := Bitmap.set fs.inodeBitmap x })

/-- `inodeFree`. -/
def inodeFree (fs : FileSystem) (x : Nat) : Except Panic FileSystem :=
  if Bitmap.get fs.inodeBitmap x then .ok { fs with inodeBitmap := Bitmap.clear fs.inodeBitmap x }
  else .error .inodeFree

/-- `inodes[x].item[i] = clus`. -/
def setInode (fs : FileSystem) (x i clus : Nat) : FileSystem :=
  { fs with inodes := fun y j => if y = x ∧ j = i then clus else fs.inodes y j }

/-- `meta->inode.item[i] = x`. -/
def DirMeta.setItem (dm : DirMeta) (i x : Nat) : DirMeta :=
  { dm with item := fun j => if j = i then x else dm.item j }

/-- `meta->inodeMaxCluster++`. -/
def DirMeta.bump (dm : DirMeta) : DirMeta := { dm with inodeMaxCluster := dm.inodeMaxCluster + 1 }

/-! ## The cache -/

/-- The cluster cached at a position. -/
def cachedClus (inodes : Nat → Nat → Nat) (item : Nat → Nat) (pos : Nat) : Nat :=
  if pos < INODE_SECOND_LEVEL_BOTTOM then item pos
  else if pos < INODE_THIRD_LEVEL_BOTTOM then
    inodes (item (INODE_SECOND_ITEM_BASE + (pos - INODE_SECOND_LEVEL_BOTTOM) / INODE_ITEM_NUM))
      ((pos - INODE_SECOND_LEVEL_BOTTOM) % INODE_ITEM_NUM)
  else
    inodes (inodes (item (INODE_THIRD_ITEM_BASE + (pos - INODE_THIRD_LEVEL_BOTTOM) / INODE_ITEM_NUM / INODE_ITEM_NUM))
        ((pos - INODE_THIRD_LEVEL_BOTTOM) / INODE_ITEM_NUM % INODE_ITEM_NUM))
      ((pos - INODE_THIRD_LEVEL_BOTTOM) % INODE_ITEM_NUM)

/-- `metaFindInode`. -/
def metaFindInode (fs : FileSystem) (dm : DirMeta) (pos : Nat) : Except Panic DirMeta :=
  if pos < dm.inodeMaxCluster ∧ pos < INODE_THIRD_LEVEL_TOP then
    .ok { dm with clusCnt := pos, curClus := cachedClus fs.inodes dm.item pos }
  else .error .metaFindInode

/-- `metaCacheInode`. -/
def metaCacheInode (fs : FileSystem) (dm : DirMeta) (clus : Nat) : Except Panic (FileSystem × DirMeta) := do
  let pos := dm.clusCnt
  if pos ≠ dm.inodeMaxCluster then throw .metaCacheInode
  let dm := dm.bump
  if pos < INODE_SECOND_LEVEL_BOTTOM then return (fs, dm.setItem pos clus)
  else if pos < INODE_THIRD_LEVEL_BOTTOM then
    let idx1 := INODE_SECOND_ITEM_BASE + (pos - INODE_SECOND_LEVEL_BOTTOM) / INODE_ITEM_NUM
    let idx2 := (pos - INODE_SECOND_LEVEL_BOTTOM) % INODE_ITEM_NUM
    if idx2 = 0 then
      let (x, fs) ← inodeAlloc fs
      return (setInode fs x idx2 clus, dm.setItem idx1 x)
    else return (setInode fs (dm.item idx1) idx2 clus, dm)
  else if pos < INODE_THIRD_LEVEL_TOP then
    let idx1 := INODE_THIRD_ITEM_BASE + (pos - INODE_THIRD_LEVEL_BOTTOM) / INODE_ITEM_NUM / INODE_ITEM_NUM
    let idx2 := (pos - INODE_THIRD_LEVEL_BOTTOM) / INODE_ITEM_NUM % INODE_ITEM_NUM
    let idx3 := (pos - INODE_THIRD_LEVEL_BOTTOM) % INODE_ITEM_NUM
    if idx3 = 0 then
      if idx2 = 0 then
        let (x, fs) ← inodeAlloc fs
        let (y, fs) ← inodeAlloc fs
        return (setInode (setInode fs x idx2 y) y idx3 clus, dm.setItem idx1 x)
      else
        let (y, fs) ← inodeAlloc fs
        return (setInode (setInode fs (dm.item idx1) idx2 y) y idx3 clus, dm)
    else return (setInode fs (fs.inodes (dm.item idx1) idx2) idx3 clus, dm)
  else return (fs, dm)

/-- The inodes the two loops of `metaFreeInode` free, in their order. The loop over the third level
counts its base from `INODE_SECOND_ITEM_BASE`. -/
def inodesToFree (inodes : Nat → Nat → Nat) (item : Nat → Nat) (k : Nat) : List Nat :=
  (((List.range (INODE_THIRD_ITEM_BASE - INODE_SECOND_ITEM_BASE)).takeWhile fun j =>
      INODE_SECOND_LEVEL_BOTTOM + j * INODE_ITEM_NUM < k).map fun j => item (INODE_SECOND_ITEM_BASE + j)) ++
  ((List.range (INODE_ITEM_NUM - INODE_THIRD_ITEM_BASE)).takeWhile fun j =>
      INODE_THIRD_LEVEL_BOTTOM + (INODE_THIRD_ITEM_BASE + j - INODE_SECOND_ITEM_BASE) * INODE_ITEM_NUM *
        INODE_ITEM_NUM < k).flatMap fun j =>
    (((List.range INODE_ITEM_NUM).takeWhile fun l =>
      INODE_THIRD_LEVEL_BOTTOM + (INODE_THIRD_ITEM_BASE + j - INODE_SECOND_ITEM_BASE) * INODE_ITEM_NUM *
        INODE_ITEM_NUM + l * INODE_ITEM_NUM < k).map fun l => inodes (item (INODE_THIRD_ITEM_BASE + j)) l) ++
    [item (INODE_THIRD_ITEM_BASE + j)]

/-- `metaFreeInode`. -/
def metaFreeInode (fs : FileSystem) (dm : DirMeta) : Except Panic (FileSystem × DirMeta) := do
  let fs ← (inodesToFree fs.inodes dm.item dm.inodeMaxCluster).foldlM inodeFree fs
  return (fs, { dm with inodeMaxCluster := 0 })

/-! ## The inodes of a cache -/

/-- The pool inodes of a cache: second level, third level and the leaves below it. -/
inductive InodeKey where
  | second (j : Nat)
  | third (j : Nat)
  | leaf (j l : Nat)
deriving DecidableEq

/-- The position at which an inode comes into use. -/
def InodeKey.start : InodeKey → Nat
  | .second j => 8 + 64 * j
  | .third j => 1032 + 4096 * j
  | .leaf j l => 1032 + 4096 * j + 64 * l

def InodeKey.Valid : InodeKey → Prop
  | .second j => j < 16
  | .third j => j < 40
  | .leaf j l => j < 40 ∧ l < 64

/-- The inode in use for a key. -/
def InodeKey.id (inodes : Nat → Nat → Nat) (item : Nat → Nat) : InodeKey → Nat
  | .second j => item (8 + j)
  | .third j => item (24 + j)
  | .leaf j l => inodes (item (24 + j)) l

/-- The keys of a cache of `k` clusters. -/
def InodeKey.Live (k : Nat) (key : InodeKey) : Prop := key.Valid ∧ key.start < k

/-- The inodes of a cache are in use and distinct. -/
structure InodeOk (fs : FileSystem) (item : Nat → Nat) (k : Nat) : Prop where
  used : ∀ key, InodeKey.Live k key → Bitmap.get fs.inodeBitmap (key.id fs.inodes item) = true
  inj : ∀ key key', InodeKey.Live k key → InodeKey.Live k key' →
    key.id fs.inodes item = key'.id fs.inodes item → key = key'

/-- The inodes a cache owns. -/
def Owns (fs : FileSystem) (item : Nat → Nat) (k x : Nat) : Prop :=
  ∃ key, InodeKey.Live k key ∧ key.id fs.inodes item = x

variable {inodes : Nat → Nat → Nat} {item : Nat → Nat}

theorem cachedClus_first {pos : Nat} (h : pos < 8) :
    cachedClus inodes item pos = item pos := if_pos h

theorem cachedClus_second {j i : Nat} (hj : j < 16) (hi : i < 64) :
    cachedClus inodes item (8 + 64 * j + i) = inodes (item (8 + j)) i := by
  have hb : INODE_SECOND_LEVEL_BOTTOM = 8 := rfl
  have ht : INODE_THIRD_LEVEL_BOTTOM = 1032 := rfl
  have hn : INODE_ITEM_NUM = 64 := rfl
  have h3 : (8 + 64 * j + i - 8) / 64 = j := by omega
  have h4 : (8 + 64 * j + i - 8) % 64 = i := by omega
  unfold cachedClus
  rw [hb, ht, hn, if_neg (by omega), if_pos (by omega), h3, h4]
  rfl

theorem cachedClus_third {j l i : Nat} (hl : l < 64) (hi : i < 64) :
    cachedClus inodes item (1032 + 4096 * j + 64 * l + i) = inodes (inodes (item (24 + j)) l) i := by
  have hb : INODE_SECOND_LEVEL_BOTTOM = 8 := rfl
  have ht : INODE_THIRD_LEVEL_BOTTOM = 1032 := rfl
  have hn : INODE_ITEM_NUM = 64 := rfl
  have h3 : (1032 + 4096 * j + 64 * l + i - 1032) / 64 / 64 = j := by omega
  have h4 : (1032 + 4096 * j + 64 * l + i - 1032) / 64 % 64 = l := by omega
  have h5 : (1032 + 4096 * j + 64 * l + i - 1032) % 64 = i := by omega
  unfold cachedClus
  rw [hb, ht, hn, if_neg (by omega), if_neg (by omega), h3, h4, h5]
  rfl

theorem cachedClus_second_zero {j : Nat} (hj : j < 16) :
    cachedClus inodes item (8 + 64 * j) = inodes (item (8 + j)) 0 :=
  cachedClus_second (i := 0) hj (by omega)

theorem cachedClus_leaf_zero {j l : Nat} (hl : l < 64) :
    cachedClus inodes item (1032 + 4096 * j + 64 * l) = inodes (inodes (item (24 + j)) l) 0 :=
  cachedClus_third (i := 0) hl (by omega)

theorem cachedClus_third_zero {j : Nat} :
    cachedClus inodes item (1032 + 4096 * j) = inodes (inodes (item (24 + j)) 0) 0 :=
  cachedClus_leaf_zero (l := 0) (by omega)

/-- The three shapes of a position. -/
theorem pos_cases {pos : Nat} (h : pos < INODE_THIRD_LEVEL_TOP) :
    pos < 8 ∨ (∃ j i, j < 16 ∧ i < 64 ∧ pos = 8 + 64 * j + i) ∨
      ∃ j l i, j < 40 ∧ l < 64 ∧ i < 64 ∧ pos = 1032 + 4096 * j + 64 * l + i := by
  have hlt : pos < 1032 + 40 * 4096 := h
  by_cases h8 : pos < 8
  · exact .inl h8
  · by_cases h2 : pos < 1032
    · exact .inr (.inl ⟨(pos - 8) / 64, (pos - 8) % 64, by omega, by omega, by omega⟩)
    · exact .inr (.inr ⟨(pos - 1032) / 4096, (pos - 1032) / 64 % 64, (pos - 1032) % 64, by omega, by omega,
        by omega, by omega⟩)

/-! ## Caches that read alike -/

/-- The position recorded, directly or through a leaf, by slot `i` of an inode. -/
def InodeKey.slot (key : InodeKey) (i : Nat) : Nat :=
  match key with
  | .third j => 1032 + 4096 * j + 64 * i
  | key => key.start + i

/-- Two caches agree on everything the first `k` positions are read from. -/
structure SameCache (inodes : Nat → Nat → Nat) (item : Nat → Nat) (inodes' : Nat → Nat → Nat)
    (item' : Nat → Nat) (k : Nat) : Prop where
  first : ∀ i, i < 8 → i < k → item' i = item i
  second : ∀ j, InodeKey.Live k (.second j) → item' (8 + j) = item (8 + j)
  third : ∀ j, InodeKey.Live k (.third j) → item' (24 + j) = item (24 + j)
  content : ∀ key, InodeKey.Live k key → ∀ i < 64, key.slot i < k →
    inodes' (key.id inodes item) i = inodes (key.id inodes item) i

section SameCache

variable {inodes inodes' : Nat → Nat → Nat} {item item' : Nat → Nat} {k pos : Nat} {key : InodeKey}

theorem InodeKey.Live.third_of_leaf {j l : Nat} (h : InodeKey.Live k (.leaf j l)) : InodeKey.Live k (.third j) := by
  obtain ⟨hv, hs⟩ := h
  simp only [InodeKey.Valid, InodeKey.start] at hv hs
  exact ⟨hv.1, by simp only [InodeKey.start]; omega⟩

theorem InodeKey.Live.mono {k' : Nat} (h : InodeKey.Live k key) (hk : k ≤ k') : InodeKey.Live k' key :=
  ⟨h.1, Nat.lt_of_lt_of_le h.2 hk⟩

/-- Keys keep their inodes. -/
theorem SameCache.id (h : SameCache inodes item inodes' item' k) (hl : InodeKey.Live k key) :
    key.id inodes' item' = key.id inodes item := by
  cases key with
  | second j => exact h.second j hl
  | third j => exact h.third j hl
  | leaf j l =>
    have ht := hl.third_of_leaf
    have hc := h.content (.third j) ht l hl.1.2 hl.2
    simp only [InodeKey.id] at hc ⊢
    rw [h.third j ht, hc]

/-- Cached clusters read alike. -/
theorem SameCache.cachedClus (h : SameCache inodes item inodes' item' k) (hk : pos < k)
    (ht : pos < INODE_THIRD_LEVEL_TOP) : cachedClus inodes' item' pos = cachedClus inodes item pos := by
  rcases pos_cases ht with h8 | ⟨j, i, hj, hi, rfl⟩ | ⟨j, l, i, hj, hl, hi, rfl⟩
  · rw [cachedClus_first h8, cachedClus_first h8, h.first pos h8 hk]
  · have hlive : InodeKey.Live k (.second j) := ⟨hj, by simp only [InodeKey.start]; omega⟩
    rw [cachedClus_second hj hi, cachedClus_second hj hi, h.second j hlive]
    exact h.content (.second j) hlive i hi hk
  · have hlive : InodeKey.Live k (.leaf j l) := ⟨⟨hj, hl⟩, by simp only [InodeKey.start]; omega⟩
    have hid := h.id hlive
    simp only [InodeKey.id] at hid
    rw [cachedClus_third hl hi, cachedClus_third hl hi, hid]
    exact h.content (.leaf j l) hlive i hi hk

end SameCache

section Grow

variable {fs fs' : FileSystem} {item item' : Nat → Nat} {k x : Nat}

/-- A write to an unused inode, or to a slot of an own inode past the cached positions, is not seen
by the cache. -/
theorem InodeOk.not_hit (h : InodeOk fs item k) (i₀ : Nat)
    (hx : Bitmap.get fs.inodeBitmap x = false ∨
      ∃ key, InodeKey.Live k key ∧ key.id fs.inodes item = x ∧ k ≤ key.slot i₀) :
    ∀ key, InodeKey.Live k key → ∀ i, key.slot i < k → ¬ (key.id fs.inodes item = x ∧ i = i₀) := by
  rintro key hlive i hi ⟨hid, rfl⟩
  rcases hx with hx | ⟨key', hlive', hid', hk⟩
  · have := h.used key hlive
    rw [hid, hx] at this
    exact Bool.noConfusion this
  · obtain rfl := h.inj key key' hlive hlive' (hid.trans hid'.symm)
    omega

/-- What extending a cache by one position may do to the pool. -/
structure PoolGrow (fs : FileSystem) (item : Nat → Nat) (k : Nat) (fs' : FileSystem) (item' : Nat → Nat) :
    Prop where
  same : SameCache fs.inodes item fs'.inodes item' k
  used : ∀ x, Bitmap.get fs.inodeBitmap x = true → Bitmap.get fs'.inodeBitmap x = true
  others : ∀ x, Bitmap.get fs.inodeBitmap x = true → ¬ Owns fs item k x → fs'.inodes x = fs.inodes x
  fresh : ∀ key, InodeKey.Live (k + 1) key → ¬ InodeKey.Live k key →
    Bitmap.get fs.inodeBitmap (key.id fs'.inodes item') = false ∧
    Bitmap.get fs'.inodeBitmap (key.id fs'.inodes item') = true
  inj : ∀ key key', InodeKey.Live (k + 1) key → ¬ InodeKey.Live k key → InodeKey.Live (k + 1) key' →
    ¬ InodeKey.Live k key' → key.id fs'.inodes item' = key'.id fs'.inodes item' → key = key'
  taken : ∀ x, Bitmap.get fs'.inodeBitmap x = true → Bitmap.get fs.inodeBitmap x = true ∨ Owns fs' item' (k + 1) x

/-- One position more is cached. -/
theorem PoolGrow.inodeOk (g : PoolGrow fs item k fs' item') (h : InodeOk fs item k) :
    InodeOk fs' item' (k + 1) := by
  have hne : ∀ key key', InodeKey.Live k key → InodeKey.Live (k + 1) key' → ¬ InodeKey.Live k key' →
      key.id fs'.inodes item' ≠ key'.id fs'.inodes item' := by
    intro key key' hl hl' hn heq
    have h1 := (g.fresh key' hl' hn).1
    rw [← heq, g.same.id hl, h.used key hl] at h1
    exact Bool.noConfusion h1
  constructor
  · intro key hl
    by_cases hold : InodeKey.Live k key
    · rw [g.same.id hold]
      exact g.used _ (h.used key hold)
    · exact (g.fresh key hl hold).2
  · intro key key' hl hl' heq
    by_cases hold : InodeKey.Live k key <;> by_cases hold' : InodeKey.Live k key'
    · rw [g.same.id hold, g.same.id hold'] at heq
      exact h.inj key key' hold hold' heq
    · exact absurd heq (hne key key' hold hl' hold')
    · exact absurd heq.symm (hne key' key hold' hl hold)
    · exact g.inj key key' hl hold hl' hold' heq

theorem PoolGrow.owns (g : PoolGrow fs item k fs' item') {x : Nat} (h : Owns fs' item' (k + 1) x) :
    Owns fs item k x ∨ Bitmap.get fs.inodeBitmap x = false := by
  obtain ⟨key, hl, rfl⟩ := h
  by_cases hold : InodeKey.Live k key
  · exact .inl ⟨key, hold, (g.same.id hold).symm⟩
  · exact .inr (g.fresh key hl hold).1

/-- The keys that come into use at a position start there. -/
theorem start_of_new {key : InodeKey} (h : InodeKey.Live (k + 1) key) (hn : ¬ InodeKey.Live k key) :
    key.Valid ∧ key.start = k := by
  refine ⟨h.1, ?_⟩
  have h1 := h.2
  have h2 : ¬ key.start < k := fun hlt => hn ⟨h.1, hlt⟩
  omega

end Grow

end Exaros.Fat
