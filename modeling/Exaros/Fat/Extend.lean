import Exaros.Fat.Chain
import Mathlib.Algebra.BigOperators.Intervals

/-!
# Extending a file

`relocClus` walks the chain of a file to a position, caches what it passes and, if asked to, appends
clusters. `Ext` collects what that does; it composes, and one turn of the loop is an `Ext` of at most
two parts: linking a new cluster behind the last one and caching the next position.
-/

namespace Exaros.Fat

/-- The inodes that caching the position takes from the pool. -/
def needAt (pos : Nat) : Nat := if pos < INODE_THIRD_LEVEL_TOP then inodeNeed pos else 0

/-- The inodes that growing a cache from `k` to `k'` positions takes from the pool. -/
def inodesBetween (k k' : Nat) : Nat := ∑ pos ∈ Finset.Ico k k', needAt pos

theorem inodesBetween_one (k : Nat) : inodesBetween k (k + 1) = needAt k := by
  unfold inodesBetween
  rw [Nat.Ico_succ_singleton, Finset.sum_singleton]

/-- The next position, and those behind it. -/
theorem inodesBetween_head {k k' : Nat} (h : k < k') : inodesBetween k k' = needAt k + inodesBetween (k + 1) k' := by
  rw [← inodesBetween_one]
  exact (Finset.sum_Ico_consecutive needAt (Nat.le_succ k) h).symm

/-- Caching one more position takes what the position needs, past the third level nothing. -/
theorem exists_metaCacheInode_need (fs : FileSystem) (dm : DirMeta) (clus : Nat) (hc : dm.clusCnt = dm.inodeMaxCluster)
    (hneed : needAt dm.inodeMaxCluster ≤ freeInodes fs) : ∃ r, metaCacheInode fs dm clus = .ok r := by
  by_cases htop : dm.inodeMaxCluster < INODE_THIRD_LEVEL_TOP
  · have hneed : inodeNeed dm.inodeMaxCluster ≤ freeInodes fs := by
      rw [needAt, if_pos htop] at hneed
      exact hneed
    exact exists_metaCacheInode fs dm clus hc htop hneed
  · exact ⟨_, metaCacheInode_past hc rfl (Nat.le_of_not_lt htop)⟩

/-- An operation that keeps or extends the chain of a file and its cache. -/
structure Growth (fs : FileSystem) (dm : DirMeta) (L : List Nat) (fs' : FileSystem) (dm' : DirMeta)
    (L' : List Nat) : Prop where
  loc : Local fs dm L fs' dm' L'
  grow : L <+: L'
  fields : dm'.attr = dm.attr ∧ dm'.fileSize = dm.fileSize ∧ dm'.dev = dm.dev
  free : freeClusters fs' + L'.length = freeClusters fs + L.length
  count : dm.inodeMaxCluster ≤ dm'.inodeMaxCluster
  pool : freeInodes fs' + inodesBetween dm.inodeMaxCluster dm'.inodeMaxCluster = freeInodes fs

/-- An operation that leaves the file as it was but for clusters of zeros at its end and for what is
cached. -/
structure Ext (fs : FileSystem) (dm : DirMeta) (L : List Nat) (fs' : FileSystem) (dm' : DirMeta)
    (L' : List Nat) : Prop extends Growth fs dm L fs' dm' L' where
  bytes : ∀ j < L'.length * fs.superBlock.bytsPerClus,
    chainByte fs' L' j = if j < L.length * fs.superBlock.bytsPerClus then chainByte fs L j else 0

section Ext

variable {fs fs' fs'' : FileSystem} {dm dm' dm'' : DirMeta} {L L' L'' : List Nat} {c : Nat}

theorem Growth.trans (h : Growth fs dm L fs' dm' L') (h' : Growth fs' dm' L' fs'' dm'' L'') :
    Growth fs dm L fs'' dm'' L'' := by
  refine ⟨h.loc.trans h'.loc, h.grow.trans h'.grow, ?_, ?_, h.count.trans h'.count, ?_⟩
  · obtain ⟨ha, hf, hd⟩ := h.fields
    obtain ⟨ha', hf', hd'⟩ := h'.fields
    exact ⟨ha'.trans ha, hf'.trans hf, hd'.trans hd⟩
  · have := h.free
    have := h'.free
    omega
  · have hsum := Finset.sum_Ico_consecutive needAt h.count h'.count
    have h1 := h.pool
    have h2 := h'.pool
    unfold inodesBetween at *
    omega

/-- The chain before fits in the chain after. -/
theorem Growth.length_le (h : Growth fs dm L fs' dm' L') (n : Nat) : L.length * n ≤ L'.length * n :=
  Nat.mul_le_mul_right n h.grow.length_le

theorem Ext.refl (hb : BitmapOk fs) (h : FileOk fs dm L) : Ext fs dm L fs dm L where
  loc := Local.refl hb h
  grow := List.prefix_refl L
  fields := ⟨rfl, rfl, rfl⟩
  free := rfl
  count := Nat.le_refl _
  pool := by simp [inodesBetween]
  bytes := fun _ hj => (if_pos hj).symm

theorem Ext.trans (h : Ext fs dm L fs' dm' L') (h' : Ext fs' dm' L' fs'' dm'' L'') :
    Ext fs dm L fs'' dm'' L'' := by
  have hbytes' := h'.bytes
  rw [h.loc.superBlock] at hbytes'
  refine ⟨h.toGrowth.trans h'.toGrowth, fun j hj => ?_⟩
  rw [hbytes' j hj]
  split
  · rename_i hlt
    exact h.bytes j hlt
  · rename_i hge
    have := h.length_le fs.superBlock.bytsPerClus
    rw [if_neg (by omega)]

/-- The position of the file is not part of it. -/
theorem FileOk.setCur (h : FileOk fs dm L) (cur cnt : Nat) :
    FileOk fs { dm with curClus := cur, clusCnt := cnt } L :=
  ⟨h.chain, h.first, h.pos, h.count, h.cached, h.inodeOk⟩

theorem Ext.setCur (hb : BitmapOk fs) (h : FileOk fs dm L) (cur cnt : Nat) :
    Ext fs dm L fs { dm with curClus := cur, clusCnt := cnt } L :=
  ⟨⟨⟨rfl, hb, h.setCur cur cnt, (Local.refl hb h).clusters, (Local.refl hb h).grown, (Local.refl hb h).pool,
    (Local.refl hb h).owns, (Local.refl hb h).calls⟩, List.prefix_refl L, ⟨rfl, rfl, rfl⟩, rfl, Nat.le_refl _,
    by simp [inodesBetween]⟩, fun _ hj => (if_pos hj).symm⟩

/-! ## A new cluster -/

/-- The bytes of the data clusters after `allocClus`. -/
theorem Allocated.byteAt_clus (h : Allocated fs c fs') (hok : fs.superBlock.Ok) (hc : fs.superBlock.InRange c)
    {x i : Nat} (hx : fs.superBlock.InRange x) (hi : i < fs.superBlock.bytsPerClus) :
    byteAt fs'.disk (clusAddr fs.superBlock x + i) =
      if x = c then 0 else byteAt fs.disk (clusAddr fs.superBlock x + i) := by
  rw [h.byte _ (data_clusAddr _ _ _)]
  by_cases hxc : x = c
  · subst hxc
    rw [if_pos ⟨by omega, by omega⟩, if_pos rfl]
  · rw [if_neg hxc]
    refine if_neg fun hin => ?_
    rcases clusAddr_disjoint hok hx hc hxc with hle | hle <;> omega

theorem Allocated.freeClusters (h : Allocated fs c fs') (hc : fs.superBlock.InRange c) :
    freeClusters fs' + 1 = Fat.freeClusters fs := by
  have hr := hc.2
  unfold Fat.freeClusters
  rw [h.superBlock, h.bitmap]
  exact Bitmap.freeCount_set hc.1 (by omega) h.was_free

/-- The pool does not see cluster operations. -/
theorem inodeOk_congr {item : Nat → Nat} {k : Nat} (h : InodeOk fs item k) (hi : fs'.inodes = fs.inodes)
    (hm : fs'.inodeBitmap = fs.inodeBitmap) : InodeOk fs' item k :=
  ⟨fun key hl => by rw [hi, hm]; exact h.used key hl, fun key key' hl hl' => by rw [hi]; exact h.inj key key' hl hl'⟩

theorem owns_congr {item : Nat → Nat} {k x : Nat} (hi : fs'.inodes = fs.inodes) :
    Owns fs' item k x ↔ Owns fs item k x := by
  unfold Owns
  rw [hi]

/-- The call of `allocClus` that returned a free cluster. -/
theorem Allocated.calls (h : Allocated fs c fs') (hb : BitmapOk fs) (hc : fs.superBlock.InRange c) (L : List Nat) :
    ∃ calls, fs'.allocLog = fs.allocLog ++ calls ∧ ∀ call ∈ calls, call.Ok fs.superBlock ∧
      (call.cluster ∈ L ∨ Bitmap.get fs.clusterBitmap call.cluster = false) := by
  have hzero : fatEntry fs c = 0 := by
    by_contra hne
    have := (hb.bit c hc).mpr hne
    rw [h.was_free] at this
    exact Bool.noConfusion this
  refine ⟨_, h.log, fun call hcall => ?_⟩
  obtain rfl := List.mem_singleton.mp hcall
  exact ⟨⟨hc, rfl, hzero⟩, .inr h.was_free⟩

/-- A marked cluster is not the new one. -/
theorem Allocated.ne (h : Allocated fs c fs') {x : Nat} (hx : Bitmap.get fs.clusterBitmap x = true) : x ≠ c := by
  rintro rfl
  rw [h.was_free] at hx
  exact Bool.noConfusion hx

theorem Allocated.bitmapOk (h : Allocated fs c fs') (hok : fs.superBlock.Ok) (hb : BitmapOk fs) : BitmapOk fs' := by
  refine ⟨?_, ?_, fun x hx => ?_⟩
  · rw [h.bitmap]
    exact get_set_of_true c hb.zero
  · rw [h.bitmap]
    exact get_set_of_true c hb.one
  · rw [h.superBlock] at hx
    rw [h.bitmap, Bitmap.get_set, h.entry x (hok.inRange_bounds hx).1]
    by_cases hxc : x = c
    · simp [hxc, FAT32_EOC]
    · simp only [hxc, decide_false, Bool.false_or, if_false]
      exact hb.bit x hx

/-- The other clusters in use after `allocClus`. -/
theorem Allocated.sameCluster (h : Allocated fs c fs') (hok : fs.superBlock.Ok) (hc : fs.superBlock.InRange c)
    {x : Nat} (hx : fs.superBlock.InRange x) (hused : Bitmap.get fs.clusterBitmap x = true) :
    SameCluster fs fs' x := by
  have hne := h.ne hused
  refine ⟨?_, ?_, fun i hi => ?_⟩
  · rw [h.bitmap]
    exact get_set_of_true c hused
  · rw [h.entry x (hok.inRange_bounds hx).1, if_neg hne]
  · rw [h.byteAt_clus hok hc hx hi, if_neg hne]

/-- The first cluster of an empty file. -/
theorem ext_start (hok : fs.superBlock.Ok) (hb : BitmapOk fs) (h : FileOk fs dm []) (hc : fs.superBlock.InRange c)
    (ha : Allocated fs c fs') : Ext fs dm [] fs' { dm.start c with clusCnt := 0 } [c] := by
  have hlive : ∀ {k : Nat} {key : InodeKey}, k ≤ 1 → ¬ InodeKey.Live k key := by
    intro k key hk hl
    have := hl.2
    cases key <;> simp only [InodeKey.start] at this <;> omega
  have hk : dm.inodeMaxCluster ≤ 1 := by simpa using h.count
  have hentry : fatEntry fs' c = FAT32_EOC + 7 := by
    rw [ha.entry c (hok.inRange_bounds hc).1, if_pos rfl]
  refine ⟨⟨⟨ha.superBlock, ha.bitmapOk hok hb, ⟨?_, rfl, fun _ => Nat.one_pos, Nat.le_max_right _ _, ?_, ?_, ?_⟩, ?_, ?_,
    ?_, ?_, ha.calls hb hc []⟩, List.nil_prefix, ⟨rfl, rfl, rfl⟩, ?_, hk, ?_⟩, ?_⟩
  · exact isChain_singleton (by rw [ha.superBlock]; exact hc) (by rw [hentry]; omega)
  · intro i x hi _ hx
    obtain rfl : i = 0 := by simp only [DirMeta.start] at hi; omega
    obtain rfl : c = x := by simpa using hx
    rw [cachedClus_first (by omega)]
    simp [DirMeta.start, DirMeta.setItem]
  · exact fun key hl => (hlive (Nat.le_refl 1) hl).elim
  · exact fun key _ hl => (hlive (Nat.le_refl 1) hl).elim
  · exact fun x hx hused _ => ha.sameCluster hok hc hx hused
  · intro x hx
    rw [List.mem_singleton.mp hx]
    exact .inr ha.was_free
  · intro x hx _
    rw [ha.inodeBitmap, ha.inodes]
    exact ⟨hx, rfl⟩
  · rintro x ⟨key, hl, -⟩
    exact (hlive (Nat.le_refl 1) hl).elim
  · have := ha.freeClusters hc
    simpa using this
  · have hzero : inodesBetween dm.inodeMaxCluster 1 = 0 := by
      refine Finset.sum_eq_zero fun pos hpos => ?_
      have := (Finset.mem_Ico.mp hpos).2
      obtain rfl : pos = 0 := by omega
      rfl
    show freeInodes fs' + inodesBetween dm.inodeMaxCluster 1 = freeInodes fs
    rw [hzero]
    unfold freeInodes
    rw [ha.inodeBitmap]
    rfl
  · intro j hj
    have hj' : j < fs.superBlock.bytsPerClus := by simpa using hj
    unfold chainByte
    rw [ha.superBlock, Nat.div_eq_of_lt hj', Nat.mod_eq_of_lt hj', if_neg (by simp)]
    show byteAt fs'.disk (clusAddr fs.superBlock c + j) = 0
    rw [ha.byteAt_clus hok hc hc hj', if_pos rfl]

/-! ## One turn -/

/-- The volume after a new cluster `c` was linked behind `cur`. -/
theorem Allocated.fatEntry_link (h : Allocated fs c fs') (hok : fs.superBlock.Ok) (hc : fs.superBlock.InRange c)
    {cur x : Nat} (hx : fs.superBlock.InRange x) :
    fatEntry (storeEntry fs' cur c) x = if x = cur then c else if x = c then FAT32_EOC + 7 else fatEntry fs x := by
  have hlt : c < 2 ^ 32 := by
    have := (hok.inRange_bounds hc).2
    have heoc : FAT32_EOC = 0x0ffffff8 := rfl
    omega
  rw [fatEntry_storeEntry hlt, h.entry x (hok.inRange_bounds hx).1]

/-- A cluster just allocated becomes the end of a chain. -/
theorem Allocated.isChain_link (ha : Allocated fs c fs') (hok : fs.superBlock.Ok) (hb : BitmapOk fs)
    (hc : fs.superBlock.InRange c) (h : IsChain fs L) {cur : Nat} (hcur : L.getLast? = some cur) :
    IsChain (storeEntry fs' cur c) (L ++ [c]) := by
  have hcurL : cur ∈ L := List.mem_of_getLast? hcur
  have hnc : ∀ x ∈ L, x ≠ c := fun x hx => ha.ne (h.used hb hx)
  have hentry : ∀ x ∈ L, fatEntry (storeEntry fs' cur c) x = if x = cur then c else fatEntry fs x := by
    intro x hx
    rw [ha.fatEntry_link hok hc (h.inRange x hx), if_neg (hnc x hx)]
  refine ⟨?_, ?_, ?_, ?_⟩
  · intro x hx
    show fs'.superBlock.InRange x
    rw [ha.superBlock]
    rcases List.mem_append.mp hx with hx | hx
    · exact h.inRange x hx
    · rw [List.mem_singleton.mp hx]
      exact hc
  · refine List.nodup_append.mpr ⟨h.nodup, List.nodup_singleton c, fun x hx y hy => ?_⟩
    rw [List.mem_singleton.mp hy]
    exact hnc x hx
  · intro i x y hx hy
    have hilt : i + 1 < (L ++ [c]).length := (List.getElem?_eq_some_iff.mp hy).1
    rw [List.length_append, List.length_singleton] at hilt
    rw [List.getElem?_append_left (by omega)] at hx
    have hxL := List.mem_of_getElem? hx
    rw [hentry x hxL]
    by_cases hlast : i + 1 < L.length
    · rw [List.getElem?_append_left hlast] at hy
      rw [if_neg]
      · exact h.next i x y hx hy
      · -- the last cluster stands at one place only
        rintro rfl
        rw [List.getLast?_eq_getElem?] at hcur
        have := (List.getElem?_inj (by omega) h.nodup).mp (hx.trans hcur.symm)
        omega
    · have hi : i + 1 = L.length := by omega
      rw [hi, List.getElem?_concat_length] at hy
      rw [List.getLast?_eq_getElem?, ← hi, Nat.add_sub_cancel, hx] at hcur
      rw [if_pos (Option.some.inj hcur)]
      exact Option.some.inj hy
  · intro x hx
    rw [List.getLast?_concat] at hx
    obtain rfl := Option.some.inj hx
    rw [ha.fatEntry_link hok hc hc, if_neg (hnc cur hcurL).symm, if_pos rfl]
    omega

/-- Linking a new cluster behind the last one. -/
theorem ext_link (hok : fs.superBlock.Ok) (hb : BitmapOk fs) (h : FileOk fs dm L) (hc : fs.superBlock.InRange c)
    (ha : Allocated fs c fs') {cur : Nat} (hcur : L.getLast? = some cur) :
    Ext fs dm L (storeEntry fs' cur c) dm (L ++ [c]) := by
  have hcurL : cur ∈ L := List.mem_of_getLast? hcur
  have hcurR := h.chain.inRange cur hcurL
  have hne : L ≠ [] := List.ne_nil_of_mem hcurL
  have hcount := h.le_length hne
  have hbpc := hok.bpc_pos
  have hbyte : ∀ {x i : Nat}, fs.superBlock.InRange x → i < fs.superBlock.bytsPerClus →
      byteAt (storeEntry fs' cur c).disk (clusAddr fs.superBlock x + i) =
        if x = c then 0 else byteAt fs.disk (clusAddr fs.superBlock x + i) := by
    intro x i hx hi
    have hok' : fs'.superBlock.Ok := by rw [ha.superBlock]; exact hok
    rw [byteAt_storeEntry hok' (by rw [ha.superBlock]; exact (hok.inRange_bounds hcurR).1)
      (by rw [ha.superBlock]; exact data_clusAddr _ _ _)]
    exact ha.byteAt_clus hok hc hx hi
  refine ⟨⟨⟨ha.superBlock, ?_, ⟨ha.isChain_link hok hb hc h.chain hcur, ?_, fun _ => h.pos hne, ?_, ?_, ?_⟩, ?_, ?_, ?_, ?_,
    ha.calls hb hc L⟩, List.prefix_append L [c], ⟨rfl, rfl, rfl⟩, ?_, Nat.le_refl _, ?_⟩, ?_⟩
  · have hb' := ha.bitmapOk hok hb
    refine ⟨hb'.zero, hb'.one, fun x hx => ?_⟩
    have hx' : fs.superBlock.InRange x := by rw [← ha.superBlock]; exact hx
    rw [ha.fatEntry_link hok hc hx']
    by_cases hxc : x = cur
    · rw [if_pos hxc]
      refine ⟨fun _ => ?_, fun _ => ?_⟩
      · have := hc.1
        omega
      · show Bitmap.get fs'.clusterBitmap x = true
        rw [ha.bitmap, hxc]
        exact get_set_of_true c (h.chain.used hb hcurL)
    · rw [if_neg hxc, ← ha.entry x (hok.inRange_bounds hx').1]
      exact hb'.bit x hx
  · rw [h.first]
    cases L with
    | nil => exact absurd rfl hne
    | cons x L => rfl
  · rw [List.length_append]
    omega
  · intro i x hi ht hx
    rw [List.getElem?_append_left (by omega)] at hx
    show cachedClus fs'.inodes dm.item i = x
    rw [ha.inodes]
    exact h.cached i x hi ht hx
  · exact inodeOk_congr h.inodeOk ha.inodes ha.inodeBitmap
  · intro x hx hused hxL
    obtain ⟨h1, h2, -⟩ := ha.sameCluster hok hc hx hused
    have hxc : x ≠ cur := fun heq => hxL (heq ▸ hcurL)
    refine ⟨h1, ?_, fun i hi => ?_⟩
    · rw [ha.fatEntry_link hok hc hx, if_neg hxc, if_neg (ha.ne hused)]
    · rw [hbyte hx hi, if_neg (ha.ne hused)]
  · intro x hx
    rcases List.mem_append.mp hx with hx | hx
    · exact .inl hx
    · rw [List.mem_singleton.mp hx]
      exact .inr ha.was_free
  · intro x hx _
    show Bitmap.get fs'.inodeBitmap x = true ∧ fs'.inodes x = fs.inodes x
    rw [ha.inodeBitmap, ha.inodes]
    exact ⟨hx, rfl⟩
  · intro x hx
    exact .inl ((owns_congr ha.inodes).mp hx)
  · have := ha.freeClusters hc
    rw [List.length_append, List.length_singleton]
    show freeClusters fs' + _ = _
    omega
  · show freeInodes fs' + inodesBetween _ _ = _
    unfold freeInodes
    rw [ha.inodeBitmap]
    simp [inodesBetween]
  · intro j hj
    have hidx : j / fs.superBlock.bytsPerClus < (L ++ [c]).length := (Nat.div_lt_iff_lt_mul hbpc).mpr hj
    have hmod := Nat.mod_lt j hbpc
    have hsb : (storeEntry fs' cur c).superBlock = fs.superBlock := ha.superBlock
    unfold chainByte
    rw [hsb]
    split
    · rename_i hlt
      have hidx' : j / fs.superBlock.bytsPerClus < L.length := (Nat.div_lt_iff_lt_mul hbpc).mpr hlt
      have hmem : L.getD (j / fs.superBlock.bytsPerClus) 0 ∈ L := by
        rw [List.getD_eq_getElem _ _ hidx']
        exact List.getElem_mem hidx'
      rw [List.getD_append _ _ _ _ hidx', hbyte (h.chain.inRange _ hmem) hmod, if_neg (ha.ne (h.chain.used hb hmem))]
    · rename_i hge
      have hlen : j / fs.superBlock.bytsPerClus = L.length := by
        have hle : ¬ j / fs.superBlock.bytsPerClus < L.length := fun hlt => hge ((Nat.div_lt_iff_lt_mul hbpc).mp hlt)
        rw [List.length_append, List.length_singleton] at hidx
        omega
      rw [hlen, List.getD_append_right _ _ _ _ (Nat.le_refl _), Nat.sub_self]
      show byteAt _ (clusAddr _ c + _) = 0
      rw [hbyte hc hmod, if_pos rfl]

/-- Caching the next position of the chain. -/
theorem ext_cache (hb : BitmapOk fs) (h : FileOk fs dm L) (hc : L[dm.inodeMaxCluster]? = some c)
    (hs : CacheStep fs dm c fs' dm') : Ext fs dm L fs' dm' L := by
  obtain ⟨⟨inodes', bm', hfs⟩, ⟨item', hdm⟩, hgrow, hcached, hcount⟩ := hs
  have hk : dm'.inodeMaxCluster = dm.inodeMaxCluster + 1 := by rw [hdm]; rfl
  have hlt : dm.inodeMaxCluster < L.length := (List.getElem?_eq_some_iff.mp hc).1
  have hsb : fs'.superBlock = fs.superBlock := by rw [hfs]
  have hentry : ∀ x, fatEntry fs' x = fatEntry fs x := fun x => by rw [hfs]; rfl
  have hbm : fs'.clusterBitmap = fs.clusterBitmap := by rw [hfs]
  have hdisk : fs'.disk = fs.disk := by rw [hfs]
  refine ⟨⟨⟨hsb, ⟨?_, ?_, fun x hx => ?_⟩, ⟨h.chain.congr hsb fun x _ => hentry x, ?_, ?_, ?_, ?_, ?_⟩, ?_,
    fun x hx => .inl hx, ?_, ?_, ⟨[], ?_, fun _ hx => absurd hx List.not_mem_nil⟩⟩, List.prefix_refl L, ?_, ?_, ?_, ?_⟩, ?_⟩
  · rw [hbm]
    exact hb.zero
  · rw [hbm]
    exact hb.one
  · rw [hsb] at hx
    rw [hbm, hentry]
    exact hb.bit x hx
  · rw [hdm]
    exact h.first
  · intro _
    omega
  · omega
  · intro i x hi ht hx
    rw [hk] at hi
    by_cases hold : i < dm.inodeMaxCluster
    · rw [hgrow.same.cachedClus hold ht]
      exact h.cached i x hold ht hx
    · obtain rfl : i = dm.inodeMaxCluster := by omega
      rw [hcached ht]
      exact Option.some.inj (hc.symm.trans hx)
  · rw [hk]
    exact hgrow.inodeOk h.inodeOk
  · intro x _ hused _
    exact ⟨by rw [hbm]; exact hused, hentry x, fun i _ => by rw [hdisk]⟩
  · intro x hx hown
    exact ⟨hgrow.used x hx, hgrow.others x hx hown⟩
  · intro x hx
    rw [hk] at hx
    exact hgrow.owns hx
  · rw [hfs, List.append_nil]
  · rw [hdm]
    exact ⟨rfl, rfl, rfl⟩
  · unfold freeClusters
    rw [hsb, hbm]
  · omega
  · rw [hk, inodesBetween_one]
    exact hcount
  · intro j hj
    rw [if_pos hj]
    unfold chainByte
    rw [hsb, hdisk]

/-- The position stands on the last cached cluster. -/
structure AtEnd (dm : DirMeta) (L : List Nat) : Prop where
  cnt : dm.clusCnt + 1 = dm.inodeMaxCluster
  cur : L[dm.clusCnt]? = some dm.curClus

theorem AtEnd.ne_nil (h : AtEnd dm L) : L ≠ [] := by
  rintro rfl
  have := h.cur
  simp at this

/-- An end mark, read as an `int`, is at least `FAT32_EOC`; the number of a data cluster is less. -/
theorem isEoc_last {x : Nat} (h : FAT32_EOC ≤ x ∧ x ≤ FAT32_EOC + 7) : isEoc x = true := by
  have heoc : FAT32_EOC = 0x0ffffff8 := rfl
  unfold isEoc
  rw [decide_eq_true_eq]
  omega

theorem isEoc_inRange (hok : fs.superBlock.Ok) (hc : fs.superBlock.InRange c) : isEoc c = false := by
  have := (hok.inRange_bounds hc).2
  unfold isEoc
  rw [decide_eq_false_iff_not]
  omega

/-- The next cluster of a file, on the chain. -/
theorem nextClus_mid (hok : fs.superBlock.Ok) (h : FileOk fs dm L) (hat : AtEnd dm L) (alloc : Bool)
    (hlt : dm.inodeMaxCluster < L.length) :
    ∃ c, L[dm.inodeMaxCluster]? = some c ∧ nextClus alloc fs dm.curClus = .ok (some (c, fs)) := by
  obtain ⟨c, hc⟩ : ∃ c, L[dm.inodeMaxCluster]? = some c := ⟨_, List.getElem?_eq_getElem hlt⟩
  have hcur := h.chain.inRange _ (List.mem_of_getElem? hat.cur)
  have hcR := h.chain.inRange _ (List.mem_of_getElem? hc)
  refine ⟨c, hc, ?_⟩
  rw [← hat.cnt] at hc
  unfold nextClus
  rw [readFat_eq hok hcur.2, h.chain.next _ _ _ hat.cur hc]
  simp only [isEoc_inRange hok hcR]
  rfl

/-- The next cluster of a file, behind the chain. -/
theorem nextClus_end (hok : fs.superBlock.Ok) (h : FileOk fs dm L) (hat : AtEnd dm L)
    (hlen : dm.inodeMaxCluster = L.length) :
    L.getLast? = some dm.curClus ∧ nextClus true fs dm.curClus =
      (allocClus fs).bind fun r => .ok (some (r.1, writeFat r.2 dm.curClus r.1)) := by
  have hcnt := hat.cnt
  have hlast : L.getLast? = some dm.curClus := by
    rw [List.getLast?_eq_getElem?, show L.length - 1 = dm.clusCnt by omega]
    exact hat.cur
  have hcur := h.chain.inRange _ (List.mem_of_getElem? hat.cur)
  refine ⟨hlast, ?_⟩
  unfold nextClus
  rw [readFat_eq hok hcur.2]
  simp only [isEoc_last (h.chain.last _ hlast)]
  rfl

/-- A free data cluster makes `allocClus` return one. -/
theorem exists_allocated (hok : fs.superBlock.Ok) (hb : BitmapOk fs) (hfree : 0 < freeClusters fs) :
    ∃ c fs', allocClus fs = .ok (c, fs') ∧ fs.superBlock.InRange c ∧ Allocated fs c fs' := by
  obtain ⟨x, hx, hlt, hclear⟩ := Bitmap.exists_clear hfree
  obtain ⟨c, fs', ha, hc⟩ := exists_allocClus hok ⟨hx, by omega⟩ hclear hb.zero hb.one
  exact ⟨c, fs', ha, hc, allocClus_allocated hok ha hc⟩

/-- One turn of `relocClus`: the chain reaches past the cached positions, and the next is cached. -/
theorem relocLoop_succ (hok : fs.superBlock.Ok) (hb : BitmapOk fs) (h : FileOk fs dm L) (hat : AtEnd dm L)
    (hroom : dm.inodeMaxCluster < L.length + freeClusters fs) :
    ∃ fs₀ c L₀, Ext fs dm L fs₀ dm L₀ ∧ L₀[dm.inodeMaxCluster]? = some c ∧
      L₀.length = max L.length (dm.inodeMaxCluster + 1) ∧ freeInodes fs₀ = freeInodes fs ∧
      ∀ n, relocLoop true (n + 1) fs dm =
        (metaCacheInode fs₀ { dm with curClus := c, clusCnt := dm.clusCnt + 1 } c).bind fun p =>
          relocLoop true n p.1 p.2 := by
  have hcount := h.le_length hat.ne_nil
  by_cases hlt : dm.inodeMaxCluster < L.length
  · obtain ⟨c, hc, hnext⟩ := nextClus_mid hok h hat true hlt
    refine ⟨fs, c, L, Ext.refl hb h, hc, by omega, rfl, fun n => ?_⟩
    rw [relocLoop, hnext]
    rfl
  · have hlen : dm.inodeMaxCluster = L.length := by omega
    obtain ⟨hlast, hnext⟩ := nextClus_end hok h hat hlen
    obtain ⟨c, fs₁, ha, hc, hall⟩ := exists_allocated hok hb (by omega)
    have hcur := h.chain.inRange _ (List.mem_of_getLast? hlast)
    have hok₁ : fs₁.superBlock.Ok := by rw [hall.superBlock]; exact hok
    have hwrite : writeFat fs₁ dm.curClus c = storeEntry fs₁ dm.curClus c :=
      writeFat_eq hok₁ (by rw [hall.superBlock]; exact hcur.2) c
    refine ⟨storeEntry fs₁ dm.curClus c, c, L ++ [c], ext_link hok hb h hc hall hlast, ?_, ?_, ?_, fun n => ?_⟩
    · rw [hlen]
      exact List.getElem?_concat_length
    · rw [List.length_append, List.length_singleton]
      omega
    · show freeInodes fs₁ = freeInodes fs
      unfold freeInodes
      rw [hall.inodeBitmap]
    · rw [relocLoop, hnext, ha, ← hwrite]
      rfl

/-- The cached position becomes the position of the file. -/
theorem ext_turn {fs₀ : FileSystem} {L₀ : List Nat} (hb : BitmapOk fs₀) (h : FileOk fs₀ dm L₀) (hat : AtEnd dm L)
    (hc : L₀[dm.inodeMaxCluster]? = some c)
    (hok : metaCacheInode fs₀ { dm with curClus := c, clusCnt := dm.clusCnt + 1 } c = .ok (fs', dm')) :
    Ext fs₀ dm L₀ fs' dm' L₀ ∧ AtEnd dm' L₀ ∧ dm'.inodeMaxCluster = dm.inodeMaxCluster + 1 := by
  have h₁ := h.setCur c (dm.clusCnt + 1)
  obtain ⟨-, hs⟩ := metaCacheInode_ok h₁.inodeOk hok
  have he := (Ext.setCur hb h c (dm.clusCnt + 1)).trans (ext_cache hb h₁ hc hs)
  obtain ⟨item', hdm⟩ := hs.file
  have hcnt := hat.cnt
  refine ⟨he, ⟨?_, ?_⟩, ?_⟩
  · rw [hdm]
    show dm.clusCnt + 1 + 1 = dm.inodeMaxCluster + 1
    omega
  · rw [hdm]
    rw [hcnt]
    exact hc
  · rw [hdm]
    rfl

/-- What the loop of `relocClus` leaves behind after `n` turns. -/
structure Relocated (fs : FileSystem) (dm : DirMeta) (L : List Nat) (n : Nat) (fs' : FileSystem) (dm' : DirMeta)
    (L' : List Nat) : Prop where
  ext : Ext fs dm L fs' dm' L'
  atEnd : AtEnd dm' L'
  count : dm'.inodeMaxCluster = dm.inodeMaxCluster + n
  length : L'.length = max L.length (dm.inodeMaxCluster + n)

/-- One turn more in front. -/
theorem Relocated.cons {fs₁ : FileSystem} {dm₁ : DirMeta} {L₁ : List Nat} {n : Nat} (he : Ext fs dm L fs₁ dm₁ L₁)
    (hk : dm₁.inodeMaxCluster = dm.inodeMaxCluster + 1) (hlen : L₁.length = max L.length (dm.inodeMaxCluster + 1))
    (h : Relocated fs₁ dm₁ L₁ n fs' dm' L') : Relocated fs dm L (n + 1) fs' dm' L' := by
  have hcount := h.count
  have hlength := h.length
  exact ⟨he.trans h.ext, h.atEnd, by omega, by omega⟩

/-- **The loop of `relocClus`**, when it returns. -/
theorem relocLoop_ok (n : Nat) {r : Option Unit} (hok : fs.superBlock.Ok) (hb : BitmapOk fs) (h : FileOk fs dm L)
    (hat : AtEnd dm L) (hroom : dm.inodeMaxCluster + n ≤ L.length + freeClusters fs)
    (hr : relocLoop true n fs dm = .ok (r, fs', dm')) :
    r = some () ∧ ∃ L', Relocated fs dm L n fs' dm' L' := by
  induction n generalizing fs dm L with
  | zero =>
    have heq := Prod.mk.inj (Except.ok.inj hr)
    obtain ⟨rfl, rfl⟩ := Prod.mk.inj heq.2
    have := h.le_length hat.ne_nil
    exact ⟨heq.1.symm, L, Ext.refl hb h, hat, rfl, by omega⟩
  | succ n ih =>
    obtain ⟨fs₀, c, L₀, he₀, hc, hlen, -, heq⟩ := relocLoop_succ hok hb h hat (by omega)
    rw [heq] at hr
    obtain ⟨⟨fs₁, dm₁⟩, hcache, hr⟩ := except_bind_ok hr
    obtain ⟨he₁, hat₁, hk₁⟩ := ext_turn he₀.loc.bitmapOk he₀.loc.fileOk hat hc hcache
    have he := he₀.trans he₁
    have hfree := he.free
    obtain ⟨hr', L', hreloc⟩ := ih (by rw [he.loc.superBlock]; exact hok) he.loc.bitmapOk he.loc.fileOk hat₁
      (by omega) hr
    exact ⟨hr', L', hreloc.cons he hk₁ hlen⟩

/-- The loop returns where clusters and pool inodes suffice. -/
theorem exists_relocLoop (n : Nat) (hok : fs.superBlock.Ok) (hb : BitmapOk fs) (h : FileOk fs dm L)
    (hat : AtEnd dm L) (hroom : dm.inodeMaxCluster + n ≤ L.length + freeClusters fs)
    (hpool : inodesBetween dm.inodeMaxCluster (dm.inodeMaxCluster + n) ≤ freeInodes fs) :
    ∃ r, relocLoop true n fs dm = .ok r := by
  induction n generalizing fs dm L with
  | zero => exact ⟨_, rfl⟩
  | succ n ih =>
    obtain ⟨fs₀, c, L₀, he₀, hc, hlen, hinodes, heq⟩ := relocLoop_succ hok hb h hat (by omega)
    rw [inodesBetween_head (by omega)] at hpool
    obtain ⟨⟨fs₁, dm₁⟩, hcache⟩ := exists_metaCacheInode_need fs₀ { dm with curClus := c, clusCnt := dm.clusCnt + 1 } c hat.cnt
      (by show needAt dm.inodeMaxCluster ≤ _; omega)
    obtain ⟨he₁, hat₁, hk₁⟩ := ext_turn he₀.loc.bitmapOk he₀.loc.fileOk hat hc hcache
    have he := he₀.trans he₁
    have hfree := he.free
    have hused := he.pool
    rw [hk₁, inodesBetween_one] at hused
    rw [heq, hcache]
    show ∃ r, relocLoop true n fs₁ dm₁ = .ok r
    refine ih (by rw [he.loc.superBlock]; exact hok) he.loc.bitmapOk he.loc.fileOk hat₁ (by omega) ?_
    rw [hk₁, Nat.add_assoc, Nat.add_comm 1 n]
    omega

/-! ## `relocClus` -/

/-- The assertions at the head of `relocClus` hold of a file with clusters. -/
theorem FileOk.asserts (h : FileOk fs dm L) (hne : L ≠ []) :
    ¬ (dm.firstClus = 0 ∨ dm.inodeMaxCluster = 0 ∨ dm.firstClus ≠ dm.item 0) := by
  have hpos := h.pos hne
  cases L with
  | nil => exact absurd rfl hne
  | cons c L =>
    have hfirst : dm.firstClus = c := h.first
    have hc := h.chain.inRange c (List.mem_cons_self ..)
    have hitem := h.cached 0 c hpos (by decide) rfl
    rw [cachedClus_first (by omega)] at hitem
    have := hc.1
    omega

/-- What `relocClus` with `alloc` does to reach position `num`. -/
structure Reached (fs : FileSystem) (dm : DirMeta) (L : List Nat) (num : Nat) (fs' : FileSystem) (dm' : DirMeta)
    (L' : List Nat) : Prop where
  ext : Ext fs dm L fs' dm' L'
  cur : L'[num]? = some dm'.curClus
  count : dm'.inodeMaxCluster = max dm.inodeMaxCluster (num + 1)
  length : L'.length = max L.length (num + 1)

/-- A position of the cache becomes the position of the file. -/
theorem reached_cached (hb : BitmapOk fs) (h : FileOk fs dm L) (hne : L ≠ []) {num : Nat}
    (hnum : num < dm.inodeMaxCluster) (hr : metaFindInode fs dm num = .ok dm') : Reached fs dm L num fs dm' L := by
  have hle := h.le_length hne
  obtain ⟨c, hc⟩ : ∃ c, L[num]? = some c := ⟨_, List.getElem?_eq_getElem (by omega)⟩
  unfold metaFindInode at hr
  split at hr
  · rename_i hlt
    obtain rfl := Except.ok.inj hr
    refine ⟨Ext.setCur hb h _ _, ?_, ?_, ?_⟩
    · show L[num]? = some (cachedClus fs.inodes dm.item num)
      rw [h.cached num c hnum hlt.2 hc]
      exact hc
    · show dm.inodeMaxCluster = _
      omega
    · omega
  · cases hr

/-- The position at the end of the cache. -/
theorem atEnd_metaFindInode (h : FileOk fs dm L) (hne : L ≠ [])
    (hr : metaFindInode fs dm (dm.inodeMaxCluster - 1) = .ok dm') :
    AtEnd dm' L ∧ ∃ cur cnt, dm' = { dm with curClus := cur, clusCnt := cnt } := by
  have hpos := h.pos hne
  have hle := h.le_length hne
  obtain ⟨c, hc⟩ : ∃ c, L[dm.inodeMaxCluster - 1]? = some c := ⟨_, List.getElem?_eq_getElem (by omega)⟩
  unfold metaFindInode at hr
  split at hr
  · rename_i hlt
    obtain rfl := Except.ok.inj hr
    refine ⟨⟨?_, ?_⟩, _, _, rfl⟩
    · show dm.inodeMaxCluster - 1 + 1 = dm.inodeMaxCluster
      omega
    · show L[dm.inodeMaxCluster - 1]? = some (cachedClus fs.inodes dm.item (dm.inodeMaxCluster - 1))
      rw [h.cached _ c (by omega) hlt.2 hc]
      exact hc
  · cases hr

/-- **`relocClus` with `alloc`**, when it returns. -/
theorem relocClus_ok (hok : fs.superBlock.Ok) (hb : BitmapOk fs) (h : FileOk fs dm L) (hne : L ≠ []) {off : Nat}
    {r : Int} (hroom : off / fs.superBlock.bytsPerClus + 1 ≤ L.length + freeClusters fs)
    (hr : relocClus fs dm off true = .ok (r, fs', dm')) :
    ∃ L', Reached fs dm L (off / fs.superBlock.bytsPerClus) fs' dm' L' := by
  unfold relocClus at hr
  rw [if_neg (h.asserts hne)] at hr
  simp only at hr
  split at hr
  · rename_i hlt
    obtain ⟨dm₁, hfind, hr⟩ := except_bind_ok hr
    cases hr
    exact ⟨L, reached_cached hb h hne hlt hfind⟩
  · rename_i hge
    obtain ⟨dm₁, hfind, hr⟩ := except_bind_ok hr
    obtain ⟨⟨r', fs₂, dm₂⟩, hloop, hr⟩ := except_bind_ok hr
    obtain ⟨hfs, hdm⟩ := Prod.mk.inj (Prod.mk.inj (Except.ok.inj hr)).2
    simp only at hfs hdm
    subst hfs hdm
    obtain ⟨hat, cur, cnt, rfl⟩ := atEnd_metaFindInode h hne hfind
    have hcnt := hat.cnt
    simp only at hcnt
    obtain ⟨-, L', hreloc⟩ := relocLoop_ok _ hok hb (h.setCur cur cnt) hat
      (by show dm.inodeMaxCluster + (_ - cnt) ≤ _; omega) hloop
    have hk := hreloc.count
    have hlen := hreloc.length
    have hcnt₂ := hreloc.atEnd.cnt
    simp only at hk hlen
    refine ⟨L', (Ext.setCur hb h cur cnt).trans hreloc.ext, ?_, by omega, by omega⟩
    rw [show off / fs.superBlock.bytsPerClus = dm₂.clusCnt by omega]
    exact hreloc.atEnd.cur

/-- On a position that is cached `relocClus` returns. -/
theorem exists_relocClus_cached (h : FileOk fs dm L) (hne : L ≠ []) {off : Nat} (alloc : Bool)
    (hlt : off / fs.superBlock.bytsPerClus < dm.inodeMaxCluster) (htop : off / fs.superBlock.bytsPerClus < INODE_THIRD_LEVEL_TOP) :
    ∃ r, relocClus fs dm off alloc = .ok r := by
  unfold relocClus metaFindInode
  rw [if_neg (h.asserts hne)]
  rw [if_pos hlt, if_pos ⟨hlt, htop⟩]
  exact ⟨_, rfl⟩

/-- From a position that is not cached it goes on at the end of those that are. -/
theorem relocClus_uncached (h : FileOk fs dm L) (hne : L ≠ []) {off : Nat} (alloc : Bool)
    (hge : ¬ off / fs.superBlock.bytsPerClus < dm.inodeMaxCluster) (htop : dm.inodeMaxCluster ≤ INODE_THIRD_LEVEL_TOP) :
    ∃ cur cnt, AtEnd { dm with curClus := cur, clusCnt := cnt } L ∧
      dm.inodeMaxCluster + (off / fs.superBlock.bytsPerClus - cnt) = off / fs.superBlock.bytsPerClus + 1 ∧
      relocClus fs dm off alloc =
        (relocLoop alloc (off / fs.superBlock.bytsPerClus - cnt) fs { dm with curClus := cur, clusCnt := cnt }).bind fun r =>
          .ok (if r.1.isSome then ((off % fs.superBlock.bytsPerClus : Nat) : Int) else -1, r.2) := by
  have hk := h.pos hne
  obtain ⟨dm₁, hdm₁⟩ : ∃ dm₁, metaFindInode fs dm (dm.inodeMaxCluster - 1) = .ok dm₁ := ⟨_, if_pos ⟨by omega, by omega⟩⟩
  obtain ⟨hat, cur, cnt, rfl⟩ := atEnd_metaFindInode h hne hdm₁
  have hcnt := hat.cnt
  simp only at hcnt
  refine ⟨cur, cnt, hat, by omega, ?_⟩
  unfold relocClus
  rw [if_neg (h.asserts hne)]
  rw [if_neg hge, hdm₁]
  rfl

/-- `relocClus` returns where clusters and pool inodes suffice. -/
theorem exists_relocClus (hok : fs.superBlock.Ok) (hb : BitmapOk fs) (h : FileOk fs dm L) (hne : L ≠ []) (off : Nat)
    (hroom : off / fs.superBlock.bytsPerClus + 1 ≤ L.length + freeClusters fs)
    (hpos : off / fs.superBlock.bytsPerClus < INODE_THIRD_LEVEL_TOP)
    (hpool : inodesBetween dm.inodeMaxCluster (off / fs.superBlock.bytsPerClus + 1) ≤ freeInodes fs) :
    ∃ r, relocClus fs dm off true = .ok r := by
  by_cases hlt : off / fs.superBlock.bytsPerClus < dm.inodeMaxCluster
  · exact exists_relocClus_cached h hne true hlt hpos
  · obtain ⟨cur, cnt, hat, hlast, heq⟩ := relocClus_uncached h hne true hlt (by omega)
    obtain ⟨r, hloop⟩ := exists_relocLoop (off / fs.superBlock.bytsPerClus - cnt) hok hb (h.setCur cur cnt) hat
      (by show dm.inodeMaxCluster + (_ - cnt) ≤ _; omega)
      (by show inodesBetween dm.inodeMaxCluster (dm.inodeMaxCluster + (_ - cnt)) ≤ _; rw [hlast]; exact hpool)
    rw [heq, hloop]
    exact ⟨_, rfl⟩

end Ext

end Exaros.Fat
