import Exaros.Fat.Contents

/-!
# The inode pool

The caches of all files draw on one pool of inodes. `PoolInv` says that its bitmap marks exactly the
inodes that some file in use refers to, each referred to once. That depends on the caches alone, so
it is proved without the FAT: `PoolStep` says what an operation on one file may do to the pool, and
every operation that returns is such a step.

The exception is `metaFreeInode`. It is called with a cache of any length but gives back all of its
inodes only up to the second level, so what is proved is about runs that empty no longer ones.
-/

namespace Exaros.Fat

/-- What an operation on the file `dm` may do to the pool: the inodes in use by others are kept, and
afterwards the marked inodes are those and the ones of the file. -/
structure PoolStep (fs : FileSystem) (dm : DirMeta) (fs' : FileSystem) (dm' : DirMeta) : Prop where
  inodeOk : InodeOk fs' dm'.item dm'.inodeMaxCluster
  others : ∀ x, Bitmap.get fs.inodeBitmap x = true → ¬ Owns fs dm.item dm.inodeMaxCluster x →
    Bitmap.get fs'.inodeBitmap x = true ∧ fs'.inodes x = fs.inodes x
  owns : ∀ x, Owns fs' dm'.item dm'.inodeMaxCluster x →
    Owns fs dm.item dm.inodeMaxCluster x ∨ Bitmap.get fs.inodeBitmap x = false
  marked : ∀ x, Bitmap.get fs'.inodeBitmap x = true → Owns fs' dm'.item dm'.inodeMaxCluster x ∨
    (Bitmap.get fs.inodeBitmap x = true ∧ ¬ Owns fs dm.item dm.inodeMaxCluster x)

section Step

variable {fs fs' fs'' : FileSystem} {dm dm' dm'' : DirMeta} {src : Nat → Byte}

/-- Steps that leave the pool and the cache alone. -/
theorem PoolStep.of_eq (h : InodeOk fs dm.item dm.inodeMaxCluster) (hi : fs'.inodes = fs.inodes)
    (hb : fs'.inodeBitmap = fs.inodeBitmap) (hitem : dm'.item = dm.item)
    (hk : dm'.inodeMaxCluster = dm.inodeMaxCluster) : PoolStep fs dm fs' dm' := by
  have howns : ∀ x, Owns fs' dm'.item dm'.inodeMaxCluster x ↔ Owns fs dm.item dm.inodeMaxCluster x := fun x => by
    rw [hitem, hk]
    exact owns_congr hi
  refine ⟨by rw [hitem, hk]; exact inodeOk_congr h hi hb, fun x hx _ => ?_, fun x hx => .inl ((howns x).mp hx),
    fun x hx => ?_⟩
  · rw [hb, hi]
    exact ⟨hx, rfl⟩
  · rw [hb] at hx
    rw [howns]
    by_cases ho : Owns fs dm.item dm.inodeMaxCluster x
    · exact .inl ho
    · exact .inr ⟨hx, ho⟩

theorem PoolStep.refl (h : InodeOk fs dm.item dm.inodeMaxCluster) : PoolStep fs dm fs dm :=
  .of_eq h rfl rfl rfl rfl

/-- One step of the pool after another. -/
theorem PoolStep.trans (h : PoolStep fs dm fs' dm') (h' : PoolStep fs' dm' fs'' dm'') : PoolStep fs dm fs'' dm'' := by
  -- an inode in use by another before is so in between
  have hother : ∀ x, Bitmap.get fs.inodeBitmap x = true → ¬ Owns fs dm.item dm.inodeMaxCluster x →
      ¬ Owns fs' dm'.item dm'.inodeMaxCluster x := by
    intro x hx hown ho
    rcases h.owns x ho with ho | hfree
    · exact hown ho
    · rw [hx] at hfree
      exact Bool.noConfusion hfree
  refine ⟨h'.inodeOk, fun x hx hown => ?_, fun x ho => ?_, fun x hx => ?_⟩
  · obtain ⟨hx', hi⟩ := h.others x hx hown
    obtain ⟨hx'', hi'⟩ := h'.others x hx' (hother x hx hown)
    exact ⟨hx'', hi'.trans hi⟩
  · rcases h'.owns x ho with ho' | hfree
    · exact h.owns x ho'
    · by_contra hn
      rw [not_or, Bool.not_eq_false] at hn
      have := (h.others x hn.2 hn.1).1
      rw [hfree] at this
      exact Bool.noConfusion this
  · rcases h'.marked x hx with ho | ⟨hx', hown⟩
    · exact .inl ho
    · exact .inr ((h.marked x hx').resolve_left hown)

/-- A cache without pool inodes replaced by another. -/
theorem PoolStep.of_le_one (hk : dm.inodeMaxCluster ≤ 1) (hk' : dm'.inodeMaxCluster ≤ 1) (hi : fs'.inodes = fs.inodes)
    (hb : fs'.inodeBitmap = fs.inodeBitmap) : PoolStep fs dm fs' dm' := by
  refine ⟨⟨fun key hl => absurd hl (not_live_of_le_one hk'), fun key _ hl => absurd hl (not_live_of_le_one hk')⟩,
    fun x hx _ => ?_, ?_, fun x hx => .inr ⟨?_, ?_⟩⟩
  · rw [hb, hi]
    exact ⟨hx, rfl⟩
  · rintro x ⟨key, hl, -⟩
    exact absurd hl (not_live_of_le_one hk')
  · rw [← hb]
    exact hx
  · rintro ⟨key, hl, -⟩
    exact absurd hl (not_live_of_le_one hk)

/-! ## Caching -/

/-- `metaCacheInode`. -/
theorem poolStep_metaCacheInode (h : InodeOk fs dm.item dm.inodeMaxCluster) {clus : Nat}
    (hr : metaCacheInode fs dm clus = .ok (fs', dm')) : PoolStep fs dm fs' dm' ∧ dm'.firstClus = dm.firstClus := by
  obtain ⟨-, hs⟩ := metaCacheInode_ok h hr
  obtain ⟨item', hdm⟩ := hs.file
  have hk : dm'.inodeMaxCluster = dm.inodeMaxCluster + 1 := by rw [hdm]; rfl
  have hg := hs.grow
  refine ⟨⟨by rw [hk]; exact hg.inodeOk h, fun x hx hown => ⟨hg.used x hx, hg.others x hx hown⟩, fun x hx => ?_,
    fun x hx => ?_⟩, by rw [hdm]; rfl⟩
  · rw [hk] at hx
    exact hg.owns hx
  · rw [hk]
    rcases hg.taken x hx with hold | ho
    · by_cases ho : Owns fs dm.item dm.inodeMaxCluster x
      · obtain ⟨key, hl, rfl⟩ := ho
        exact .inl ⟨key, hl.mono (Nat.le_succ _), hg.same.id hl⟩
      · exact .inr ⟨hold, ho⟩
    · exact .inl ho

/-- The cluster operations do not touch the pool. -/
theorem writeFat_pool (fs : FileSystem) (cluster content : Nat) :
    (writeFat fs cluster content).inodes = fs.inodes ∧ (writeFat fs cluster content).inodeBitmap = fs.inodeBitmap := by
  unfold writeFat
  split <;> exact ⟨rfl, rfl⟩

theorem allocClus_pool {c : Nat} (h : allocClus fs = .ok (c, fs')) :
    fs'.inodes = fs.inodes ∧ fs'.inodeBitmap = fs.inodeBitmap := by
  unfold allocClus at h
  split at h
  · cases h
  · cases h
    exact ⟨rfl, rfl⟩

theorem nextClus_pool {alloc : Bool} {cur c : Nat} (h : nextClus alloc fs cur = .ok (some (c, fs'))) :
    fs'.inodes = fs.inodes ∧ fs'.inodeBitmap = fs.inodeBitmap := by
  unfold nextClus at h
  simp only at h
  split at h
  · split at h
    · obtain ⟨⟨c', fs₁⟩, ha, h⟩ := except_bind_ok h
      cases h
      obtain ⟨hi, hb⟩ := allocClus_pool ha
      obtain ⟨hi', hb'⟩ := writeFat_pool fs₁ cur c'
      exact ⟨hi'.trans hi, hb'.trans hb⟩
    · cases Except.ok.inj h
  · cases h
    exact ⟨rfl, rfl⟩

/-- **The loop of `relocClus`** is a step of the pool. -/
theorem poolStep_relocLoop {alloc : Bool} {r : Option Unit} (n : Nat) (h : InodeOk fs dm.item dm.inodeMaxCluster)
    (hr : relocLoop alloc n fs dm = .ok (r, fs', dm')) : PoolStep fs dm fs' dm' ∧ dm'.firstClus = dm.firstClus := by
  induction n generalizing fs dm with
  | zero =>
    cases hr
    exact ⟨.refl h, rfl⟩
  | succ n ih =>
    rw [relocLoop] at hr
    obtain ⟨next, hnext, hr⟩ := except_bind_ok hr
    cases next with
    | none =>
      cases hr
      exact ⟨.of_eq h rfl rfl rfl rfl, rfl⟩
    | some p =>
      obtain ⟨clus, fs₁⟩ := p
      obtain ⟨⟨fs₂, dm₂⟩, hcache, hr⟩ := except_bind_ok hr
      obtain ⟨hi, hb⟩ := nextClus_pool hnext
      have h₁ : PoolStep fs dm fs₁ { dm with curClus := clus, clusCnt := dm.clusCnt + 1 } := .of_eq h hi hb rfl rfl
      obtain ⟨h₂, hfirst₂⟩ := poolStep_metaCacheInode h₁.inodeOk hcache
      obtain ⟨h₃, hfirst₃⟩ := ih h₂.inodeOk hr
      exact ⟨h₁.trans (h₂.trans h₃), hfirst₃.trans hfirst₂⟩

theorem metaFindInode_eq {pos : Nat} (h : metaFindInode fs dm pos = .ok dm') :
    ∃ cur cnt, dm' = { dm with curClus := cur, clusCnt := cnt } := by
  unfold metaFindInode at h
  split at h
  · exact ⟨_, _, (Except.ok.inj h).symm⟩
  · cases h

/-- An operation as the callers see it: a step of the pool after which a file without clusters, if it
was so or had at most one cached before, still has. -/
structure PoolCall (fs : FileSystem) (dm : DirMeta) (fs' : FileSystem) (dm' : DirMeta) : Prop extends
    PoolStep fs dm fs' dm' where
  empty : (dm.firstClus = 0 → dm.inodeMaxCluster ≤ 1) → dm'.firstClus = 0 → dm'.inodeMaxCluster ≤ 1

theorem PoolCall.of_eq (h : InodeOk fs dm.item dm.inodeMaxCluster) (hi : fs'.inodes = fs.inodes)
    (hb : fs'.inodeBitmap = fs.inodeBitmap) (hitem : dm'.item = dm.item)
    (hk : dm'.inodeMaxCluster = dm.inodeMaxCluster) (hfirst : dm'.firstClus = dm.firstClus) : PoolCall fs dm fs' dm' :=
  ⟨.of_eq h hi hb hitem hk, fun hold hz => by rw [hk]; exact hold (hfirst.symm.trans hz)⟩

theorem PoolCall.refl (h : InodeOk fs dm.item dm.inodeMaxCluster) : PoolCall fs dm fs dm :=
  .of_eq h rfl rfl rfl rfl rfl

theorem PoolCall.trans (h : PoolCall fs dm fs' dm') (h' : PoolCall fs' dm' fs'' dm'') : PoolCall fs dm fs'' dm'' :=
  ⟨h.toPoolStep.trans h'.toPoolStep, fun hold => h'.empty (h.empty hold)⟩

/-- `relocClus`, with or without `alloc`. It does not return on a file without clusters. -/
theorem poolCall_relocClus {alloc : Bool} {off : Nat} {r : Int} (h : InodeOk fs dm.item dm.inodeMaxCluster)
    (hr : relocClus fs dm off alloc = .ok (r, fs', dm')) : PoolCall fs dm fs' dm' := by
  unfold relocClus at hr
  split at hr
  · cases hr
  · rename_i hassert
    have hfirst : dm.firstClus ≠ 0 := fun hz => hassert (.inl hz)
    simp only at hr
    split at hr
    · obtain ⟨dm₁, hfind, hr⟩ := except_bind_ok hr
      cases hr
      obtain ⟨cur, cnt, rfl⟩ := metaFindInode_eq hfind
      exact .of_eq h rfl rfl rfl rfl rfl
    · obtain ⟨dm₁, hfind, hr⟩ := except_bind_ok hr
      obtain ⟨⟨r', fs₂, dm₂⟩, hloop, hr⟩ := except_bind_ok hr
      cases hr
      obtain ⟨cur, cnt, rfl⟩ := metaFindInode_eq hfind
      have h₁ : PoolStep fs dm fs { dm with curClus := cur, clusCnt := cnt } := .of_eq h rfl rfl rfl rfl
      obtain ⟨h₂, hfirst₂⟩ := poolStep_relocLoop _ h₁.inodeOk hloop
      exact ⟨h₁.trans h₂, fun _ hz => absurd (hfirst₂.symm.trans hz) hfirst⟩

/-! ## Reading and writing -/

/-- **The loop of `metaRead`.** -/
theorem poolCall_metaReadLoop {n tot' : Nat} {dst' : List Byte} (turns off tot : Nat) (dst : List Byte)
    (h : InodeOk fs dm.item dm.inodeMaxCluster)
    (hr : metaReadLoop n turns fs dm off tot dst = .ok (tot', dst', fs', dm')) : PoolCall fs dm fs' dm' := by
  induction turns generalizing fs dm off tot dst with
  | zero =>
    cases hr
    exact .refl h
  | succ turns ih =>
    rw [metaReadLoop] at hr
    split at hr
    · obtain ⟨⟨r, fs₁, dm₁⟩, hreloc, hr⟩ := except_bind_ok hr
      obtain ⟨⟨m, bytes⟩, -, hr⟩ := except_bind_ok hr
      have h₁ := poolCall_relocClus h hreloc
      simp only at hr
      split at hr
      · exact h₁.trans (ih _ _ _ h₁.inodeOk hr)
      · cases hr
        exact h₁
    · cases hr
      exact .refl h

/-- `metaRead`. -/
theorem poolCall_metaRead {off n : Nat} {r : Int} {dst : List Byte} (h : InodeOk fs dm.item dm.inodeMaxCluster)
    (hr : metaRead fs dm off n = .ok (r, dst, fs', dm')) : PoolCall fs dm fs' dm' := by
  unfold metaRead at hr
  split at hr
  · cases hr
    exact .refl h
  · split at hr
    · cases hr
      exact .refl h
    · split at hr
      · cases hr
        exact .refl h
      · obtain ⟨⟨tot, dst₁, fs₁, dm₁⟩, hloop, hr⟩ := except_bind_ok hr
        cases hr
        exact poolCall_metaReadLoop _ _ _ _ h hloop

/-- **The loop of `metaWrite`.** -/
theorem poolCall_metaWriteLoop {n tot' off' : Nat} (turns off tot : Nat) (h : InodeOk fs dm.item dm.inodeMaxCluster)
    (hr : metaWriteLoop src n turns fs dm off tot = .ok (tot', off', fs', dm')) : PoolCall fs dm fs' dm' := by
  induction turns generalizing fs dm off tot with
  | zero =>
    cases hr
    exact .refl h
  | succ turns ih =>
    rw [metaWriteLoop] at hr
    split at hr
    · obtain ⟨⟨r, fs₁, dm₁⟩, hreloc, hr⟩ := except_bind_ok hr
      obtain ⟨⟨m, fs₂⟩, hclus, hr⟩ := except_bind_ok hr
      have h₁ := poolCall_relocClus h hreloc
      have h₂ : PoolCall fs₁ dm₁ fs₂ dm₁ := by
        unfold rwClusWrite at hclus
        split at hclus
        · cases hclus
        · cases hclus
          exact .of_eq h₁.inodeOk rfl rfl rfl rfl rfl
      have h₁₂ := h₁.trans h₂
      simp only at hr
      split at hr
      · exact h₁₂.trans (ih _ _ h₁₂.inodeOk hr)
      · cases hr
        exact h₁₂
    · cases hr
      exact .refl h

theorem poolCall_metaWriteFrom {off n : Nat} {r : Int} (h : InodeOk fs dm.item dm.inodeMaxCluster)
    (hr : metaWriteFrom fs dm src off n = .ok (r, fs', dm')) : PoolCall fs dm fs' dm' := by
  obtain ⟨⟨tot, off', fs₁, dm₁⟩, hloop, hr⟩ := except_bind_ok hr
  have h₁ := poolCall_metaWriteLoop _ _ _ h hloop
  obtain ⟨rfl, hdm⟩ := Prod.mk.inj (Prod.mk.inj (Except.ok.inj hr)).2
  refine h₁.trans ?_
  rw [← hdm]
  split <;> exact .of_eq h₁.inodeOk rfl rfl rfl rfl rfl

/-- `metaWrite`. An empty file has no pool inodes to lose when it gets its first cluster. -/
theorem poolCall_metaWrite {off n : Nat} {r : Int} (h : InodeOk fs dm.item dm.inodeMaxCluster)
    (hempty : dm.firstClus = 0 → dm.inodeMaxCluster ≤ 1) (hr : metaWrite fs dm src off n = .ok (r, fs', dm')) :
    PoolCall fs dm fs' dm' := by
  unfold metaWrite at hr
  split at hr
  · cases hr
    exact .refl h
  · split at hr
    · cases hr
      exact .refl h
    · split at hr
      · rename_i hfirst
        obtain ⟨⟨c, fs₁⟩, ha, hr⟩ := except_bind_ok hr
        obtain ⟨hi, hb⟩ := allocClus_pool ha
        have h₁ : PoolCall fs dm fs₁ { dm.start c with clusCnt := 0 } :=
          ⟨.of_le_one (hempty hfirst) (Nat.le_refl 1) hi hb, fun _ _ => Nat.le_refl 1⟩
        exact h₁.trans (poolCall_metaWriteFrom h₁.inodeOk hr)
      · exact poolCall_metaWriteFrom h hr

/-! ## Emptying and creating -/

theorem truncLoop_pool (n : Nat) (fs : FileSystem) (clus : Nat) :
    (truncLoop n fs clus).inodes = fs.inodes ∧ (truncLoop n fs clus).inodeBitmap = fs.inodeBitmap := by
  induction n generalizing fs clus with
  | zero => exact ⟨rfl, rfl⟩
  | succ n ih =>
    rw [truncLoop]
    split
    · obtain ⟨hi, hb⟩ := ih (freeClus fs clus) (readFat fs clus)
      obtain ⟨hi', hb'⟩ := writeFat_pool fs clus 0
      exact ⟨hi.trans hi', hb.trans hb'⟩
    · exact ⟨rfl, rfl⟩

/-- `metaFreeInode` of a cache that ends with the second level. -/
theorem poolCall_metaFreeInode (h : InodeOk fs dm.item dm.inodeMaxCluster)
    (hk : dm.inodeMaxCluster ≤ INODE_SECOND_LEVEL_TOP) (hr : metaFreeInode fs dm = .ok (fs', dm')) :
    PoolCall fs dm fs' dm' ∧ dm'.inodeMaxCluster = 0 := by
  obtain ⟨bm, heq, hbm⟩ := metaFreeInode_eq dm h
  obtain ⟨rfl, rfl⟩ := Prod.mk.inj (Except.ok.inj (heq.symm.trans hr))
  have hle : INODE_SECOND_LEVEL_TOP ≤ INODE_THIRD_LEVEL_TOP := by decide
  have hall := (inodesToFree_all_iff h (hk.trans hle)).mpr hk
  have hnone : ∀ key, ¬ InodeKey.Live 0 key := fun key hl => absurd hl.2 (Nat.not_lt_zero _)
  refine ⟨⟨⟨⟨fun key hl => absurd hl (hnone key), fun key _ hl => absurd hl (hnone key)⟩, fun x hx hown => ⟨?_, rfl⟩, ?_,
    fun x hx => .inr ?_⟩, fun _ _ => Nat.zero_le 1⟩, rfl⟩
  · have hnot : x ∉ inodesToFree fs.inodes dm.item dm.inodeMaxCluster := fun hmem =>
      hown ((inodesToFree_ok h).2 x hmem).1
    rw [hbm, hx]
    simpa using hnot
  · rintro x ⟨key, hl, -⟩
    exact absurd hl (hnone key)
  · have hx' : Bitmap.get bm x = true := hx
    rw [hbm, Bool.and_eq_true, decide_eq_true_eq] at hx'
    exact ⟨hx'.2, fun ho => hx'.1 (hall x ho)⟩

/-- `metaTrunc` of such a file. -/
theorem poolCall_metaTrunc (h : InodeOk fs dm.item dm.inodeMaxCluster)
    (hk : dm.inodeMaxCluster ≤ INODE_SECOND_LEVEL_TOP) (hr : metaTrunc fs dm = .ok (fs', dm')) :
    PoolCall fs dm fs' dm' ∧ dm'.inodeMaxCluster = 0 := by
  obtain ⟨hi, hb⟩ := truncLoop_pool (fs.superBlock.dataClusCnt + 2) fs dm.firstClus
  have h₁ : PoolStep fs dm (truncLoop (fs.superBlock.dataClusCnt + 2) fs dm.firstClus)
      { dm with fileSize := 0, firstClus := 0 } := .of_eq h hi hb rfl rfl
  obtain ⟨h₂, hzero⟩ := poolCall_metaFreeInode h₁.inodeOk hk hr
  exact ⟨⟨h₁.trans h₂.toPoolStep, fun _ _ => by omega⟩, hzero⟩

/-- `metaTrunc` returns, and clears the bits that `metaFreeInode` does. -/
theorem metaTrunc_bits (h : InodeOk fs dm.item dm.inodeMaxCluster) :
    ∃ fs' dm', metaTrunc fs dm = .ok (fs', dm') ∧ dm'.inodeMaxCluster = 0 ∧ ∀ x, Bitmap.get fs'.inodeBitmap x =
      (decide (x ∉ inodesToFree fs.inodes dm.item dm.inodeMaxCluster) && Bitmap.get fs.inodeBitmap x) := by
  obtain ⟨hi, hb⟩ := truncLoop_pool (fs.superBlock.dataClusCnt + 2) fs dm.firstClus
  obtain ⟨bm, heq, hbm⟩ := metaFreeInode_eq { dm with fileSize := 0, firstClus := 0 } (inodeOk_congr h hi hb)
  refine ⟨_, _, heq, rfl, fun x => ?_⟩
  rw [hi, hb] at hbm
  exact hbm x

/-- `metaAlloc` on a `DirMeta` of the free list. -/
theorem poolCall_metaAlloc {attr : Nat} (hk : dm.inodeMaxCluster ≤ 1) (hr : metaAlloc fs dm attr = .ok (fs', dm')) :
    PoolCall fs dm fs' dm' := by
  have hfree : ∀ dm₀ : DirMeta, dm₀.inodeMaxCluster = dm.inodeMaxCluster →
      metaFreeInode fs dm₀ = .ok (fs, { dm₀ with inodeMaxCluster := 0 }) := fun dm₀ h₀ =>
    metaFreeInode_of_le_one (by omega)
  have hempty : ∀ {fs₁ : FileSystem} {dm₁ : DirMeta}, fs₁.inodes = fs.inodes → fs₁.inodeBitmap = fs.inodeBitmap →
      dm₁.inodeMaxCluster ≤ 1 → PoolCall fs dm fs₁ dm₁ := fun hi hb hk₁ => ⟨.of_le_one hk hk₁ hi hb, fun _ _ => hk₁⟩
  obtain ⟨⟨fs₁, dm₁⟩, hinode, hr⟩ := except_bind_ok hr
  rw [hfree _ (by split <;> rfl)] at hinode
  cases hinode
  simp only at hr
  split at hr
  · obtain ⟨⟨c, fs₂⟩, ha, hr⟩ := except_bind_ok hr
    obtain ⟨hi, hb⟩ := allocClus_pool ha
    cases hr
    exact hempty hi hb (Nat.le_refl 1)
  · cases hr
    exact hempty rfl rfl (Nat.zero_le 1)

end Step

/-! ## The files together -/

/-- The invariant of the pool. -/
structure PoolInv (s : FatState) : Prop where
  file : ∀ i, InodeOk s.fs (s.dirMetas i).item (s.dirMetas i).inodeMaxCluster
  disjoint : ∀ i j, i ≠ j → ∀ x, s.OwnsInode i x → ¬ s.OwnsInode j x
  marked : ∀ x, Bitmap.get s.fs.inodeBitmap x = true → ∃ i, s.OwnsInode i x
  empty : ∀ i, (s.dirMetas i).firstClus = 0 → (s.dirMetas i).inodeMaxCluster ≤ 1
  free : ∀ i ∈ s.free, (s.dirMetas i).inodeMaxCluster ≤ 1
  nodup : s.free.Nodup

section Inv

variable {s s' : FatState} {i : Nat} {fs' : FileSystem} {dm' : DirMeta} {free' : List Nat}

/-- A cache none of whose inodes the other one owns is not affected. -/
theorem inodeOk_frame {fs : FileSystem} {dm dmⱼ : DirMeta}
    (h : ∀ x, Bitmap.get fs.inodeBitmap x = true → ¬ Owns fs dm.item dm.inodeMaxCluster x →
      Bitmap.get fs'.inodeBitmap x = true ∧ fs'.inodes x = fs.inodes x)
    (hj : InodeOk fs dmⱼ.item dmⱼ.inodeMaxCluster)
    (hI : ∀ x, Owns fs dmⱼ.item dmⱼ.inodeMaxCluster x → ¬ Owns fs dm.item dm.inodeMaxCluster x) :
    InodeOk fs' dmⱼ.item dmⱼ.inodeMaxCluster ∧
      ∀ x, Owns fs' dmⱼ.item dmⱼ.inodeMaxCluster x ↔ Owns fs dmⱼ.item dmⱼ.inodeMaxCluster x := by
  have hpool : ∀ key, InodeKey.Live dmⱼ.inodeMaxCluster key →
      Bitmap.get fs'.inodeBitmap (key.id fs.inodes dmⱼ.item) = true ∧
        fs'.inodes (key.id fs.inodes dmⱼ.item) = fs.inodes (key.id fs.inodes dmⱼ.item) := fun key hl =>
    h _ (hj.used key hl) (hI _ ⟨key, hl, rfl⟩)
  have hsame : SameCache fs.inodes dmⱼ.item fs'.inodes dmⱼ.item dmⱼ.inodeMaxCluster :=
    ⟨fun _ _ _ => rfl, fun _ _ => rfl, fun _ _ => rfl, fun key hl i _ _ => by rw [(hpool key hl).2]⟩
  refine ⟨⟨fun key hl => ?_, fun key key' hl hl' heq => ?_⟩, fun x => ⟨?_, ?_⟩⟩
  · rw [hsame.id hl]
    exact (hpool key hl).1
  · rw [hsame.id hl, hsame.id hl'] at heq
    exact hj.inj key key' hl hl' heq
  · rintro ⟨key, hl, rfl⟩
    exact ⟨key, hl, (hsame.id hl).symm⟩
  · rintro ⟨key, hl, rfl⟩
    exact ⟨key, hl, hsame.id hl⟩

/-- The cache of another file is not affected. -/
theorem PoolStep.frame {fs : FileSystem} {dm dmⱼ : DirMeta} (h : PoolStep fs dm fs' dm')
    (hj : InodeOk fs dmⱼ.item dmⱼ.inodeMaxCluster)
    (hI : ∀ x, Owns fs dmⱼ.item dmⱼ.inodeMaxCluster x → ¬ Owns fs dm.item dm.inodeMaxCluster x) :
    InodeOk fs' dmⱼ.item dmⱼ.inodeMaxCluster ∧
      ∀ x, Owns fs' dmⱼ.item dmⱼ.inodeMaxCluster x ↔ Owns fs dmⱼ.item dmⱼ.inodeMaxCluster x :=
  inodeOk_frame h.others hj hI

/-- **One step.** An operation on file `i` keeps the invariant. -/
theorem PoolInv.update (h : PoolInv s) (hc : PoolCall s.fs (s.dirMetas i) fs' dm') (hnodup : free'.Nodup)
    (hfree : ∀ j ∈ free', if j = i then dm'.inodeMaxCluster ≤ 1 else j ∈ s.free) :
    PoolInv { s.update i fs' dm' with free := free' } := by
  have hother : ∀ {j}, j ≠ i → InodeOk fs' (s.dirMetas j).item (s.dirMetas j).inodeMaxCluster ∧
      ∀ x, Owns fs' (s.dirMetas j).item (s.dirMetas j).inodeMaxCluster x ↔ s.OwnsInode j x := fun {j} hj =>
    hc.frame (h.file j) (h.disjoint j i hj)
  -- what file `i` has now was its own or free, so no other file has it
  have hnew : ∀ {j}, j ≠ i → ∀ x, Owns fs' dm'.item dm'.inodeMaxCluster x → ¬ s.OwnsInode j x := by
    intro j hj x hx hxj
    rcases hc.owns x hx with hin | hclear
    · exact h.disjoint i j (Ne.symm hj) x hin hxj
    · obtain ⟨key, hlive, rfl⟩ := hxj
      rw [(h.file j).used key hlive] at hclear
      exact Bool.noConfusion hclear
  have howns : ∀ {j x}, Owns fs' (if j = i then dm' else s.dirMetas j).item
      (if j = i then dm' else s.dirMetas j).inodeMaxCluster x ↔
      (j = i ∧ Owns fs' dm'.item dm'.inodeMaxCluster x) ∨ (j ≠ i ∧ s.OwnsInode j x) := by
    intro j x
    by_cases hj : j = i
    · rw [if_pos hj]
      exact ⟨fun ho => .inl ⟨hj, ho⟩, fun ho => (ho.resolve_right fun hn => hn.1 hj).2⟩
    · rw [if_neg hj, (hother hj).2 x]
      exact ⟨fun ho => .inr ⟨hj, ho⟩, fun ho => (ho.resolve_left fun hn => hj hn.1).2⟩
  refine ⟨fun j => ?_, fun j k hjk x hx hx' => ?_, fun x hx => ?_, fun j => ?_, fun j hj => ?_, hnodup⟩
  · show InodeOk fs' (if j = i then dm' else s.dirMetas j).item (if j = i then dm' else s.dirMetas j).inodeMaxCluster
    by_cases hj : j = i
    · rw [if_pos hj]
      exact hc.inodeOk
    · rw [if_neg hj]
      exact (hother hj).1
  · rcases howns.mp hx with ⟨hj, hx⟩ | ⟨hj, hx⟩ <;> rcases howns.mp hx' with ⟨hk, hx'⟩ | ⟨hk, hx'⟩
    · exact hjk (hj.trans hk.symm)
    · exact hnew hk x hx hx'
    · exact hnew hj x hx' hx
    · exact h.disjoint j k hjk x hx hx'
  · rcases hc.marked x hx with ho | ⟨hold, hown⟩
    · exact ⟨i, howns.mpr (.inl ⟨rfl, ho⟩)⟩
    · obtain ⟨j, hj⟩ := h.marked x hold
      have hji : j ≠ i := by
        rintro rfl
        exact hown hj
      exact ⟨j, howns.mpr (.inr ⟨hji, hj⟩)⟩
  · show (if j = i then dm' else s.dirMetas j).firstClus = 0 → (if j = i then dm' else s.dirMetas j).inodeMaxCluster ≤ 1
    by_cases hj : j = i
    · rw [if_pos hj]
      exact hc.empty (h.empty i)
    · rw [if_neg hj]
      exact h.empty j
  · show (if j = i then dm' else s.dirMetas j).inodeMaxCluster ≤ 1
    have := hfree j hj
    by_cases hji : j = i
    · rw [if_pos hji] at this ⊢
      exact this
    · rw [if_neg hji] at this ⊢
      exact h.free j this

/-- A step that keeps the free list. -/
theorem PoolInv.update_live (h : PoolInv s) (hi : i ∉ s.free) (hc : PoolCall s.fs (s.dirMetas i) fs' dm') :
    PoolInv (s.update i fs' dm') := by
  refine h.update hc h.nodup fun j hj => ?_
  have hji : j ≠ i := fun heq => hi (heq ▸ hj)
  rw [if_neg hji]
  exact hj

end Inv

/-! ## Runs -/

/-- The calls on the files of a volume. -/
inductive FileCall where
  | reloc (i off : Nat) (alloc : Bool)
  | read (i off n : Nat)
  | change (op : FatOp)

/-- The files that calls are made with are not in the free list. -/
def FileCall.Enabled (s : FatState) : FileCall → Prop
  | .reloc i .. => i ∉ s.free
  | .read i .. => i ∉ s.free
  | .change op => op.Enabled s

/-- The state after a call. -/
def FatState.call (s : FatState) : FileCall → Except Panic FatState
  | .reloc i off alloc => (s.reloc i off alloc).map Prod.snd
  | .read i off n => (s.read i off n).map fun r => r.2.2
  | .change op => s.exec op

/-- A file that is emptied has no cluster cached past the second level. -/
def FileCall.Shallow (s : FatState) : FileCall → Prop
  | .change (.trunc i) => (s.dirMetas i).inodeMaxCluster ≤ INODE_SECOND_LEVEL_TOP
  | .change (.unlink i) => (s.dirMetas i).inodeMaxCluster ≤ INODE_SECOND_LEVEL_TOP
  | _ => True

/-- A step of a run whose calls meet a condition. -/
def CallStep (Meets : FatState → FileCall → Prop) (s s' : FatState) : Prop :=
  ∃ call : FileCall, call.Enabled s ∧ Meets s call ∧ s.call call = .ok s'

/-- The pool is empty, and the loading has cached the first cluster of each file at most. -/
structure PoolInit (s : FatState) : Prop where
  clear : ∀ x, Bitmap.get s.fs.inodeBitmap x = false
  first : ∀ i, (s.dirMetas i).inodeMaxCluster ≤ 1
  nodup : s.free.Nodup

section Run

variable {s s' : FatState}

theorem PoolInit.inv (h : PoolInit s) : PoolInv s := by
  have hno : ∀ i {key}, ¬ InodeKey.Live (s.dirMetas i).inodeMaxCluster key := fun i _ =>
    not_live_of_le_one (h.first i)
  refine ⟨fun i => ⟨fun key hl => absurd hl (hno i), fun key _ hl => absurd hl (hno i)⟩, ?_, fun x hx => ?_,
    fun i _ => h.first i, fun i _ => h.first i, h.nodup⟩
  · rintro i j - x ⟨key, hl, -⟩
    exact absurd hl (hno i)
  · rw [h.clear x] at hx
    exact Bool.noConfusion hx

/-- **Every call** keeps the invariant, unless it empties a file cached past the second level. -/
theorem PoolInv.call (h : PoolInv s) {call : FileCall} (hen : call.Enabled s) (hm : call.Shallow s)
    (hr : s.call call = .ok s') : PoolInv s' := by
  cases call with
  | reloc i off alloc =>
    obtain ⟨⟨r, s₁⟩, hcall, rfl⟩ := map_ok hr
    obtain ⟨⟨r', fs', dm'⟩, hreloc, hr⟩ := except_bind_ok hcall
    cases hr
    exact h.update_live hen (poolCall_relocClus (h.file i) hreloc)
  | read i off n =>
    obtain ⟨⟨r, dst, s₁⟩, hcall, rfl⟩ := map_ok hr
    obtain ⟨⟨r', dst', fs', dm'⟩, hread, hr⟩ := except_bind_ok hcall
    cases hr
    exact h.update_live hen (poolCall_metaRead (h.file i) hread)
  | change op =>
    cases op with
    | create attr =>
      obtain ⟨⟨i, s₁⟩, hcall, rfl⟩ := map_ok hr
      unfold FatState.create at hcall
      cases hfree : s.free with
      | nil => rw [hfree] at hcall; cases hcall
      | cons j free =>
        rw [hfree] at hcall
        obtain ⟨⟨fs', dm'⟩, halloc, hr⟩ := except_bind_ok hcall
        obtain ⟨-, rfl⟩ := Prod.mk.inj (Except.ok.inj hr)
        have hnodup := h.nodup
        rw [hfree] at hnodup
        obtain ⟨hj, hnodup⟩ := List.nodup_cons.mp hnodup
        have hk := h.free j (by rw [hfree]; exact List.mem_cons_self ..)
        refine h.update (poolCall_metaAlloc hk halloc) hnodup fun k hk => ?_
        have hkj : k ≠ j := fun heq => hj (heq ▸ hk)
        rw [if_neg hkj, hfree]
        exact List.mem_cons_of_mem j hk
    | write i src off n =>
      obtain ⟨⟨r, s₁⟩, hcall, rfl⟩ := map_ok hr
      obtain ⟨⟨r', fs', dm'⟩, hwrite, hr⟩ := except_bind_ok hcall
      cases hr
      exact h.update_live hen (poolCall_metaWrite (h.file i) (h.empty i) hwrite)
    | trunc i =>
      obtain ⟨⟨fs', dm'⟩, htrunc, hr⟩ := except_bind_ok hr
      obtain rfl := Except.ok.inj hr
      exact h.update_live hen (poolCall_metaTrunc (h.file i) hm htrunc).1
    | unlink i =>
      obtain ⟨⟨fs', dm'⟩, htrunc, hr⟩ := except_bind_ok hr
      obtain rfl := Except.ok.inj hr
      obtain ⟨hc, hzero⟩ := poolCall_metaTrunc (h.file i) hm htrunc
      have hc' : PoolCall s.fs (s.dirMetas i) fs' { dm' with reserve := 0 } :=
        hc.trans (.of_eq hc.inodeOk rfl rfl rfl rfl rfl)
      refine h.update hc' (List.nodup_cons.mpr ⟨hen, h.nodup⟩) fun j hj => ?_
      by_cases hji : j = i
      · rw [if_pos hji]
        show dm'.inodeMaxCluster ≤ 1
        omega
      · rw [if_neg hji]
        exact (List.mem_cons.mp hj).resolve_left hji

theorem PoolInv.reach (h : Run.Reach PoolInit (CallStep fun s call => call.Shallow s) s) : PoolInv s := by
  refine h.invariant (fun s h₀ => h₀.inv) fun s s' hinv hstep => ?_
  obtain ⟨call, hen, hm, hr⟩ := hstep
  exact hinv.call hen hm hr

end Run

/-! ## The result -/

/-- The inodes of the pool are in use exactly as far as a file in use refers to them. -/
def FatState.PoolExact (s : FatState) : Prop :=
  ∀ x, Bitmap.get s.fs.inodeBitmap x = true ↔ ∃ i, i ∉ s.free ∧ s.OwnsInode i x

/-- No two references, of one file or of two, are to the same inode. -/
def FatState.PoolDisjoint (s : FatState) : Prop :=
  ∀ i j key key', InodeKey.Live (s.dirMetas i).inodeMaxCluster key → InodeKey.Live (s.dirMetas j).inodeMaxCluster key' →
    key.id s.fs.inodes (s.dirMetas i).item = key'.id s.fs.inodes (s.dirMetas j).item → i = j ∧ key = key'

/-- `metaFreeInode` of file `i` returns, and afterwards exactly the inodes of the other files are
marked. -/
def FatState.Releases (s : FatState) (i : Nat) : Prop :=
  ∃ fs' dm', metaFreeInode s.fs (s.dirMetas i) = .ok (fs', dm') ∧
    ∀ x, Bitmap.get fs'.inodeBitmap x = true ↔ Bitmap.get s.fs.inodeBitmap x = true ∧ ¬ s.OwnsInode i x

theorem PoolInv.releases_iff {s : FatState} (h : PoolInv s) {i : Nat}
    (hk : (s.dirMetas i).inodeMaxCluster ≤ INODE_THIRD_LEVEL_TOP) :
    s.Releases i ↔ (s.dirMetas i).inodeMaxCluster ≤ INODE_SECOND_LEVEL_TOP := by
  obtain ⟨bm, heq, hbm⟩ := metaFreeInode_eq (s.dirMetas i) (h.file i)
  rw [← inodesToFree_all_iff (h.file i) hk]
  constructor
  · rintro ⟨fs', dm', hr, hrel⟩ x hx
    obtain ⟨rfl, -⟩ := Prod.mk.inj (Except.ok.inj (heq.symm.trans hr))
    have hclear : ¬ Bitmap.get bm x = true := fun hset => ((hrel x).mp hset).2 hx
    obtain ⟨key, hl, rfl⟩ := hx
    rw [hbm, (h.file i).used key hl, Bool.and_true, decide_eq_true_eq, not_not] at hclear
    exact hclear
  · intro hall
    refine ⟨_, _, heq, fun x => ?_⟩
    rw [hbm, Bool.and_eq_true, decide_eq_true_eq, and_comm]
    refine and_congr_right fun _ => not_congr ⟨fun hmem => ?_, hall x⟩
    exact ((inodesToFree_ok (h.file i)).2 x hmem).1

/-- **The pool is conserved.** In every state of a run that empties no file cached past the second
level: the marked inodes are the disjoint union of those of the files in use; `metaFreeInode` and
`metaTrunc` return on every file, so that the assertion of `inodeFree` holds; and `metaFreeInode`
releases what the file holds exactly if it is cached to the second level at most. -/
theorem inodePool_conserved {s : FatState} (h : Run.Reach PoolInit (CallStep fun s call => call.Shallow s) s) :
    s.PoolExact ∧ s.PoolDisjoint ∧
      ∀ i, (∃ r, metaFreeInode s.fs (s.dirMetas i) = .ok r) ∧ (∃ s', s.trunc i = .ok s') ∧
        ((s.dirMetas i).inodeMaxCluster ≤ INODE_THIRD_LEVEL_TOP →
          (s.Releases i ↔ (s.dirMetas i).inodeMaxCluster ≤ INODE_SECOND_LEVEL_TOP)) := by
  have hinv := PoolInv.reach h
  refine ⟨fun x => ⟨fun hx => ?_, ?_⟩, fun i j key key' hl hl' heq => ?_, fun i => ⟨?_, ?_, hinv.releases_iff⟩⟩
  · obtain ⟨i, hi⟩ := hinv.marked x hx
    refine ⟨i, fun hfree => ?_, hi⟩
    obtain ⟨key, hl, -⟩ := hi
    exact not_live_of_le_one (hinv.free i hfree) hl
  · rintro ⟨i, -, key, hl, rfl⟩
    exact (hinv.file i).used key hl
  · by_cases hij : i = j
    · subst hij
      exact ⟨rfl, (hinv.file i).inj key key' hl hl' heq⟩
    · exact absurd ⟨key', hl', heq.symm⟩ (hinv.disjoint i j hij _ ⟨key, hl, rfl⟩)
  · obtain ⟨bm, heq, -⟩ := metaFreeInode_eq (s.dirMetas i) (hinv.file i)
    exact ⟨_, heq⟩
  · obtain ⟨fs', dm', heq, -⟩ := metaTrunc_bits (hinv.file i)
    refine ⟨s.update i fs' dm', ?_⟩
    unfold FatState.trunc
    rw [heq]
    rfl

/-! ## A file of 1033 clusters -/

/-- The small volume with a FAT of sixteen sectors and 2048 sectors in all. -/
def wideDisk : Disk := fun sec i =>
  if sec = 0 ∧ i = 36 then 16 else if sec = 0 ∧ i = 20 then 8 else smallDisk 0 sec i

/-- The wide volume, mounted. -/
def wideFs : FileSystem where
  superBlock := readSuperBlock (wideDisk 0)
  disk := wideDisk
  clusterBitmap := fillBitmap (readSuperBlock (wideDisk 0)) wideDisk (readSuperBlock (wideDisk 0)).FATsz
  inodes := fun _ _ => 0
  inodeBitmap := fun _ => 0
  allocLog := []

theorem superBlock_wide : wideFs.superBlock = ⟨17, 2031, 2031, 512, 512, 1, 1, 1, 2048, 16, 2⟩ := by
  decide

theorem wide_ok : wideFs.superBlock.Ok := by
  rw [superBlock_wide]
  constructor <;> decide

theorem rootOnly_wide : RootOnly wideFs := by
  refine ⟨⟨wideDisk, fun _ _ => 0, fun _ => 0, ?_⟩, by rw [superBlock_wide], fun sec hsec => funext fun i => ?_⟩
  · have hname : getU8 (wideDisk 0) 82 = 0x46 ∧ getU8 (wideDisk 0) 83 = 0x41 ∧ getU8 (wideDisk 0) 84 = 0x54 ∧
        getU8 (wideDisk 0) 85 = 0x33 ∧ getU8 (wideDisk 0) 86 = 0x32 := ⟨rfl, rfl, rfl, rfl, rfl⟩
    have hbps : ¬ (readSuperBlock (wideDisk 0)).bytsPerSec ≠ BUFFER_SIZE := fun h => h rfl
    unfold fatInit
    rw [if_neg (fun h => h hname), if_neg hbps]
    rfl
  · show (if sec = 0 ∧ i = 36 then _ else _) = _
    rw [if_neg (fun h => hsec h.1), if_neg (fun h => hsec h.1)]

/-- The pool of a mounted volume, before anything is cached past the first level. -/
theorem freeInodes_clear {fs : FileSystem} (h : fs.inodeBitmap = fun _ => 0) : freeInodes fs = 1024 := by
  have hall : ∀ c ∈ Finset.Ico 0 INODE_NUM, Bitmap.get fs.inodeBitmap c = false := fun c _ => by
    rw [h]
    exact BitVec.getLsbD_zero
  unfold freeInodes Bitmap.freeCount
  rw [Finset.filter_true_of_mem hall, Nat.card_Ico]
  rfl

theorem poolInit_wide : PoolInit (rootState wideFs) := by
  refine ⟨fun x => ?_, fun i => ?_, List.nodup_singleton 1⟩
  · show (0#64).getLsbD (x % 64) = false
    exact BitVec.getLsbD_zero
  · show (if i = 0 then _ else emptyMeta).inodeMaxCluster ≤ 1
    split
    · exact Nat.le_refl 1
    · exact Nat.zero_le 1

/-- A file made on the wide volume, with one byte written at the start of cluster 1032. -/
theorem wide_written : ∃ s, Run.Reach PoolInit (CallStep fun s call => call.Shallow s) s ∧ s.free = [] ∧
    (s.dirMetas 1).inodeMaxCluster = 1033 ∧ ∀ i, i ≠ 1 → (s.dirMetas i).inodeMaxCluster ≤ 1 := by
  obtain ⟨s, hcreate, hfree, hfs, hdm, hother⟩ : ∃ s, (rootState wideFs).create 0 = .ok (1, s) ∧ s.free = [] ∧
      s.fs = wideFs ∧ s.dirMetas 1 = { emptyMeta with attr := ATTR_ARCHIVE } ∧
      ∀ i, i ≠ 1 → s.dirMetas i = (rootState wideFs).dirMetas i :=
    ⟨_, rfl, rfl, rfl, rfl, fun i hi => if_neg hi⟩
  have hinv₀ := (rootOnly_wide.fatInit wide_ok (by rw [superBlock_wide]; decide)).inv
  obtain ⟨-, L₁, hs₁, -⟩ := hinv₀.create (by decide) hcreate
  have hinv : FatInv s s.chainOf := by
    have := hs₁.inv
    rw [this.chainOf]
    exact this
  have hchain : s.chainOf 1 = [] := by
    have hfirst := (hinv.files.file 1).first
    rw [hdm] at hfirst
    cases hL : s.chainOf 1 with
    | nil => rfl
    | cons c L =>
      rw [hL] at hfirst
      have := (hinv.files.file 1).chain.inRange c (by rw [hL]; exact List.mem_cons_self ..)
      have hz : 0 = c := hfirst
      have := this.1
      omega
  have hspan : span s.fs.superBlock (1032 * 512) (1032 * 512 + 1) = 1033 := by
    rw [hfs, superBlock_wide]
    decide
  have hroom : writeSpan s.fs.superBlock (1032 * 512) 1 ≤ (s.chainOf 1).length + freeClusters s.fs := by
    have hdata : wideFs.superBlock.dataClusCnt = 2031 := by rw [superBlock_wide]
    have hclus := rootOnly_wide.freeClusters wide_ok
    unfold writeSpan
    rw [hspan, hfs]
    omega
  have hacc : ¬ WriteRefused (s.dirMetas 1) (1032 * 512) 1 := by
    rw [hdm]
    decide
  have hpool : inodesBetween (s.dirMetas 1).inodeMaxCluster (span s.fs.superBlock (1032 * 512) (1032 * 512 + 1)) ≤
      freeInodes s.fs := by
    have hneed : inodesBetween 0 1033 = 18 := by decide +kernel
    rw [hspan, hdm, hfs, freeInodes_clear rfl]
    show inodesBetween 0 1033 ≤ 1024
    rw [hneed]
    decide
  obtain ⟨⟨r, fs', dm'⟩, hmeta⟩ := exists_metaWrite (fun _ => 0) hinv.superBlock hinv.bitmap (hinv.files.file 1) hacc
    hroom (by rw [hspan]; decide) hpool
  have hwrite : s.write 1 (fun _ => 0) (1032 * 512) 1 = .ok (r, s.update 1 fs' dm') := by
    unfold FatState.write
    rw [hmeta]
    rfl
  have hlive : 1 ∉ s.free := by
    rw [hfree]
    exact List.not_mem_nil
  obtain ⟨L', hs, hwritten⟩ := hinv.write hlive (fun _ => hroom) hwrite
  obtain ⟨-, hw⟩ := hwritten hacc
  refine ⟨s.update 1 fs' dm', .step (.step (.init poolInit_wide) ⟨.change (.create 0), trivial, trivial, ?_⟩)
    ⟨.change (.write 1 (fun _ => 0) (1032 * 512) 1), hlive, trivial, ?_⟩, hfree, ?_, fun i hi => ?_⟩
  · show ((rootState wideFs).create 0).map Prod.snd = .ok s
    rw [hcreate]
    rfl
  · show (s.write 1 (fun _ => 0) (1032 * 512) 1).map Prod.snd = _
    rw [hwrite]
    rfl
  · have hlength := hw.length
    rw [hw.full (by rw [hchain, hdm]; rfl), hlength, hchain]
    unfold writeSpan
    rw [hspan]
    rfl
  · rw [hs.others i hi, hother i hi]
    exact poolInit_wide.first i

/-- The pool is conserved up to there; dropping the cache of the file would leave inodes behind. -/
theorem inodePool_conserved_wide : ∃ s : FatState, (s.dirMetas 1).inodeMaxCluster = 1033 ∧ s.PoolExact ∧
    s.Releases 0 ∧ ¬ s.Releases 1 := by
  obtain ⟨s, hreach, -, hk, hother⟩ := wide_written
  obtain ⟨hexact, -, hfile⟩ := inodePool_conserved hreach
  have h0 := hother 0 (by decide)
  refine ⟨s, hk, hexact, ((hfile 0).2.2 (h0.trans (by decide))).mpr (h0.trans (by decide)), ?_⟩
  rw [(hfile 1).2.2 (by rw [hk]; decide), hk]
  decide

/-- Emptying it does leave some: the third-level inode of its cluster 1032 stays marked, and no file
refers to it any more. -/
theorem inodePool_leak : ¬ ∀ s : FatState, Run.Reach PoolInit (CallStep fun _ _ => True) s →
    (∀ i, (s.dirMetas i).inodeMaxCluster < INODE_THIRD_LEVEL_TOP) → s.PoolExact := by
  intro h
  obtain ⟨s, hreach, hfree, hk, hother⟩ := wide_written
  have hinv := PoolInv.reach hreach
  obtain ⟨fs', dm', htrunc, hzero, hbits⟩ := metaTrunc_bits (hinv.file 1)
  have hr : s.trunc 1 = .ok (s.update 1 fs' dm') := by
    unfold FatState.trunc
    rw [htrunc]
    rfl
  have hen : 1 ∉ s.free := by
    rw [hfree]
    exact List.not_mem_nil
  have hsteps : Run.Reach PoolInit (CallStep fun _ _ => True) s := by
    refine hreach.mono (fun _ h₀ => h₀) fun s s' hstep => ?_
    obtain ⟨call, hen, -, hr⟩ := hstep
    exact ⟨call, hen, trivial, hr⟩
  have hshort : ∀ i, ((s.update 1 fs' dm').dirMetas i).inodeMaxCluster ≤ 1 := by
    intro i
    show (if i = 1 then dm' else s.dirMetas i).inodeMaxCluster ≤ 1
    split
    · omega
    · rename_i hi
      exact hother i hi
  -- the inode that the loop over the third level misses
  have hlive : InodeKey.Live (s.dirMetas 1).inodeMaxCluster (.third 0) := by
    rw [hk]
    exact ⟨Nat.zero_lt_succ 39, Nat.lt_succ_self 1032⟩
  have hkept : InodeKey.id s.fs.inodes (s.dirMetas 1).item (.third 0) ∉
      inodesToFree s.fs.inodes (s.dirMetas 1).item (s.dirMetas 1).inodeMaxCluster := by
    intro hmem
    rw [inodesToFree_eq] at hmem
    obtain ⟨key, hkey, heq⟩ := List.mem_map.mp hmem
    rw [(hinv.file 1).inj key _ (live_of_mem_keysToFree hkey) hlive heq] at hkey
    exact third_not_mem_keysToFree (by omega) hkey
  have hset : Bitmap.get fs'.inodeBitmap (InodeKey.id s.fs.inodes (s.dirMetas 1).item (.third 0)) = true := by
    rw [hbits, (hinv.file 1).used _ hlive, Bool.and_true, decide_eq_true_eq]
    exact hkept
  have hexact := h (s.update 1 fs' dm') (.step hsteps ⟨.change (.trunc 1), hen, trivial, hr⟩) fun i =>
    Nat.lt_of_le_of_lt (hshort i) (by decide)
  obtain ⟨i, -, key, hl, -⟩ := (hexact _).mp hset
  exact not_live_of_le_one (hshort i) hl

end Exaros.Fat
