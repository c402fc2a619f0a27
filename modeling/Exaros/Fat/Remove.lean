import Exaros.Fat.Transfer

/-!
# Creating and emptying files

`metaTrunc` walks the chain of a file and frees every cluster of it; `metaAlloc` sets up a `DirMeta`
that has none, and gives a directory its first cluster.
-/

namespace Exaros.Fat

variable {fs fs' : FileSystem} {dm dm' : DirMeta} {L L' : List Nat} {c : Nat}

/-! ## Freeing a chain -/

/-- The clusters of `L` are freed, and nothing else changes. -/
structure Freed (fs : FileSystem) (L : List Nat) (fs' : FileSystem) : Prop where
  frame : ∃ d bm, fs' = { fs with disk := d, clusterBitmap := bm }
  bit : ∀ x, Bitmap.get fs'.clusterBitmap x = (decide (x ∉ L) && Bitmap.get fs.clusterBitmap x)
  entry : ∀ x < fs.superBlock.FATsz * 128, fatEntry fs' x = if x ∈ L then 0 else fatEntry fs x
  byte : ∀ a, fs.superBlock.Data a → byteAt fs'.disk a = byteAt fs.disk a

theorem Freed.nil (fs : FileSystem) : Freed fs [] fs :=
  ⟨⟨_, _, rfl⟩, fun _ => by simp, fun _ _ => by simp, fun _ _ => rfl⟩

/-- `freeClus` frees one cluster. -/
theorem freed_freeClus (hok : fs.superBlock.Ok) (hc : fs.superBlock.InRange c) : Freed fs [c] (freeClus fs c) := by
  rw [freeClus_eq hok hc.2]
  refine ⟨⟨_, _, rfl⟩, fun x => ?_, fun x _ => ?_, fun a ha => ?_⟩
  · show Bitmap.get (Bitmap.clear fs.clusterBitmap c) x = _
    rw [Bitmap.get_clear]
    simp
  · show fatEntry (storeEntry fs c 0) x = _
    rw [fatEntry_storeEntry (by decide)]
    simp only [List.mem_singleton]
  · exact byteAt_storeEntry hok (hok.inRange_bounds hc).1 ha

theorem Freed.cons {fs'' : FileSystem} (h : Freed fs [c] fs') (h' : Freed fs' L fs'') : Freed fs (c :: L) fs'' := by
  obtain ⟨d, bm, hfs⟩ := h.frame
  have hsb : fs'.superBlock = fs.superBlock := by rw [hfs]
  obtain ⟨d', bm', hfs'⟩ := h'.frame
  have hentry' := h'.entry
  have hbyte' := h'.byte
  rw [hsb] at hentry' hbyte'
  refine ⟨⟨d', bm', by rw [hfs', hfs]⟩, fun x => ?_, fun x hx => ?_, fun a ha => ?_⟩
  · rw [h'.bit, h.bit]
    by_cases hxc : x = c <;> simp [hxc]
  · rw [hentry' x hx, h.entry x hx]
    by_cases hxL : x ∈ L <;> simp [hxL]
  · rw [hbyte' a ha, h.byte a ha]

/-- **The loop of `metaTrunc`** frees the chain it starts at. -/
theorem freed_truncLoop (hok : fs.superBlock.Ok) (h : IsChain fs L) {n : Nat} (hn : L.length ≤ n) :
    Freed fs L (truncLoop n fs (L.headD 0)) := by
  induction L generalizing fs n with
  | nil =>
    have heq : truncLoop n fs 0 = fs := by cases n <;> rfl
    show Freed fs [] (truncLoop n fs 0)
    rw [heq]
    exact Freed.nil fs
  | cons c L ih =>
    obtain ⟨m, rfl⟩ : ∃ m, n = m + 1 := ⟨n - 1, by simp at hn; omega⟩
    have hc := h.inRange c (List.mem_cons_self ..)
    have hone := freed_freeClus hok hc
    have hsb : (freeClus fs c).superBlock = fs.superBlock := by
      obtain ⟨d, bm, hfs⟩ := hone.frame
      rw [hfs]
    have hok' : (freeClus fs c).superBlock.Ok := by rw [hsb]; exact hok
    -- the rest of the chain does not pass through `c` again
    have htail : IsChain (freeClus fs c) L := by
      refine h.tail.congr hsb fun x hx => ?_
      have hne : x ≠ c := fun heq => (List.nodup_cons.mp h.nodup).1 (heq ▸ hx)
      have hxR := h.inRange x (List.mem_cons_of_mem _ hx)
      rw [hone.entry x (hok.inRange_bounds hxR).1, if_neg (by simpa using hne)]
    have hstep : truncLoop (m + 1) fs c = truncLoop m (freeClus fs c) (fatEntry fs c) := by
      rw [truncLoop, if_pos ⟨hc.1, (hok.inRange_bounds hc).2⟩, readFat_eq hok hc.2]
    show Freed fs (c :: L) (truncLoop (m + 1) fs c)
    rw [hstep]
    refine hone.cons ?_
    cases L with
    | nil =>
      have hlast := h.last c rfl
      have heq : truncLoop m (freeClus fs c) (fatEntry fs c) = freeClus fs c := by
        cases m with
        | zero => rfl
        | succ m => exact if_neg (by omega)
      rw [heq]
      exact Freed.nil _
    | cons c' L =>
      rw [h.next 0 c c' rfl rfl]
      exact ih hok' htail (by simp at hn ⊢; omega)

/-- **`metaTrunc`.** It returns, and the file has no clusters left. -/
theorem metaTrunc_ok (hok : fs.superBlock.Ok) (hb : BitmapOk fs) (h : FileOk fs dm L) :
    ∃ fs', metaTrunc fs dm = .ok (fs', { dm with fileSize := 0, firstClus := 0, inodeMaxCluster := 0 }) ∧
      Local fs dm L fs' { dm with fileSize := 0, firstClus := 0, inodeMaxCluster := 0 } [] := by
  have hlen := h.chain.length_le
  have hf := freed_truncLoop hok h.chain (n := fs.superBlock.dataClusCnt + 2) (by omega)
  rw [← h.first] at hf
  generalize hfs₁ : truncLoop (fs.superBlock.dataClusCnt + 2) fs dm.firstClus = fs₁ at hf
  obtain ⟨d, bmc, rfl⟩ := hf.frame
  have hinode : InodeOk { fs with disk := d, clusterBitmap := bmc } dm.item dm.inodeMaxCluster :=
    inodeOk_congr h.inodeOk rfl rfl
  obtain ⟨bm, heq, hbm, -⟩ := metaFreeInode_ok { dm with fileSize := 0, firstClus := 0 } hinode
  have hrange : ∀ {x : Nat}, fs.superBlock.InRange x → x < fs.superBlock.FATsz * 128 := fun hx =>
    (hok.inRange_bounds hx).1
  have hlow : ∀ x, ¬ fs.superBlock.InRange x → x ∉ L := fun x hx hxL => hx (h.chain.inRange x hxL)
  refine ⟨{ fs with disk := d, clusterBitmap := bmc, inodeBitmap := bm }, ?_, rfl, ⟨?_, ?_, fun x hx => ?_⟩, ⟨IsChain.nil _, rfl, fun hne => absurd rfl hne, Nat.zero_le _, ?_, ?_, ?_⟩, ?_,
    fun x hx => absurd hx List.not_mem_nil, ?_, ?_, ⟨[], (List.append_nil _).symm, fun _ hx => absurd hx List.not_mem_nil⟩⟩
  · unfold metaTrunc
    rw [hfs₁]
    exact heq
  · show Bitmap.get bmc 0 = true
    have h0 : (0 : Nat) ∉ L := hlow 0 fun h0 => by have := h0.1; omega
    rw [hf.bit 0, hb.zero]
    simpa using h0
  · show Bitmap.get bmc 1 = true
    have h1 : (1 : Nat) ∉ L := hlow 1 fun h1 => by have := h1.1; omega
    rw [hf.bit 1, hb.one]
    simpa using h1
  · show Bitmap.get bmc x = true ↔ fatEntry { fs with disk := d, clusterBitmap := bmc } x ≠ 0
    rw [hf.bit x, hf.entry x (hrange hx)]
    by_cases hxL : x ∈ L
    · simp [hxL]
    · simp only [hxL, not_false_iff, decide_true, Bool.true_and, if_false]
      exact hb.bit x hx
  · intro i x hi
    exact absurd hi (Nat.not_lt_zero i)
  · intro key hl
    exact absurd hl.2 (Nat.not_lt_zero _)
  · intro key key' hl
    exact absurd hl.2 (Nat.not_lt_zero _)
  · intro x hx hused hxL
    refine ⟨?_, ?_, fun i _ => hf.byte _ (data_clusAddr _ _ _)⟩
    · show Bitmap.get bmc x = true
      rw [hf.bit x, hused]
      simpa using hxL
    · show fatEntry { fs with disk := d, clusterBitmap := bmc } x = fatEntry fs x
      rw [hf.entry x (hrange hx), if_neg hxL]
  · intro x hx hown
    refine ⟨?_, rfl⟩
    rw [hbm x fun ho => hown ho]
    exact hx
  · rintro x ⟨key, hl, -⟩
    exact absurd hl.2 (Nat.not_lt_zero _)

/-! ## Creating a file -/

/-- A cache of at most one cluster uses no pool inode. -/
theorem not_live_of_le_one {k : Nat} {key : InodeKey} (hk : k ≤ 1) : ¬ InodeKey.Live k key := by
  intro hl
  have := hl.2
  cases key <;> simp only [InodeKey.start] at this <;> omega

theorem metaFreeInode_of_le_one (hk : dm.inodeMaxCluster ≤ 1) :
    metaFreeInode fs dm = .ok (fs, { dm with inodeMaxCluster := 0 }) := by
  have hnil : inodesToFree fs.inodes dm.item dm.inodeMaxCluster = [] := by
    rw [inodesToFree_eq, List.map_eq_nil_iff]
    exact List.eq_nil_iff_forall_not_mem.mpr fun key hkey => not_live_of_le_one hk (live_of_mem_keysToFree hkey)
  unfold metaFreeInode
  rw [hnil]
  rfl

/-- An empty `DirMeta` as `metaAlloc` leaves it. -/
theorem local_empty (dm' : DirMeta) (hb : BitmapOk fs) (h : FileOk fs dm []) (hfirst : dm'.firstClus = 0) (hk : dm'.inodeMaxCluster = 0) :
    Local fs dm [] fs dm' [] := by
  have hr := Local.refl hb h
  refine ⟨rfl, hb, ⟨IsChain.nil fs, hfirst, fun hne => absurd rfl hne, by omega, ?_, ?_, ?_⟩, hr.clusters, hr.grown,
    hr.pool, ?_, hr.calls⟩
  · intro i c _ _ hc
    cases hc
  · intro key hl
    exact absurd hl (not_live_of_le_one (by omega))
  · intro key key' hl
    exact absurd hl (not_live_of_le_one (by omega))
  · rintro x ⟨key, hl, -⟩
    exact absurd hl (not_live_of_le_one (by omega))

/-- `metaAlloc` of a file that is no directory. -/
theorem metaAlloc_file (hb : BitmapOk fs) (h : FileOk fs dm []) {attr : Nat} (hattr : attr ≠ ATTR_DIRECTORY) :
    ∃ dm', metaAlloc fs dm attr = .ok (fs, dm') ∧ Local fs dm [] fs dm' [] ∧ dm'.fileSize = 0 ∧
      dm'.inodeMaxCluster = 0 ∧ dm'.curClus = 0 := by
  have hk : dm.inodeMaxCluster ≤ 1 := by simpa using h.count
  by_cases hlink : attr = ATTR_LINK
  · refine ⟨{ dm with
      attr := 0 ||| ATTR_ARCHIVE, reserve := DT_LNK, fileSize := 0, firstClus := 0, inodeMaxCluster := 0,
      clusCnt := 0, curClus := 0 }, ?_, local_empty _ hb h rfl rfl, rfl, rfl, rfl⟩
    unfold metaAlloc
    simp only [if_pos hlink]
    rw [metaFreeInode_of_le_one (by exact hk)]
    show (if attr = ATTR_DIRECTORY then _ else _) = _
    rw [if_neg hattr]
    rfl
  · refine ⟨{ dm with
      attr := attr ||| ATTR_ARCHIVE, reserve := 0, fileSize := 0, firstClus := 0, inodeMaxCluster := 0,
      clusCnt := 0, curClus := 0 }, ?_, local_empty _ hb h rfl rfl, rfl, rfl, rfl⟩
    unfold metaAlloc
    simp only [if_neg hlink]
    rw [metaFreeInode_of_le_one (by exact hk)]
    show (if attr = ATTR_DIRECTORY then _ else _) = _
    rw [if_neg hattr]
    rfl

/-- `metaAlloc` of a directory takes one cluster. -/
theorem metaAlloc_directory_eq (hk : dm.inodeMaxCluster ≤ 1) (ha : allocClus fs = .ok (c, fs')) :
    metaAlloc fs dm ATTR_DIRECTORY = .ok (fs', { DirMeta.start { dm with
      attr := ATTR_DIRECTORY ||| ATTR_DIRECTORY, reserve := 0, fileSize := 0, firstClus := 0, inodeMaxCluster := 0,
      clusCnt := 0, curClus := 0 } c with clusCnt := 0 }) := by
  unfold metaAlloc
  simp only [if_neg (show ¬ ATTR_DIRECTORY = ATTR_LINK by decide)]
  rw [metaFreeInode_of_le_one (by exact hk)]
  show Except.bind (allocClus fs) _ = _
  rw [ha]
  rfl

/-- `metaAlloc` of a directory, where a data cluster is free. -/
theorem metaAlloc_directory (hok : fs.superBlock.Ok) (hb : BitmapOk fs) (h : FileOk fs dm []) (hfree : 0 < freeClusters fs) :
    ∃ fs' dm' c, metaAlloc fs dm ATTR_DIRECTORY = .ok (fs', dm') ∧ Local fs dm [] fs' dm' [c] ∧
      dm'.fileSize = 0 ∧ dm'.attr = ATTR_DIRECTORY := by
  have hk : dm.inodeMaxCluster ≤ 1 := by simpa using h.count
  obtain ⟨c, fs', ha, hc, hall⟩ := exists_allocated hok hb hfree
  have hempty := local_empty { dm with
    attr := ATTR_DIRECTORY ||| ATTR_DIRECTORY, reserve := 0, fileSize := 0, firstClus := 0, inodeMaxCluster := 0,
    clusCnt := 0, curClus := 0 } hb h rfl rfl
  exact ⟨fs', _, c, metaAlloc_directory_eq hk ha, hempty.trans (ext_start hok hb hempty.fileOk hc hall).loc, rfl, rfl⟩

end Exaros.Fat
