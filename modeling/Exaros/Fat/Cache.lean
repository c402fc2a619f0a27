import Exaros.Fat.Inode
import Mathlib.Data.List.TakeWhile

/-!
# Extending and dropping a cache

`metaCacheInode` appends one position: it writes a slot of an inode the cache owns or of one it just
took, so all earlier positions and all other caches read as before (`CacheStep`). `metaFreeInode`
gives inodes of the cache back; it never frees one twice, though it leaves third-level inodes
behind.
-/

namespace Exaros.Fat

section Alloc

variable {fs fs' : FileSystem} {x : Nat} {bm : Bitmap.Words}

theorem inodeAlloc_eq_ok (h : inodeAlloc fs = .ok (x, fs')) :
    Bitmap.get fs.inodeBitmap x = false ∧ x < INODE_NUM ∧
      fs' = { fs with inodeBitmap := Bitmap.set fs.inodeBitmap x } := by
  unfold inodeAlloc at h
  cases hf : Bitmap.findClear fs.inodeBitmap (INODE_NUM / 64) 0 with
  | none => rw [hf] at h; cases h
  | some y =>
    rw [hf] at h
    cases h
    obtain ⟨-, hlt, hfree, -⟩ := Bitmap.findClear_eq_some hf
    exact ⟨hfree, by simpa [INODE_NUM] using hlt, rfl⟩

theorem get_set_self (bm : Bitmap.Words) (c : Nat) : Bitmap.get (Bitmap.set bm c) c = true := by
  simp [Bitmap.get_set]

theorem get_set_of_true {j : Nat} (c : Nat) (h : Bitmap.get bm j = true) :
    Bitmap.get (Bitmap.set bm c) j = true := by
  simp [Bitmap.get_set, h]

theorem get_set_true {c j : Nat} (h : Bitmap.get (Bitmap.set bm c) j = true) :
    j = c ∨ Bitmap.get bm j = true := by
  simpa [Bitmap.get_set] using h

theorem get_of_get_set_false {c j : Nat} (h : Bitmap.get (Bitmap.set bm c) j = false) :
    j ≠ c ∧ Bitmap.get bm j = false := by
  simpa [Bitmap.get_set] using h

end Alloc

/-! ## One more position -/

section Grow

variable {fs fs' : FileSystem} {item : Nat → Nat} {k clus x : Nat}

/-- The new slot is one of an inode already owned. -/
theorem poolGrow_own (h : InodeOk fs item k) (hnew : ∀ key : InodeKey, key.Valid → key.start ≠ k)
    {key₀ : InodeKey} (hl₀ : InodeKey.Live k key₀) (hid₀ : key₀.id fs.inodes item = x) {i₀ : Nat}
    (hi₀ : k ≤ key₀.slot i₀) : PoolGrow fs item k (setInode fs x i₀ clus) item := by
  have hhit := h.not_hit i₀ (.inr ⟨key₀, hl₀, hid₀, hi₀⟩)
  have hno : ∀ key, InodeKey.Live (k + 1) key → ¬ InodeKey.Live k key → False := fun key hl hn =>
    hnew key (start_of_new hl hn).1 (start_of_new hl hn).2
  refine ⟨⟨fun _ _ _ => rfl, fun _ _ => rfl, fun _ _ => rfl, ?_⟩, fun _ hx => hx, ?_, ?_, ?_, fun _ hx => .inl hx⟩
  · intro key hl i _ hslot
    exact if_neg (hhit key hl i hslot)
  · intro y _ hown
    have hyx : y ≠ x := fun hyx => hown ⟨key₀, hl₀, hid₀.trans hyx.symm⟩
    funext j
    simp [setInode, hyx]
  · exact fun key hl hn => (hno key hl hn).elim
  · exact fun key _ hl hn => (hno key hl hn).elim

/-- The new slot opens a second-level inode. -/
theorem poolGrow_second (h : InodeOk fs item (8 + 64 * k)) (hk : k < 16) (hx : Bitmap.get fs.inodeBitmap x = false) :
    PoolGrow fs item (8 + 64 * k) (setInode { fs with inodeBitmap := Bitmap.set fs.inodeBitmap x } x 0 clus)
      (fun j => if j = 8 + k then x else item j) := by
  have hhit := h.not_hit 0 (.inl hx)
  have hnew : ∀ key, InodeKey.Live (8 + 64 * k + 1) key → ¬ InodeKey.Live (8 + 64 * k) key → key = .second k := by
    intro key hl hn
    obtain ⟨hv, hs⟩ := start_of_new hl hn
    cases key with
    | second j => simp only [InodeKey.start] at hs; rw [show j = k by omega]
    | third j => simp only [InodeKey.start] at hs; omega
    | leaf j l => simp only [InodeKey.start] at hs; omega
  refine ⟨⟨?_, ?_, ?_, ?_⟩, fun y hy => get_set_of_true x hy, ?_, ?_, ?_, ?_⟩
  · intro i hi _
    rw [if_neg (by omega)]
  · intro j hl
    have := hl.2
    simp only [InodeKey.start] at this
    rw [if_neg (by omega)]
  · intro j hl
    have := hl.2
    simp only [InodeKey.start] at this
    omega
  · intro key hl i _ hslot
    exact if_neg (hhit key hl i hslot)
  · intro y hy _
    have hyx : y ≠ x := fun hyx => by rw [hyx, hx] at hy; exact Bool.noConfusion hy
    funext j
    simp [setInode, hyx]
  · intro key hl hn
    obtain rfl := hnew key hl hn
    simp only [InodeKey.id, if_true]
    exact ⟨hx, get_set_self _ _⟩
  · intro key key' hl hn hl' hn' _
    rw [hnew key hl hn, hnew key' hl' hn']
  · intro y hy
    refine (get_set_true hy).symm.imp_right fun hyx => ⟨.second k, ⟨hk, by simp only [InodeKey.start]; omega⟩, ?_⟩
    simp only [InodeKey.id, if_true, hyx]

/-- Positions at which a leaf, or a third-level inode with its first leaf, comes into use. -/
theorem new_third {j l : Nat} {key : InodeKey} (hl : l < 64)
    (h : InodeKey.Live (1032 + 4096 * j + 64 * l + 1) key) (hn : ¬ InodeKey.Live (1032 + 4096 * j + 64 * l) key) :
    key = .leaf j l ∨ (l = 0 ∧ key = .third j) := by
  obtain ⟨hv, hs⟩ := start_of_new h hn
  cases key with
  | second j' => simp only [InodeKey.start, InodeKey.Valid] at hs hv; omega
  | third j' =>
    simp only [InodeKey.start] at hs
    exact .inr ⟨by omega, by rw [show j' = j by omega]⟩
  | leaf j' l' =>
    simp only [InodeKey.start, InodeKey.Valid] at hs hv
    left
    rw [show j' = j by omega, show l' = l by omega]

/-- The new slot opens a leaf below a third-level inode already owned. -/
theorem poolGrow_leaf {j l : Nat} (h : InodeOk fs item (1032 + 4096 * j + 64 * l)) (hj : j < 40) (hl : l < 64)
    (hl0 : l ≠ 0) (hx : Bitmap.get fs.inodeBitmap x = false) :
    PoolGrow fs item (1032 + 4096 * j + 64 * l)
      (setInode (setInode { fs with inodeBitmap := Bitmap.set fs.inodeBitmap x } (item (24 + j)) l x) x 0 clus)
      item := by
  set k := 1032 + 4096 * j + 64 * l with hk
  have hthird : InodeKey.Live k (.third j) := ⟨hj, by simp only [InodeKey.start]; omega⟩
  have hhit₁ : ∀ key, InodeKey.Live k key → ∀ i, key.slot i < k →
      ¬ (key.id fs.inodes item = item (24 + j) ∧ i = l) :=
    h.not_hit l (.inr ⟨.third j, hthird, rfl, Nat.le_refl _⟩)
  have hhit₂ := h.not_hit 0 (.inl hx)
  have htx : item (24 + j) ≠ x := fun htx => by
    have := h.used _ hthird
    simp only [InodeKey.id, htx, hx] at this
    exact Bool.noConfusion this
  have hnew : ∀ key, InodeKey.Live (k + 1) key → ¬ InodeKey.Live k key → key = .leaf j l := fun key h1 h2 =>
    (new_third hl h1 h2).resolve_right fun h => hl0 h.1
  have hid : (setInode (setInode { fs with inodeBitmap := Bitmap.set fs.inodeBitmap x } (item (24 + j)) l x)
      x 0 clus).inodes (item (24 + j)) l = x := by
    simp [setInode, htx]
  refine ⟨⟨fun _ _ _ => rfl, fun _ _ => rfl, fun _ _ => rfl, ?_⟩, fun y hy => get_set_of_true x hy, ?_, ?_, ?_, ?_⟩
  · intro key hlive i _ hslot
    simp only [setInode, if_neg (hhit₁ key hlive i hslot), if_neg (hhit₂ key hlive i hslot)]
  · intro y hy hown
    have hyx : y ≠ x := fun hyx => by rw [hyx, hx] at hy; exact Bool.noConfusion hy
    have hyt : y ≠ item (24 + j) := fun hyt => hown ⟨.third j, hthird, hyt.symm⟩
    funext i
    simp [setInode, hyx, hyt]
  · intro key h1 h2
    obtain rfl := hnew key h1 h2
    simp only [InodeKey.id, hid]
    exact ⟨hx, get_set_self _ _⟩
  · intro key key' h1 h2 h1' h2' _
    rw [hnew key h1 h2, hnew key' h1' h2']
  · intro y hy
    refine (get_set_true hy).symm.imp_right fun hyx => ⟨.leaf j l, ⟨⟨hj, hl⟩, by simp only [InodeKey.start]; omega⟩, ?_⟩
    simp only [InodeKey.id, hid, hyx]

/-- The new slot opens a third-level inode and its first leaf. -/
theorem poolGrow_third {j y : Nat} (h : InodeOk fs item (1032 + 4096 * j)) (hj : j < 40)
    (hx : Bitmap.get fs.inodeBitmap x = false) (hy : Bitmap.get fs.inodeBitmap y = false) (hxy : y ≠ x) :
    PoolGrow fs item (1032 + 4096 * j)
      (setInode (setInode { fs with inodeBitmap := Bitmap.set (Bitmap.set fs.inodeBitmap x) y } x 0 y) y 0 clus)
      (fun i => if i = 24 + j then x else item i) := by
  set k := 1032 + 4096 * j with hk
  have hhit₁ := h.not_hit 0 (.inl hx)
  have hhit₂ := h.not_hit 0 (.inl hy)
  have hnew : ∀ key, InodeKey.Live (k + 1) key → ¬ InodeKey.Live k key → key = .leaf j 0 ∨ key = .third j :=
    fun key h1 h2 => (new_third (l := 0) (by omega) h1 h2).imp_right And.right
  have hleaf : (setInode (setInode { fs with inodeBitmap := Bitmap.set (Bitmap.set fs.inodeBitmap x) y } x 0 y)
      y 0 clus).inodes x 0 = y := by
    simp [setInode, Ne.symm hxy]
  refine ⟨⟨?_, ?_, ?_, ?_⟩, fun z hz => get_set_of_true y (get_set_of_true x hz), ?_, ?_, ?_, ?_⟩
  · intro i hi _
    rw [if_neg (by omega)]
  · intro j' hl
    have := hl.1
    simp only [InodeKey.Valid] at this
    rw [if_neg (by omega)]
  · intro j' hl
    have := hl.2
    simp only [InodeKey.start] at this
    rw [if_neg (by omega)]
  · intro key hlive i _ hslot
    simp only [setInode, if_neg (hhit₁ key hlive i hslot), if_neg (hhit₂ key hlive i hslot)]
  · intro z hz _
    have hzx : z ≠ x := fun hzx => by rw [hzx, hx] at hz; exact Bool.noConfusion hz
    have hzy : z ≠ y := fun hzy => by rw [hzy, hy] at hz; exact Bool.noConfusion hz
    funext i
    simp [setInode, hzx, hzy]
  · intro key h1 h2
    rcases hnew key h1 h2 with rfl | rfl
    · simp only [InodeKey.id, if_true, hleaf]
      exact ⟨hy, get_set_self _ _⟩
    · simp only [InodeKey.id, if_true]
      exact ⟨hx, get_set_of_true y (get_set_self _ _)⟩
  · intro key key' h1 h2 h1' h2' heq
    rcases hnew key h1 h2 with rfl | rfl <;> rcases hnew key' h1' h2' with rfl | rfl
    · rfl
    · simp only [InodeKey.id, if_true, hleaf] at heq
      exact absurd heq hxy
    · simp only [InodeKey.id, if_true, hleaf] at heq
      exact absurd heq.symm hxy
    · rfl
  · intro z hz
    rcases get_set_true hz with hzy | hz
    · refine .inr ⟨.leaf j 0, ⟨⟨hj, by omega⟩, by simp only [InodeKey.start]; omega⟩, ?_⟩
      simp only [InodeKey.id, if_true, hleaf, hzy]
    · refine (get_set_true hz).symm.imp_right fun hzx => ⟨.third j, ⟨hj, by simp only [InodeKey.start]; omega⟩, ?_⟩
      simp only [InodeKey.id, if_true, hzx]

end Grow

/-- Inodes the pool still has. -/
def freeInodes (fs : FileSystem) : Nat := Bitmap.freeCount fs.inodeBitmap 0 INODE_NUM

/-- Inodes that caching a position takes from the pool. -/
def inodeNeed (pos : Nat) : Nat :=
  if pos < 8 then 0
  else if pos < 1032 then (if (pos - 8) % 64 = 0 then 1 else 0)
  else if (pos - 1032) % 64 = 0 then (if (pos - 1032) / 64 % 64 = 0 then 2 else 1)
  else 0

theorem freeInodes_alloc {fs fs' : FileSystem} {x : Nat} (h : inodeAlloc fs = .ok (x, fs')) :
    freeInodes fs' + 1 = freeInodes fs := by
  obtain ⟨hfree, hlt, rfl⟩ := inodeAlloc_eq_ok h
  exact Bitmap.freeCount_set (Nat.zero_le x) hlt hfree

variable {fs : FileSystem}

theorem exists_inodeAlloc (h : 0 < freeInodes fs) : ∃ x fs', inodeAlloc fs = .ok (x, fs') := by
  obtain ⟨c, hlo, hhi, hc⟩ := Bitmap.exists_clear h
  obtain ⟨x, hx⟩ := Bitmap.exists_findClear (n := INODE_NUM / 64) (i := 0) (by omega)
    (by simpa [INODE_NUM] using hhi) hc
  exact ⟨x, _, by unfold inodeAlloc; rw [hx]⟩

/-! ## `metaCacheInode` by position -/

section Equations

variable {fs : FileSystem} {dm : DirMeta} {clus : Nat}

theorem metaCacheInode_first {k : Nat} (hc : dm.clusCnt = k) (hm : dm.inodeMaxCluster = k) (h : k < 8) :
    metaCacheInode fs dm clus = .ok (fs, dm.bump.setItem k clus) := by
  have hb : INODE_SECOND_LEVEL_BOTTOM = 8 := rfl
  unfold metaCacheInode
  rw [hc, hm, if_neg (by simp), hb]
  simp only [if_pos h]
  rfl

theorem metaCacheInode_second {j i : Nat} (hc : dm.clusCnt = 8 + 64 * j + i)
    (hm : dm.inodeMaxCluster = 8 + 64 * j + i) (hj : j < 16) (hi : i < 64) :
    metaCacheInode fs dm clus =
      if i = 0 then
        (inodeAlloc fs).bind fun r => .ok (setInode r.2 r.1 i clus, dm.bump.setItem (8 + j) r.1)
      else .ok (setInode fs (dm.item (8 + j)) i clus, dm.bump) := by
  have hb : INODE_SECOND_LEVEL_BOTTOM = 8 := rfl
  have ht : INODE_THIRD_LEVEL_BOTTOM = 1032 := rfl
  have hn : INODE_ITEM_NUM = 64 := rfl
  have hs : INODE_SECOND_ITEM_BASE = 8 := rfl
  have h1 : ¬ 8 + 64 * j + i < 8 := by omega
  have h2 : 8 + 64 * j + i < 1032 := by omega
  have h3 : (8 + 64 * j + i - 8) / 64 = j := by omega
  have h4 : (8 + 64 * j + i - 8) % 64 = i := by omega
  unfold metaCacheInode
  rw [hc, hm, if_neg (by simp), hb, ht, hn, hs]
  simp only [if_neg h1, if_pos h2, h3, h4]
  rfl

/-- A cluster cached at the third level, by what it takes of the pool. -/
theorem metaCacheInode_third {j l i : Nat} (hc : dm.clusCnt = 1032 + 4096 * j + 64 * l + i)
    (hm : dm.inodeMaxCluster = 1032 + 4096 * j + 64 * l + i) (hj : j < 40) (hl : l < 64) (hi : i < 64) :
    metaCacheInode fs dm clus =
      if i = 0 then
        if l = 0 then
          (inodeAlloc fs).bind fun r => (inodeAlloc r.2).bind fun q =>
            .ok (setInode (setInode q.2 r.1 l q.1) q.1 i clus, dm.bump.setItem (24 + j) r.1)
        else
          (inodeAlloc fs).bind fun q =>
            .ok (setInode (setInode q.2 (dm.item (24 + j)) l q.1) q.1 i clus, dm.bump)
      else .ok (setInode fs (fs.inodes (dm.item (24 + j)) l) i clus, dm.bump) := by
  have hb : INODE_SECOND_LEVEL_BOTTOM = 8 := rfl
  have ht : INODE_THIRD_LEVEL_BOTTOM = 1032 := rfl
  have htt : INODE_THIRD_LEVEL_TOP = 164872 := rfl
  have hn : INODE_ITEM_NUM = 64 := rfl
  have hs : INODE_THIRD_ITEM_BASE = 24 := rfl
  have h1 : ¬ 1032 + 4096 * j + 64 * l + i < 8 := by omega
  have h2 : ¬ 1032 + 4096 * j + 64 * l + i < 1032 := by omega
  have h3 : 1032 + 4096 * j + 64 * l + i < 164872 := by omega
  have h4 : (1032 + 4096 * j + 64 * l + i - 1032) / 64 / 64 = j := by omega
  have h5 : (1032 + 4096 * j + 64 * l + i - 1032) / 64 % 64 = l := by omega
  have h6 : (1032 + 4096 * j + 64 * l + i - 1032) % 64 = i := by omega
  unfold metaCacheInode
  rw [hc, hm, if_neg (by simp), hb, ht, htt, hn, hs]
  simp only [if_neg h1, if_neg h2, if_pos h3, h4, h5, h6]
  rfl

theorem metaCacheInode_past {k : Nat} (hc : dm.clusCnt = k) (hm : dm.inodeMaxCluster = k)
    (h : INODE_THIRD_LEVEL_TOP ≤ k) : metaCacheInode fs dm clus = .ok (fs, dm.bump) := by
  have hb : INODE_SECOND_LEVEL_BOTTOM = 8 := rfl
  have ht : INODE_THIRD_LEVEL_BOTTOM = 1032 := rfl
  have htt : INODE_THIRD_LEVEL_TOP = 164872 := rfl
  rw [htt] at h
  have h1 : ¬ k < 8 := by omega
  have h2 : ¬ k < 1032 := by omega
  have h3 : ¬ k < 164872 := by omega
  unfold metaCacheInode
  rw [hc, hm, if_neg (by simp), hb, ht, htt]
  simp only [if_neg h1, if_neg h2, if_neg h3]
  rfl

end Equations

/-- What `metaCacheInode` does: one more position is cached, and only the pool changes. -/
structure CacheStep (fs : FileSystem) (dm : DirMeta) (clus : Nat) (fs' : FileSystem) (dm' : DirMeta) : Prop where
  volume : ∃ inodes' bm', fs' = { fs with inodes := inodes', inodeBitmap := bm' }
  file : ∃ item', dm' = { dm.bump with item := item' }
  grow : PoolGrow fs dm.item dm.inodeMaxCluster fs' dm'.item
  cached : dm.inodeMaxCluster < INODE_THIRD_LEVEL_TOP →
    cachedClus fs'.inodes dm'.item dm.inodeMaxCluster = clus
  count : freeInodes fs' + (if dm.inodeMaxCluster < INODE_THIRD_LEVEL_TOP then inodeNeed dm.inodeMaxCluster else 0) =
    freeInodes fs

section Step

variable {fs fs' : FileSystem} {dm dm' : DirMeta} {clus : Nat}

theorem except_bind_ok {ε α β : Type} {x : Except ε α} {f : α → Except ε β} {b : β} (h : x.bind f = .ok b) :
    ∃ a, x = .ok a ∧ f a = .ok b := by
  cases x with
  | error e => cases h
  | ok a => exact ⟨a, rfl, h⟩

theorem cacheStep_first (hm : dm.inodeMaxCluster < 8) :
    CacheStep fs dm clus fs (dm.bump.setItem dm.inodeMaxCluster clus) := by
  have hno : ∀ key, ¬ InodeKey.Live (dm.inodeMaxCluster + 1) key := fun key hl => by
    have := hl.2
    cases key <;> simp only [InodeKey.start] at this <;> omega
  have hno' : ∀ key, ¬ InodeKey.Live dm.inodeMaxCluster key := fun key hl => hno key (hl.mono (by omega))
  refine ⟨⟨_, _, rfl⟩, ⟨_, rfl⟩, ⟨⟨?_, fun j hl => (hno' _ hl).elim, fun j hl => (hno' _ hl).elim,
    fun key hl => (hno' _ hl).elim⟩, fun _ h => h, fun _ _ _ => rfl, fun key hl => (hno _ hl).elim,
    fun key _ hl => (hno _ hl).elim, fun _ hx => .inl hx⟩, ?_, ?_⟩
  · intro i _ hi
    exact if_neg (by omega)
  · intro _
    rw [cachedClus_first hm]
    exact if_pos rfl
  · unfold inodeNeed
    simp [hm]

theorem cacheStep_second_own {j i : Nat} (hm : dm.inodeMaxCluster = 8 + 64 * j + i) (hj : j < 16) (hi : i < 64)
    (hi0 : i ≠ 0) (h : InodeOk fs dm.item dm.inodeMaxCluster) :
    CacheStep fs dm clus (setInode fs (dm.item (8 + j)) i clus) dm.bump := by
  have hnew : ∀ key : InodeKey, key.Valid → key.start ≠ dm.inodeMaxCluster := fun key hv => by
    rw [hm]
    cases key <;> simp only [InodeKey.start] <;> omega
  have hlive : InodeKey.Live dm.inodeMaxCluster (.second j) := ⟨hj, by simp only [InodeKey.start]; omega⟩
  refine ⟨⟨_, _, rfl⟩, ⟨_, rfl⟩, poolGrow_own h hnew hlive rfl (Nat.le_of_eq hm), fun _ => ?_, ?_⟩
  · rw [hm, cachedClus_second hj hi]
    exact if_pos ⟨rfl, rfl⟩
  · have : inodeNeed dm.inodeMaxCluster = 0 := by
      rw [hm]
      unfold inodeNeed
      rw [if_neg (by omega), if_pos (by omega), if_neg (by omega)]
    rw [this, ite_self]
    rfl

theorem cacheStep_second_new {j x : Nat} {fs₁ : FileSystem} (hm : dm.inodeMaxCluster = 8 + 64 * j) (hj : j < 16)
    (h : InodeOk fs dm.item dm.inodeMaxCluster) (ha : inodeAlloc fs = .ok (x, fs₁)) :
    CacheStep fs dm clus (setInode fs₁ x 0 clus) (dm.bump.setItem (8 + j) x) := by
  have hcount := freeInodes_alloc ha
  obtain ⟨hx, -, rfl⟩ := inodeAlloc_eq_ok ha
  refine ⟨⟨_, _, rfl⟩, ⟨_, rfl⟩, ?_, fun _ => ?_, ?_⟩
  · rw [hm] at h ⊢
    exact poolGrow_second h hj hx
  · rw [hm, cachedClus_second_zero hj]
    simp [setInode, DirMeta.setItem]
  · have : inodeNeed dm.inodeMaxCluster = 1 := by
      rw [hm]
      unfold inodeNeed
      rw [if_neg (by omega), if_pos (by omega), if_pos (by omega)]
    have hlt : dm.inodeMaxCluster < INODE_THIRD_LEVEL_TOP := by
      rw [hm, show INODE_THIRD_LEVEL_TOP = 164872 from rfl]
      omega
    rw [this, if_pos hlt]
    exact hcount

/-- The third level goes on in a leaf that it has. -/
theorem cacheStep_third_own {j l i : Nat} (hm : dm.inodeMaxCluster = 1032 + 4096 * j + 64 * l + i) (hj : j < 40)
    (hl : l < 64) (hi : i < 64) (hi0 : i ≠ 0) (h : InodeOk fs dm.item dm.inodeMaxCluster) :
    CacheStep fs dm clus (setInode fs (fs.inodes (dm.item (24 + j)) l) i clus) dm.bump := by
  have hnew : ∀ key : InodeKey, key.Valid → key.start ≠ dm.inodeMaxCluster := fun key hv => by
    rw [hm]
    cases key <;> simp only [InodeKey.start, InodeKey.Valid] at hv ⊢ <;> omega
  have hlive : InodeKey.Live dm.inodeMaxCluster (.leaf j l) := ⟨⟨hj, hl⟩, by simp only [InodeKey.start]; omega⟩
  have hid : InodeKey.id fs.inodes dm.item (.leaf j l) = fs.inodes (dm.item (24 + j)) l := rfl
  have hthird := hlive.third_of_leaf
  have hne : dm.item (24 + j) ≠ fs.inodes (dm.item (24 + j)) l := fun heq => by
    have := h.inj (.third j) (.leaf j l) hthird hlive heq
    cases this
  refine ⟨⟨_, _, rfl⟩, ⟨_, rfl⟩, poolGrow_own h hnew hlive hid (Nat.le_of_eq hm), fun _ => ?_, ?_⟩
  · rw [hm, cachedClus_third hl hi]
    simp [setInode, DirMeta.bump, hne]
  · have : inodeNeed dm.inodeMaxCluster = 0 := by
      rw [hm]
      unfold inodeNeed
      rw [if_neg (by omega), if_neg (by omega), if_neg (by omega)]
    rw [this, ite_self]
    rfl

/-- The third level takes one leaf more. -/
theorem cacheStep_third_leaf {j l x : Nat} {fs₁ : FileSystem} (hm : dm.inodeMaxCluster = 1032 + 4096 * j + 64 * l)
    (hj : j < 40) (hl : l < 64) (hl0 : l ≠ 0) (h : InodeOk fs dm.item dm.inodeMaxCluster)
    (ha : inodeAlloc fs = .ok (x, fs₁)) :
    CacheStep fs dm clus (setInode (setInode fs₁ (dm.item (24 + j)) l x) x 0 clus) dm.bump := by
  have hcount := freeInodes_alloc ha
  obtain ⟨hx, -, rfl⟩ := inodeAlloc_eq_ok ha
  have hthird : InodeKey.Live dm.inodeMaxCluster (.third j) := ⟨hj, by simp only [InodeKey.start]; omega⟩
  have hne : dm.item (24 + j) ≠ x := fun heq => by
    have := h.used _ hthird
    simp only [InodeKey.id, heq, hx] at this
    exact Bool.noConfusion this
  refine ⟨⟨_, _, rfl⟩, ⟨_, rfl⟩, ?_, fun _ => ?_, ?_⟩
  · rw [hm] at h ⊢
    exact poolGrow_leaf h hj hl hl0 hx
  · rw [hm, cachedClus_leaf_zero hl]
    simp [setInode, DirMeta.bump, hne]
  · have : inodeNeed dm.inodeMaxCluster = 1 := by
      rw [hm]
      unfold inodeNeed
      rw [if_neg (by omega), if_neg (by omega), if_pos (by omega), if_neg (by omega)]
    have hlt : dm.inodeMaxCluster < INODE_THIRD_LEVEL_TOP := by
      rw [hm, show INODE_THIRD_LEVEL_TOP = 164872 from rfl]
      omega
    rw [this, if_pos hlt]
    exact hcount

/-- An entry of the third level begins with two inodes. -/
theorem cacheStep_third_new {j x y : Nat} {fs₁ fs₂ : FileSystem} (hm : dm.inodeMaxCluster = 1032 + 4096 * j)
    (hj : j < 40) (h : InodeOk fs dm.item dm.inodeMaxCluster) (ha : inodeAlloc fs = .ok (x, fs₁))
    (ha₂ : inodeAlloc fs₁ = .ok (y, fs₂)) :
    CacheStep fs dm clus (setInode (setInode fs₂ x 0 y) y 0 clus) (dm.bump.setItem (24 + j) x) := by
  have hcount := freeInodes_alloc ha
  have hcount₂ := freeInodes_alloc ha₂
  obtain ⟨hx, -, rfl⟩ := inodeAlloc_eq_ok ha
  obtain ⟨hy, -, rfl⟩ := inodeAlloc_eq_ok ha₂
  obtain ⟨hyx, hy⟩ := get_of_get_set_false hy
  refine ⟨⟨_, _, rfl⟩, ⟨_, rfl⟩, ?_, fun _ => ?_, ?_⟩
  · rw [hm] at h ⊢
    exact poolGrow_third h hj hx hy hyx
  · rw [hm, cachedClus_third_zero]
    simp [setInode, DirMeta.setItem, Ne.symm hyx]
  · have : inodeNeed dm.inodeMaxCluster = 2 := by
      rw [hm]
      unfold inodeNeed
      rw [if_neg (by omega), if_neg (by omega), if_pos (by omega), if_pos (by omega)]
    have hlt : dm.inodeMaxCluster < INODE_THIRD_LEVEL_TOP := by
      rw [hm, show INODE_THIRD_LEVEL_TOP = 164872 from rfl]
      omega
    rw [this, if_pos hlt, ← hcount, ← hcount₂]
    rfl

theorem cacheStep_past (hm : INODE_THIRD_LEVEL_TOP ≤ dm.inodeMaxCluster) : CacheStep fs dm clus fs dm.bump := by
  have htt : INODE_THIRD_LEVEL_TOP = 164872 := rfl
  have hno : ∀ key, InodeKey.Live (dm.inodeMaxCluster + 1) key → InodeKey.Live dm.inodeMaxCluster key := by
    intro key hl
    refine ⟨hl.1, ?_⟩
    have hv := hl.1
    cases key <;> simp only [InodeKey.start, InodeKey.Valid] at hv ⊢ <;> omega
  refine ⟨⟨_, _, rfl⟩, ⟨_, rfl⟩, ⟨⟨fun _ _ _ => rfl, fun _ _ => rfl, fun _ _ => rfl, fun _ _ _ _ _ => rfl⟩,
    fun _ h => h, fun _ _ _ => rfl, fun key hl hn => (hn (hno key hl)).elim,
    fun key _ hl hn => (hn (hno key hl)).elim, fun _ hx => .inl hx⟩, fun hlt => by omega, ?_⟩
  rw [if_neg (by omega), Nat.add_zero]

/-- **`metaCacheInode`.** When it returns, one more position is cached. -/
theorem metaCacheInode_ok (h : InodeOk fs dm.item dm.inodeMaxCluster) (hok : metaCacheInode fs dm clus = .ok (fs', dm')) :
    dm.clusCnt = dm.inodeMaxCluster ∧ CacheStep fs dm clus fs' dm' := by
  have hc : dm.clusCnt = dm.inodeMaxCluster := by
    by_contra hne
    unfold metaCacheInode at hok
    simp only [if_pos (show dm.clusCnt ≠ dm.inodeMaxCluster from hne)] at hok
    cases hok
  refine ⟨hc, ?_⟩
  by_cases htop : INODE_THIRD_LEVEL_TOP ≤ dm.inodeMaxCluster
  · rw [metaCacheInode_past hc rfl htop] at hok
    cases hok
    exact cacheStep_past htop
  rcases pos_cases (Nat.not_le.mp htop) with h8 | ⟨j, i, hj, hi, hm⟩ | ⟨j, l, i, hj, hl, hi, hm⟩
  · rw [metaCacheInode_first hc rfl h8] at hok
    cases hok
    exact cacheStep_first h8
  · rw [metaCacheInode_second (hc.trans hm) hm hj hi] at hok
    split at hok
    · rename_i hi0
      subst hi0
      obtain ⟨⟨x, fs₁⟩, ha, hok⟩ := except_bind_ok hok
      cases hok
      exact cacheStep_second_new hm hj h ha
    · rename_i hi0
      cases hok
      exact cacheStep_second_own hm hj hi hi0 h
  · rw [metaCacheInode_third (hc.trans hm) hm hj hl hi] at hok
    split at hok
    · rename_i hi0
      subst hi0
      split at hok
      · rename_i hl0
        subst hl0
        obtain ⟨⟨x, fs₁⟩, ha, hok⟩ := except_bind_ok hok
        obtain ⟨⟨y, fs₂⟩, ha₂, hok⟩ := except_bind_ok hok
        cases hok
        exact cacheStep_third_new hm hj h ha ha₂
      · rename_i hl0
        obtain ⟨⟨x, fs₁⟩, ha, hok⟩ := except_bind_ok hok
        cases hok
        exact cacheStep_third_leaf hm hj hl hl0 h ha
    · rename_i hi0
      cases hok
      exact cacheStep_third_own hm hj hl hi hi0 h

/-- `metaCacheInode` returns where the pool has the inodes the position needs. -/
theorem exists_metaCacheInode (fs : FileSystem) (dm : DirMeta) (clus : Nat) (hc : dm.clusCnt = dm.inodeMaxCluster)
    (htop : dm.inodeMaxCluster < INODE_THIRD_LEVEL_TOP) (hneed : inodeNeed dm.inodeMaxCluster ≤ freeInodes fs) :
    ∃ r, metaCacheInode fs dm clus = .ok r := by
  rcases pos_cases htop with h8 | ⟨j, i, hj, hi, hm⟩ | ⟨j, l, i, hj, hl, hi, hm⟩
  · exact ⟨_, metaCacheInode_first hc rfl h8⟩
  · rw [metaCacheInode_second (hc.trans hm) hm hj hi]
    split
    · rename_i hi0
      have hone : inodeNeed dm.inodeMaxCluster = 1 := by
        rw [hm]
        unfold inodeNeed
        rw [if_neg (by omega), if_pos (by omega), if_pos (by omega)]
      have hpos : 0 < freeInodes fs := by omega
      obtain ⟨x, fs₁, ha⟩ := exists_inodeAlloc hpos
      exact ⟨_, by rw [ha]; rfl⟩
    · exact ⟨_, rfl⟩
  · rw [metaCacheInode_third (hc.trans hm) hm hj hl hi]
    split
    · rename_i hi0
      split
      · rename_i hl0
        have htwo : inodeNeed dm.inodeMaxCluster = 2 := by
          rw [hm]
          unfold inodeNeed
          rw [if_neg (by omega), if_neg (by omega), if_pos (by omega), if_pos (by omega)]
        have hpos : 0 < freeInodes fs := by omega
        obtain ⟨x, fs₁, ha⟩ := exists_inodeAlloc hpos
        have hcount := freeInodes_alloc ha
        have hpos₁ : 0 < freeInodes fs₁ := by omega
        obtain ⟨y, fs₂, ha₂⟩ := exists_inodeAlloc hpos₁
        exact ⟨_, by rw [ha, Except.bind, ha₂]; rfl⟩
      · rename_i hl0
        have hone : inodeNeed dm.inodeMaxCluster = 1 := by
          rw [hm]
          unfold inodeNeed
          rw [if_neg (by omega), if_neg (by omega), if_pos (by omega), if_neg (by omega)]
        have hpos : 0 < freeInodes fs := by omega
        obtain ⟨x, fs₁, ha⟩ := exists_inodeAlloc hpos
        exact ⟨_, by rw [ha]; rfl⟩
    · exact ⟨_, rfl⟩

end Step

/-! ## Dropping a cache -/

/-- The keys of the inodes `metaFreeInode` frees. -/
def keysToFree (k : Nat) : List InodeKey :=
  (((List.range (INODE_THIRD_ITEM_BASE - INODE_SECOND_ITEM_BASE)).takeWhile fun j =>
      INODE_SECOND_LEVEL_BOTTOM + j * INODE_ITEM_NUM < k).map InodeKey.second) ++
  ((List.range (INODE_ITEM_NUM - INODE_THIRD_ITEM_BASE)).takeWhile fun j =>
      INODE_THIRD_LEVEL_BOTTOM + (INODE_THIRD_ITEM_BASE + j - INODE_SECOND_ITEM_BASE) * INODE_ITEM_NUM *
        INODE_ITEM_NUM < k).flatMap fun j =>
    (((List.range INODE_ITEM_NUM).takeWhile fun l =>
      INODE_THIRD_LEVEL_BOTTOM + (INODE_THIRD_ITEM_BASE + j - INODE_SECOND_ITEM_BASE) * INODE_ITEM_NUM *
        INODE_ITEM_NUM + l * INODE_ITEM_NUM < k).map (InodeKey.leaf j)) ++
    [InodeKey.third j]

theorem inodesToFree_eq (inodes : Nat → Nat → Nat) (item : Nat → Nat) (k : Nat) :
    inodesToFree inodes item k = (keysToFree k).map (InodeKey.id inodes item) := by
  unfold inodesToFree keysToFree
  rw [List.map_append, List.map_map, List.map_flatMap]
  simp only [List.map_append, List.map_map]
  rfl

/-- A prefix of a range on which a test holds. -/
theorem mem_takeWhile_range {n j : Nat} {p : Nat → Bool} (h : j ∈ (List.range n).takeWhile p) : j < n ∧ p j = true :=
  ⟨List.mem_range.mp ((List.takeWhile_sublist p).subset h), List.mem_takeWhile_imp h⟩

theorem nodup_takeWhile_range (n : Nat) (p : Nat → Bool) : ((List.range n).takeWhile p).Nodup :=
  (List.takeWhile_sublist p).nodup List.nodup_range

/-- Only what is in use is freed. -/
theorem live_of_mem_keysToFree {k : Nat} {key : InodeKey} (h : key ∈ keysToFree k) : InodeKey.Live k key := by
  have hn : INODE_ITEM_NUM = 64 := rfl
  have hs : INODE_SECOND_ITEM_BASE = 8 := rfl
  have ht : INODE_THIRD_ITEM_BASE = 24 := rfl
  have hsb : INODE_SECOND_LEVEL_BOTTOM = 8 := rfl
  have htb : INODE_THIRD_LEVEL_BOTTOM = 1032 := rfl
  rcases List.mem_append.mp h with h | h
  · obtain ⟨j, hj, rfl⟩ := List.mem_map.mp h
    obtain ⟨hlt, hp⟩ := mem_takeWhile_range hj
    rw [decide_eq_true_eq, hsb, hn] at hp
    rw [ht, hs] at hlt
    exact ⟨hlt, by simp only [InodeKey.start]; omega⟩
  · obtain ⟨j, hj, h⟩ := List.mem_flatMap.mp h
    obtain ⟨hlt, hp⟩ := mem_takeWhile_range hj
    rw [decide_eq_true_eq, htb, ht, hs, hn] at hp
    rw [hn, ht] at hlt
    rcases List.mem_append.mp h with h | h
    · obtain ⟨l, hl, rfl⟩ := List.mem_map.mp h
      obtain ⟨hllt, hlp⟩ := mem_takeWhile_range hl
      rw [decide_eq_true_eq, htb, ht, hs, hn] at hlp
      rw [hn] at hllt
      exact ⟨⟨hlt, hllt⟩, by simp only [InodeKey.start]; omega⟩
    · obtain rfl := List.mem_singleton.mp h
      exact ⟨hlt, by simp only [InodeKey.start]; omega⟩

/-- Nothing is freed twice. -/
theorem nodup_keysToFree (k : Nat) : (keysToFree k).Nodup := by
  refine List.nodup_append.mpr ⟨?_, ?_, ?_⟩
  · exact (nodup_takeWhile_range _ _).map fun _ _ h => InodeKey.second.inj h
  · refine List.nodup_flatMap.mpr ⟨fun j _ => ?_, ?_⟩
    · refine List.nodup_append.mpr ⟨?_, List.nodup_singleton _, ?_⟩
      · exact (nodup_takeWhile_range _ _).map fun _ _ h => (InodeKey.leaf.inj h).2
      · intro a ha b hb heq
        obtain ⟨l, -, rfl⟩ := List.mem_map.mp ha
        obtain rfl := List.mem_singleton.mp hb
        cases heq
    · refine (nodup_takeWhile_range _ _).imp fun {j j'} hne key hk hk' => hne ?_
      have third : ∀ {i : Nat} {f : Nat → Bool}, key ∈ ((List.range INODE_ITEM_NUM).takeWhile f).map
          (InodeKey.leaf i) ++ [InodeKey.third i] → (∃ l, key = .leaf i l) ∨ key = .third i := by
        intro i f h
        rcases List.mem_append.mp h with h | h
        · obtain ⟨l, -, rfl⟩ := List.mem_map.mp h
          exact .inl ⟨l, rfl⟩
        · exact .inr (List.mem_singleton.mp h)
      rcases third hk with ⟨l, rfl⟩ | rfl <;> rcases third hk' with ⟨l', h⟩ | h <;> cases h <;> rfl
  · intro a ha b hb heq
    obtain ⟨j, -, rfl⟩ := List.mem_map.mp ha
    obtain ⟨j', -, hb⟩ := List.mem_flatMap.mp hb
    rcases List.mem_append.mp hb with hb | hb
    · obtain ⟨l, -, rfl⟩ := List.mem_map.mp hb
      cases heq
    · obtain rfl := List.mem_singleton.mp hb
      cases heq

theorem get_foldl_clear (xs : List Nat) (bm : Bitmap.Words) (y : Nat) :
    Bitmap.get (xs.foldl Bitmap.clear bm) y = (decide (y ∉ xs) && Bitmap.get bm y) := by
  induction xs generalizing bm with
  | nil => simp
  | cons x xs ih =>
    rw [List.foldl_cons, ih, Bitmap.get_clear]
    by_cases hyx : y = x
    · simp [hyx]
    · simp [hyx]

/-- Freeing distinct inodes that are in use. -/
theorem foldlM_inodeFree {xs : List Nat} (hn : xs.Nodup) (hused : ∀ x ∈ xs, Bitmap.get fs.inodeBitmap x = true) :
    xs.foldlM inodeFree fs = .ok { fs with inodeBitmap := xs.foldl Bitmap.clear fs.inodeBitmap } := by
  induction xs generalizing fs with
  | nil => rfl
  | cons x xs ih =>
    obtain ⟨hx, hn⟩ := List.nodup_cons.mp hn
    have hfree : inodeFree fs x = .ok { fs with inodeBitmap := Bitmap.clear fs.inodeBitmap x } :=
      if_pos (hused x (List.mem_cons_self ..))
    rw [List.foldlM_cons, hfree]
    refine ih hn fun y hy => ?_
    have hyx : y ≠ x := fun hyx => hx (hyx ▸ hy)
    simp [Bitmap.get_clear, hyx, hused y (List.mem_cons_of_mem _ hy)]

/-- The inodes `metaFreeInode` frees are in use, distinct and own. -/
theorem inodesToFree_ok {item : Nat → Nat} {k : Nat} (h : InodeOk fs item k) :
    (inodesToFree fs.inodes item k).Nodup ∧ ∀ x ∈ inodesToFree fs.inodes item k,
      Owns fs item k x ∧ Bitmap.get fs.inodeBitmap x = true := by
  have hlive : ∀ key ∈ keysToFree k, InodeKey.Live k key := fun _ => live_of_mem_keysToFree
  rw [inodesToFree_eq]
  refine ⟨List.Nodup.map_on (fun key hk key' hk' heq => ?_) (nodup_keysToFree _), fun x hx => ?_⟩
  · exact h.inj key key' (hlive key hk) (hlive key' hk') heq
  · obtain ⟨key, hk, rfl⟩ := List.mem_map.mp hx
    exact ⟨⟨key, hlive key hk, rfl⟩, h.used key (hlive key hk)⟩

/-- `metaFreeInode` returns, and clears the bits of the inodes it frees. -/
theorem metaFreeInode_eq (dm : DirMeta) (h : InodeOk fs dm.item dm.inodeMaxCluster) :
    ∃ bm, metaFreeInode fs dm = .ok ({ fs with inodeBitmap := bm }, { dm with inodeMaxCluster := 0 }) ∧
      ∀ x, Bitmap.get bm x =
        (decide (x ∉ inodesToFree fs.inodes dm.item dm.inodeMaxCluster) && Bitmap.get fs.inodeBitmap x) := by
  obtain ⟨hnodup, hown⟩ := inodesToFree_ok h
  refine ⟨(inodesToFree fs.inodes dm.item dm.inodeMaxCluster).foldl Bitmap.clear fs.inodeBitmap, ?_,
    fun x => get_foldl_clear _ _ x⟩
  unfold metaFreeInode
  rw [foldlM_inodeFree hnodup fun x hx => (hown x hx).2]
  rfl

/-- **`metaFreeInode`.** It returns, empties the cache and gives back own inodes only. -/
theorem metaFreeInode_ok (dm : DirMeta) (h : InodeOk fs dm.item dm.inodeMaxCluster) :
    ∃ bm, metaFreeInode fs dm = .ok ({ fs with inodeBitmap := bm }, { dm with inodeMaxCluster := 0 }) ∧
      (∀ x, ¬ Owns fs dm.item dm.inodeMaxCluster x → Bitmap.get bm x = Bitmap.get fs.inodeBitmap x) ∧
      ∀ x, Bitmap.get bm x = true → Bitmap.get fs.inodeBitmap x = true := by
  obtain ⟨bm, heq, hbm⟩ := metaFreeInode_eq dm h
  refine ⟨bm, heq, fun x hx => ?_, fun x hx => ?_⟩
  · have hnot : x ∉ inodesToFree fs.inodes dm.item dm.inodeMaxCluster := fun hmem =>
      hx ((inodesToFree_ok h).2 x hmem).1
    rw [hbm]
    simp [hnot]
  · rw [hbm] at hx
    exact (Bool.and_eq_true_iff.mp hx).2

/-! ## What dropping a cache leaves behind -/

/-- A range is scanned as far as a test holds. -/
theorem mem_takeWhile_range_iff {n j : Nat} {p : Nat → Bool} (hanti : ∀ i, i ≤ j → p j = true → p i = true) :
    j ∈ (List.range n).takeWhile p ↔ j < n ∧ p j = true := by
  refine ⟨mem_takeWhile_range, ?_⟩
  rintro ⟨hlt, hp⟩
  induction n with
  | zero => omega
  | succ n ih =>
    rw [List.range_succ, List.takeWhile_append]
    split
    · by_cases hj : j < n
      · exact List.mem_append_left _ (List.mem_range.mpr hj)
      · obtain rfl : j = n := by omega
        exact List.mem_append_right _ (by simp [hp])
    · rename_i hshort
      by_cases hj : j < n
      · exact ih hj
      · -- the scan of the shorter range stops before `j`, where the test already holds
        refine absurd (congrArg List.length (List.takeWhile_eq_self_iff.mpr fun i hi => ?_)) hshort
        exact hanti i (by have := List.mem_range.mp hi; omega) hp

/-- Up to the second level, `metaFreeInode` frees the inodes of every key. -/
theorem mem_keysToFree {k : Nat} {key : InodeKey} (hk : k ≤ INODE_SECOND_LEVEL_TOP) (h : InodeKey.Live k key) :
    key ∈ keysToFree k := by
  have htop : INODE_SECOND_LEVEL_TOP = 1032 := rfl
  have hb : INODE_SECOND_LEVEL_BOTTOM = 8 := rfl
  have hn : INODE_ITEM_NUM = 64 := rfl
  obtain ⟨hv, hs⟩ := h
  cases key with
  | second j =>
    simp only [InodeKey.Valid, InodeKey.start] at hv hs
    refine List.mem_append_left _ (List.mem_map.mpr ⟨j, (mem_takeWhile_range_iff fun i hi hp => ?_).mpr ⟨hv, ?_⟩, rfl⟩)
    · rw [decide_eq_true_eq, hb, hn] at hp ⊢
      omega
    · rw [decide_eq_true_eq, hb, hn]
      omega
  | third j =>
    simp only [InodeKey.start] at hs
    omega
  | leaf j l =>
    simp only [InodeKey.start] at hs
    omega

/-- Past it, the last third-level inode is never freed: its base counts sixteen inodes too many. -/
theorem third_not_mem_keysToFree {k j : Nat} (hk : k ≤ 1032 + 4096 * (j + 1)) : InodeKey.third j ∉ keysToFree k := by
  have hn : INODE_ITEM_NUM = 64 := rfl
  have hs : INODE_SECOND_ITEM_BASE = 8 := rfl
  have ht : INODE_THIRD_ITEM_BASE = 24 := rfl
  have htb : INODE_THIRD_LEVEL_BOTTOM = 1032 := rfl
  intro h
  rcases List.mem_append.mp h with h | h
  · obtain ⟨i, -, heq⟩ := List.mem_map.mp h
    cases heq
  · obtain ⟨i, hi, h⟩ := List.mem_flatMap.mp h
    obtain ⟨-, hp⟩ := mem_takeWhile_range hi
    rw [decide_eq_true_eq, htb, ht, hs, hn] at hp
    rcases List.mem_append.mp h with h | h
    · obtain ⟨l, -, heq⟩ := List.mem_map.mp h
      cases heq
    · obtain rfl : j = i := InodeKey.third.inj (List.mem_singleton.mp h)
      omega

/-- **What `metaFreeInode` gives back.** For a cache that the levels hold, it is every inode of the
cache exactly if the cache ends with the second level. -/
theorem inodesToFree_all_iff {item : Nat → Nat} {k : Nat} (h : InodeOk fs item k) (hk : k ≤ INODE_THIRD_LEVEL_TOP) :
    (∀ x, Owns fs item k x → x ∈ inodesToFree fs.inodes item k) ↔ k ≤ INODE_SECOND_LEVEL_TOP := by
  have htop : INODE_THIRD_LEVEL_TOP = 1032 + 40 * 4096 := rfl
  have hsec : INODE_SECOND_LEVEL_TOP = 1032 := rfl
  constructor
  · intro hall
    by_contra hgt
    have hlive : InodeKey.Live k (.third ((k - 1033) / 4096)) := by
      refine ⟨?_, ?_⟩
      · show (k - 1033) / 4096 < 40
        omega
      · show 1032 + 4096 * ((k - 1033) / 4096) < k
        omega
    have hmem := hall _ ⟨_, hlive, rfl⟩
    rw [inodesToFree_eq] at hmem
    obtain ⟨key, hkey, heq⟩ := List.mem_map.mp hmem
    rw [h.inj key _ (live_of_mem_keysToFree hkey) hlive heq] at hkey
    exact third_not_mem_keysToFree (by omega) hkey
  · rintro hle x ⟨key, hl, rfl⟩
    rw [inodesToFree_eq]
    exact List.mem_map.mpr ⟨key, mem_keysToFree hle hl, rfl⟩

end Exaros.Fat
