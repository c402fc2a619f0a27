import Exaros.Fat.Pool

/-!
# The cache agrees with the chain

`relocClus` finds a cluster by its position through the cache of the file, following the FAT only
past what is cached. Here it is shown to return the cluster at that position of the chain, after any
history of calls on any files: with `alloc` the chain is extended by cleared clusters up to the
position, without it the call returns -1 if the chain ends before.

With `alloc` the clusters come from `allocClus`, so the runs are those in which the data area has
the clusters that are asked for.
-/

namespace Exaros.Fat

variable {fs fs' : FileSystem} {dm dm' : DirMeta} {L L' : List Nat} {off : Nat} {e : Panic} {alloc : Bool}

/-! ## Without `alloc` -/

/-- Behind the chain there is no next cluster. -/
theorem nextClus_stop (hok : fs.superBlock.Ok) (h : FileOk fs dm L) (hat : AtEnd dm L)
    (hlen : dm.inodeMaxCluster = L.length) : nextClus false fs dm.curClus = .ok none := by
  have hcnt := hat.cnt
  have hlast : L.getLast? = some dm.curClus := by
    rw [List.getLast?_eq_getElem?, show L.length - 1 = dm.clusCnt by omega]
    exact hat.cur
  have hcur := h.chain.inRange _ (List.mem_of_getElem? hat.cur)
  unfold nextClus
  rw [readFat_eq hok hcur.2]
  simp only [isEoc_last (h.chain.last _ hlast)]
  rfl

/-- A turn within the chain. -/
theorem relocLoop_mid (hok : fs.superBlock.Ok) (h : FileOk fs dm L) (hat : AtEnd dm L)
    (hlt : dm.inodeMaxCluster < L.length) (n : Nat) :
    ∃ c, L[dm.inodeMaxCluster]? = some c ∧ relocLoop false (n + 1) fs dm =
      (metaCacheInode fs { dm with curClus := c, clusCnt := dm.clusCnt + 1 } c).bind fun p =>
        relocLoop false n p.1 p.2 := by
  obtain ⟨c, hc, hnext⟩ := nextClus_mid hok h hat false hlt
  refine ⟨c, hc, ?_⟩
  rw [relocLoop, hnext]
  rfl

/-- What the loop of `relocClus` without `alloc` leaves behind after `n` turns. -/
structure Walked (fs : FileSystem) (dm : DirMeta) (L : List Nat) (n : Nat) (r : Option Unit) (fs' : FileSystem)
    (dm' : DirMeta) : Prop where
  ext : Ext fs dm L fs' dm' L
  inside : dm.inodeMaxCluster + n ≤ L.length → r = some () ∧ AtEnd dm' L ∧
    dm'.inodeMaxCluster = dm.inodeMaxCluster + n
  past : L.length < dm.inodeMaxCluster + n → r = none

/-- **The loop without `alloc`**, when it returns. -/
theorem relocLoop_walked (n : Nat) {r : Option Unit} (hok : fs.superBlock.Ok) (hb : BitmapOk fs) (h : FileOk fs dm L)
    (hat : AtEnd dm L) (hr : relocLoop false n fs dm = .ok (r, fs', dm')) : Walked fs dm L n r fs' dm' := by
  have hle := h.le_length hat.ne_nil
  induction n generalizing fs dm with
  | zero =>
    have heq := Prod.mk.inj (Except.ok.inj hr)
    obtain ⟨rfl, rfl⟩ := Prod.mk.inj heq.2
    exact ⟨Ext.refl hb h, fun _ => ⟨heq.1.symm, hat, rfl⟩, fun hlt => by omega⟩
  | succ n ih =>
    by_cases hlt : dm.inodeMaxCluster < L.length
    · obtain ⟨c, hc, heq⟩ := relocLoop_mid hok h hat hlt n
      rw [heq] at hr
      obtain ⟨⟨fs₁, dm₁⟩, hcache, hr⟩ := except_bind_ok hr
      obtain ⟨he, hat₁, hk₁⟩ := ext_turn hb h hat hc hcache
      have hw := ih (by rw [he.loc.superBlock]; exact hok) he.loc.bitmapOk he.loc.fileOk hat₁ hr
        (he.loc.fileOk.le_length hat.ne_nil)
      refine ⟨he.trans hw.ext, fun hin => ?_, fun hout => hw.past (by omega)⟩
      obtain ⟨hr', hat', hk'⟩ := hw.inside (by omega)
      exact ⟨hr', hat', by omega⟩
    · rw [relocLoop, nextClus_stop hok h hat (by omega)] at hr
      have heq := Prod.mk.inj (Except.ok.inj hr)
      obtain ⟨rfl, rfl⟩ := Prod.mk.inj heq.2
      exact ⟨Ext.setCur hb h _ _, fun hin => by omega, fun _ => heq.1.symm⟩

/-- It returns where the pool suffices. -/
theorem exists_relocLoop_walked (n : Nat) (hok : fs.superBlock.Ok) (hb : BitmapOk fs) (h : FileOk fs dm L)
    (hat : AtEnd dm L) (hpool : inodesBetween dm.inodeMaxCluster (min (dm.inodeMaxCluster + n) L.length) ≤ freeInodes fs) :
    ∃ r, relocLoop false n fs dm = .ok r := by
  have hle := h.le_length hat.ne_nil
  induction n generalizing fs dm with
  | zero => exact ⟨_, rfl⟩
  | succ n ih =>
    by_cases hlt : dm.inodeMaxCluster < L.length
    · obtain ⟨c, hc, heq⟩ := relocLoop_mid hok h hat hlt n
      rw [inodesBetween_head (by omega)] at hpool
      obtain ⟨⟨fs₁, dm₁⟩, hcache⟩ := exists_metaCacheInode_need fs { dm with curClus := c, clusCnt := dm.clusCnt + 1 } c hat.cnt
        (by show needAt dm.inodeMaxCluster ≤ _; omega)
      obtain ⟨he, hat₁, hk₁⟩ := ext_turn hb h hat hc hcache
      have hused := he.pool
      rw [hk₁, inodesBetween_one] at hused
      have hmin : min (dm₁.inodeMaxCluster + n) L.length = min (dm.inodeMaxCluster + (n + 1)) L.length := by omega
      obtain ⟨r, hrest⟩ := ih (by rw [he.loc.superBlock]; exact hok) he.loc.bitmapOk he.loc.fileOk hat₁
        (by rw [hmin, hk₁]; omega) (he.loc.fileOk.le_length hat.ne_nil)
      refine ⟨r, ?_⟩
      rw [heq, hcache]
      exact hrest
    · exact ⟨_, by rw [relocLoop, nextClus_stop hok h hat (by omega)]; rfl⟩

/-- What `relocClus` without `alloc` does at position `num`. -/
structure Found (fs : FileSystem) (dm : DirMeta) (L : List Nat) (num ret : Nat) (r : Int) (fs' : FileSystem)
    (dm' : DirMeta) : Prop where
  ext : Ext fs dm L fs' dm' L
  inside : num < L.length → r = ret ∧ L[num]? = some dm'.curClus
  past : L.length ≤ num → r = -1

/-- **`relocClus` without `alloc`**, when it returns. -/
theorem relocClus_found (hok : fs.superBlock.Ok) (hb : BitmapOk fs) (h : FileOk fs dm L) (hne : L ≠ [])
    {r : Int} (hr : relocClus fs dm off false = .ok (r, fs', dm')) :
    Found fs dm L (off / fs.superBlock.bytsPerClus) (off % fs.superBlock.bytsPerClus) r fs' dm' := by
  have hle := h.le_length hne
  unfold relocClus at hr
  rw [if_neg (h.asserts hne)] at hr
  simp only at hr
  split at hr
  · rename_i hlt
    obtain ⟨dm₁, hfind, hr⟩ := except_bind_ok hr
    have heq := Prod.mk.inj (Except.ok.inj hr)
    obtain ⟨rfl, rfl⟩ := Prod.mk.inj heq.2
    have hreach := reached_cached hb h hne hlt hfind
    exact ⟨hreach.ext, fun _ => ⟨heq.1.symm, hreach.cur⟩, fun hge => by omega⟩
  · rename_i hge
    obtain ⟨dm₁, hfind, hr⟩ := except_bind_ok hr
    obtain ⟨⟨r', fs₂, dm₂⟩, hloop, hr⟩ := except_bind_ok hr
    have heq := Prod.mk.inj (Except.ok.inj hr)
    obtain ⟨hfs, hdm⟩ := Prod.mk.inj heq.2
    subst hfs hdm
    obtain ⟨hat, cur, cnt, rfl⟩ := atEnd_metaFindInode h hne hfind
    have hcnt := hat.cnt
    simp only at hcnt
    have hw := relocLoop_walked _ hok hb (h.setCur cur cnt) hat hloop
    have hin := hw.inside
    have hpast := hw.past
    simp only at hin hpast
    refine ⟨(Ext.setCur hb h cur cnt).trans hw.ext, fun hlt => ?_, fun hlt => ?_⟩
    · obtain ⟨rfl, hat', hk'⟩ := hin (by omega)
      have hcnt' := hat'.cnt
      refine ⟨heq.1.symm, ?_⟩
      rw [show off / fs.superBlock.bytsPerClus = dm₂.clusCnt by omega]
      exact hat'.cur
    · rw [hpast (by omega)] at heq
      exact heq.1.symm

/-- `relocClus` without `alloc` returns where the pool suffices. -/
theorem exists_relocClus_found (hok : fs.superBlock.Ok) (hb : BitmapOk fs) (h : FileOk fs dm L) (hne : L ≠ []) (off : Nat)
    (htop : min (off / fs.superBlock.bytsPerClus + 1) L.length ≤ INODE_THIRD_LEVEL_TOP)
    (hpool : inodesBetween dm.inodeMaxCluster (min (off / fs.superBlock.bytsPerClus + 1) L.length) ≤ freeInodes fs) :
    ∃ r, relocClus fs dm off false = .ok r := by
  have hle := h.le_length hne
  by_cases hlt : off / fs.superBlock.bytsPerClus < dm.inodeMaxCluster
  · exact exists_relocClus_cached h hne false hlt (by omega)
  · obtain ⟨cur, cnt, hat, hlast, heq⟩ := relocClus_uncached h hne false hlt (by omega)
    obtain ⟨r, hloop⟩ := exists_relocLoop_walked (off / fs.superBlock.bytsPerClus - cnt) hok hb (h.setCur cur cnt) hat
      (by show inodesBetween dm.inodeMaxCluster (min (dm.inodeMaxCluster + (_ - cnt)) _) ≤ _; rw [hlast]; exact hpool)
    rw [heq, hloop]
    exact ⟨_, rfl⟩

/-! ## What is returned, and which assertions can fail -/

/-- With `alloc` there is always a next cluster. -/
theorem relocLoop_alloc_some (n : Nat) {r : Option Unit} (hr : relocLoop true n fs dm = .ok (r, fs', dm')) :
    r = some () := by
  induction n generalizing fs dm with
  | zero => exact (Prod.mk.inj (Except.ok.inj hr)).1.symm
  | succ n ih =>
    rw [relocLoop] at hr
    obtain ⟨next, hnext, hr⟩ := except_bind_ok hr
    cases next with
    | none =>
      unfold nextClus at hnext
      simp only at hnext
      split at hnext
      · obtain ⟨⟨c, fs₁⟩, -, hnext⟩ := except_bind_ok hnext
        cases Except.ok.inj hnext
      · cases Except.ok.inj hnext
    | some p =>
      obtain ⟨⟨fs₁, dm₁⟩, -, hr⟩ := except_bind_ok hr
      exact ih hr

theorem relocClus_alloc_ret {r : Int} (hr : relocClus fs dm off true = .ok (r, fs', dm')) :
    r = off % fs.superBlock.bytsPerClus := by
  unfold relocClus at hr
  split at hr
  · cases hr
  · simp only at hr
    split at hr
    · obtain ⟨dm₁, -, hr⟩ := except_bind_ok hr
      exact (Prod.mk.inj (Except.ok.inj hr)).1.symm
    · obtain ⟨dm₁, -, hr⟩ := except_bind_ok hr
      obtain ⟨⟨r', fs₂, dm₂⟩, hloop, hr⟩ := except_bind_ok hr
      obtain rfl := relocLoop_alloc_some _ hloop
      exact (Prod.mk.inj (Except.ok.inj hr)).1.symm

theorem except_bind_error {ε α β : Type} {x : Except ε α} {f : α → Except ε β} {e : ε} (h : x.bind f = .error e) :
    x = .error e ∨ ∃ a, x = .ok a ∧ f a = .error e := by
  cases x with
  | error e' => exact .inl (congrArg Except.error (Except.error.inj h))
  | ok a => exact .inr ⟨a, rfl, h⟩

theorem allocClus_error (h : allocClus fs = .error e) : e = .allocClus := by
  unfold allocClus at h
  split at h
  · exact (Except.error.inj h).symm
  · cases h

theorem nextClus_error {cur : Nat} (h : nextClus alloc fs cur = .error e) :
    e = .allocClus := by
  unfold nextClus at h
  simp only at h
  split at h
  · split at h
    · rcases except_bind_error h with h | ⟨p, -, h⟩
      · exact allocClus_error h
      · cases h
    · cases h
  · cases h

/-- Where the pool suffices, the loop stops only for want of a cluster. -/
theorem relocLoop_error (n : Nat) (h : InodeOk fs dm.item dm.inodeMaxCluster) (hcnt : dm.clusCnt + 1 = dm.inodeMaxCluster)
    (hpool : inodesBetween dm.inodeMaxCluster (dm.inodeMaxCluster + n) ≤ freeInodes fs) (hr : relocLoop true n fs dm = .error e) : e = .allocClus := by
  induction n generalizing fs dm with
  | zero => cases hr
  | succ n ih =>
    rw [inodesBetween_head (by omega)] at hpool
    rw [relocLoop] at hr
    rcases except_bind_error hr with hr | ⟨next, hnext, hr⟩
    · exact nextClus_error hr
    · cases next with
      | none => cases hr
      | some p =>
        obtain ⟨clus, fs₁⟩ := p
        obtain ⟨hi, hb⟩ := nextClus_pool hnext
        have hfree : freeInodes fs₁ = freeInodes fs := by
          unfold freeInodes
          rw [hb]
        -- the assertion of `metaCacheInode` holds at the end of the cache
        obtain ⟨⟨fs₂, dm₂⟩, hcache⟩ := exists_metaCacheInode_need fs₁ { dm with curClus := clus, clusCnt := dm.clusCnt + 1 }
          clus hcnt (by show needAt dm.inodeMaxCluster ≤ _; omega)
        rcases except_bind_error hr with hr | ⟨p, hp, hr⟩
        · rw [hcache] at hr
          cases hr
        · obtain rfl := Except.ok.inj (hp.symm.trans hcache)
          have h₁ : PoolStep fs dm fs₁ { dm with curClus := clus, clusCnt := dm.clusCnt + 1 } := .of_eq h hi hb rfl rfl
          obtain ⟨-, hs⟩ := metaCacheInode_ok h₁.inodeOk hcache
          obtain ⟨item', hdm⟩ := hs.file
          have hk : dm₂.inodeMaxCluster = dm.inodeMaxCluster + 1 := by
            rw [hdm]
            rfl
          have hcount : freeInodes fs₂ + needAt dm.inodeMaxCluster = freeInodes fs₁ := hs.count
          refine ih (poolStep_metaCacheInode h₁.inodeOk hcache).1.inodeOk ?_ ?_ hr
          · rw [hk, hdm]
            exact congrArg (· + 1) hcnt
          · rw [hk, Nat.add_assoc, Nat.add_comm 1 n]
            omega

/-- **No assertion of `relocClus` fails** on a file with clusters: where the pool suffices, it panics only for want of
a cluster. -/
theorem relocClus_error (h : FileOk fs dm L) (hne : L ≠ []) (hnum : off / fs.superBlock.bytsPerClus < INODE_THIRD_LEVEL_TOP)
    (hpool : inodesBetween dm.inodeMaxCluster (off / fs.superBlock.bytsPerClus + 1) ≤ freeInodes fs)
    (hr : relocClus fs dm off true = .error e) : e = .allocClus := by
  by_cases hlt : off / fs.superBlock.bytsPerClus < dm.inodeMaxCluster
  · obtain ⟨r, hok⟩ := exists_relocClus_cached h hne true hlt hnum
    rw [hok] at hr
    cases hr
  · obtain ⟨cur, cnt, hat, hlast, heq⟩ := relocClus_uncached h hne true hlt (by omega)
    rw [heq] at hr
    rcases except_bind_error hr with hr | ⟨p, -, hr⟩
    · exact relocLoop_error _ (h.setCur cur cnt).inodeOk hat.cnt
        (by show inodesBetween dm.inodeMaxCluster (dm.inodeMaxCluster + (_ - cnt)) ≤ _; rw [hlast]; exact hpool) hr
    · cases hr

/-! ## Runs -/

/-- `relocClus` returns on files with clusters only. -/
theorem ne_nil_of_relocClus {r : Int × FileSystem × DirMeta} (h : FileOk fs dm L)
    (hr : relocClus fs dm off alloc = .ok r) : L ≠ [] := by
  rintro rfl
  unfold relocClus at hr
  rw [if_pos (.inl h.first)] at hr
  cases hr

/-- The loop of `metaRead` may cache what it passes. -/
theorem local_metaReadLoop {n tot' : Nat} {dst' : List Byte} (turns off tot : Nat) (dst : List Byte)
    (hok : fs.superBlock.Ok) (hb : BitmapOk fs) (h : FileOk fs dm L)
    (hr : metaReadLoop n turns fs dm off tot dst = .ok (tot', dst', fs', dm')) : Local fs dm L fs' dm' L := by
  induction turns generalizing fs dm off tot dst with
  | zero =>
    cases hr
    exact Local.refl hb h
  | succ turns ih =>
    rw [metaReadLoop] at hr
    split at hr
    · obtain ⟨⟨r, fs₁, dm₁⟩, hreloc, hr⟩ := except_bind_ok hr
      obtain ⟨⟨m, bytes⟩, -, hr⟩ := except_bind_ok hr
      have h₁ := (relocClus_found hok hb h (ne_nil_of_relocClus h hreloc) hreloc).ext.loc
      simp only at hr
      split at hr
      · exact h₁.trans (ih _ _ _ (by rw [h₁.superBlock]; exact hok) h₁.bitmapOk h₁.fileOk hr)
      · cases hr
        exact h₁
    · cases hr
      exact Local.refl hb h

theorem local_metaRead {off n : Nat} {r : Int} {dst : List Byte} (hok : fs.superBlock.Ok) (hb : BitmapOk fs)
    (h : FileOk fs dm L) (hr : metaRead fs dm off n = .ok (r, dst, fs', dm')) : Local fs dm L fs' dm' L := by
  unfold metaRead at hr
  split at hr
  · cases hr
    exact Local.refl hb h
  · split at hr
    · cases hr
      exact Local.refl hb h
    · split at hr
      · cases hr
        exact Local.refl hb h
      · obtain ⟨⟨tot, dst₁, fs₁, dm₁⟩, hloop, hr⟩ := except_bind_ok hr
        cases hr
        exact local_metaReadLoop _ _ _ _ hok hb h hloop

/-- The data area has the clusters that the call asks for. -/
def FileCall.Fits (s : FatState) : FileCall → Prop
  | .reloc i off alloc => alloc = true →
    off / s.fs.superBlock.bytsPerClus + 1 ≤ (s.chainOf i).length + freeClusters s.fs
  | .read .. => True
  | .change op => op.Fits s

/-- **Every call** on a volume is a step of one file. -/
theorem FatInv.call {s s' : FatState} (h : FatInv s s.chainOf) {call : FileCall} (hen : call.Enabled s)
    (hfit : call.Fits s) (hr : s.call call = .ok s') : FatInv s' s'.chainOf := by
  suffices hs : ∃ i L', FileStep s s.chainOf i s' L' by
    obtain ⟨i, L', hs⟩ := hs
    rw [hs.inv.chainOf]
    exact hs.inv
  cases call with
  | reloc i off alloc =>
    obtain ⟨⟨r, s₁⟩, hcall, rfl⟩ := map_ok hr
    obtain ⟨⟨r', fs', dm'⟩, hreloc, hr⟩ := except_bind_ok hcall
    cases hr
    have hfile := h.files.file i
    have hne := ne_nil_of_relocClus hfile hreloc
    cases alloc with
    | false =>
      exact ⟨i, _, h.fileStep_live hen (relocClus_found h.superBlock h.bitmap hfile hne hreloc).ext.loc⟩
    | true =>
      obtain ⟨L', hreach⟩ := relocClus_ok h.superBlock h.bitmap hfile hne (hfit rfl) hreloc
      exact ⟨i, L', h.fileStep_live hen hreach.ext.loc⟩
  | read i off n =>
    obtain ⟨⟨r, dst, s₁⟩, hcall, rfl⟩ := map_ok hr
    obtain ⟨⟨r', dst', fs', dm'⟩, hread, hr⟩ := except_bind_ok hcall
    cases hr
    exact ⟨i, _, h.fileStep_live hen (local_metaRead h.superBlock h.bitmap (h.files.file i) hread)⟩
  | change op =>
    obtain ⟨L', hs⟩ := h.exec hen hfit hr
    exact ⟨_, L', hs⟩

theorem FatInv.reach {s : FatState} (h : Run.Reach FatInit (CallStep fun s call => call.Fits s) s) :
    FatInv s s.chainOf := by
  refine h.invariant (fun s h₀ => h₀.inv) fun s s' hinv hstep => ?_
  obtain ⟨call, hen, hfit, hr⟩ := hstep
  exact hinv.call hen hfit hr

/-! ## The result -/

/-- `relocClus` with `alloc` returns the offset in the cluster and stands on the cluster at the
position of the chain, which is the old one followed by as many cleared clusters, free before, as the
position needs. -/
def FatState.RelocExtends (s : FatState) (i off : Nat) : Prop :=
  ∃ fs' dm', relocClus s.fs (s.dirMetas i) off true =
      .ok (((off % s.fs.superBlock.bytsPerClus : Nat) : Int), fs', dm') ∧
    s.chainOf i <+: chain fs' dm' ∧
    (chain fs' dm').length = max (s.chainOf i).length (off / s.fs.superBlock.bytsPerClus + 1) ∧
    (chain fs' dm')[off / s.fs.superBlock.bytsPerClus]? = some dm'.curClus ∧
    ∀ c ∈ (chain fs' dm').drop (s.chainOf i).length, Bitmap.get s.fs.clusterBitmap c = false ∧
      ∀ j < s.fs.superBlock.bytsPerClus, byteAt fs'.disk (clusAddr s.fs.superBlock c + j) = 0

/-- `relocClus` without `alloc` keeps the chain, returns -1 exactly if it ends before the position, and
else the offset in the cluster, standing on the cluster there. -/
def FatState.RelocFinds (s : FatState) (i off : Nat) : Prop :=
  ∃ r fs' dm', relocClus s.fs (s.dirMetas i) off false = .ok (r, fs', dm') ∧ chain fs' dm' = s.chainOf i ∧
    (r = -1 ↔ (s.chainOf i).length ≤ off / s.fs.superBlock.bytsPerClus) ∧
    (off / s.fs.superBlock.bytsPerClus < (s.chainOf i).length → r = ((off % s.fs.superBlock.bytsPerClus : Nat) : Int) ∧
      (s.chainOf i)[off / s.fs.superBlock.bytsPerClus]? = some dm'.curClus)

/-- The clusters appended are cleared. -/
theorem Ext.zeros (h : Ext fs dm L fs' dm' L') (hok : fs.superBlock.Ok) {c : Nat} (hc : c ∈ L'.drop L.length) {j : Nat}
    (hj : j < fs.superBlock.bytsPerClus) : byteAt fs'.disk (clusAddr fs.superBlock c + j) = 0 := by
  obtain ⟨k, hk⟩ := List.mem_iff_getElem?.mp hc
  rw [List.getElem?_drop] at hk
  have hlt : L.length + k < L'.length := (List.getElem?_eq_some_iff.mp hk).1
  have hpos := hok.bpc_pos
  have hdiv : ((L.length + k) * fs.superBlock.bytsPerClus + j) / fs.superBlock.bytsPerClus = L.length + k := by
    rw [Nat.mul_comm, Nat.mul_add_div hpos, Nat.div_eq_of_lt hj, Nat.add_zero]
  have hmod : ((L.length + k) * fs.superBlock.bytsPerClus + j) % fs.superBlock.bytsPerClus = j := by
    rw [Nat.mul_comm, Nat.mul_add_mod, Nat.mod_eq_of_lt hj]
  have hin : (L.length + k) * fs.superBlock.bytsPerClus + j < L'.length * fs.superBlock.bytsPerClus := by
    have := Nat.mul_le_mul_right fs.superBlock.bytsPerClus (Nat.succ_le_of_lt hlt)
    rw [Nat.succ_mul] at this
    omega
  have hout : ¬ (L.length + k) * fs.superBlock.bytsPerClus + j < L.length * fs.superBlock.bytsPerClus := by
    have := Nat.mul_le_mul_right fs.superBlock.bytsPerClus (Nat.le_add_right L.length k)
    omega
  have hbyte := h.bytes _ hin
  rw [if_neg hout] at hbyte
  unfold chainByte at hbyte
  rw [h.loc.superBlock, hdiv, hmod, List.getD_eq_getElem?_getD, hk] at hbyte
  exact hbyte

/-- The clusters appended were free. -/
theorem Local.fresh (h : Local fs dm L fs' dm' L') (hpre : L <+: L') {c : Nat} (hc : c ∈ L'.drop L.length) :
    Bitmap.get fs.clusterBitmap c = false := by
  rcases h.grown c (List.mem_of_mem_drop hc) with hin | hfree
  · -- a chain does not pass through a cluster twice
    obtain ⟨rest, rfl⟩ := hpre
    rw [List.drop_left] at hc
    exact absurd rfl ((List.nodup_append.mp h.fileOk.chain.nodup).2.2 c hin c hc)
  · exact hfree

/-- **The cache agrees with the chain.** In every state of a run whose calls find the clusters they ask
for in the data area, on a file with clusters that the three levels can hold, as long as the pool inodes suffice:
`relocClus` with `alloc` extends the chain to the position if there are clusters for it, and else panics in
`allocClus` at most; without `alloc` it finds the position. Nothing is said of a pool that is full. -/
theorem relocClus_agrees {s : FatState} (h : Run.Reach FatInit (CallStep fun s call => call.Fits s) s) {i off : Nat}
    (hi : (s.dirMetas i).firstClus ≠ 0) (htop : (s.chainOf i).length ≤ INODE_THIRD_LEVEL_TOP) :
    (off / s.fs.superBlock.bytsPerClus < INODE_THIRD_LEVEL_TOP →
      off / s.fs.superBlock.bytsPerClus + 1 ≤ (s.chainOf i).length + freeClusters s.fs →
      inodesBetween (s.dirMetas i).inodeMaxCluster (off / s.fs.superBlock.bytsPerClus + 1) ≤ freeInodes s.fs →
      s.RelocExtends i off) ∧
    (inodesBetween (s.dirMetas i).inodeMaxCluster
        (min (off / s.fs.superBlock.bytsPerClus + 1) (s.chainOf i).length) ≤ freeInodes s.fs → s.RelocFinds i off) ∧
    (off / s.fs.superBlock.bytsPerClus < INODE_THIRD_LEVEL_TOP →
      inodesBetween (s.dirMetas i).inodeMaxCluster (off / s.fs.superBlock.bytsPerClus + 1) ≤ freeInodes s.fs →
      ∀ e, relocClus s.fs (s.dirMetas i) off true = .error e → e = .allocClus) := by
  have hinv := FatInv.reach h
  have hfile := hinv.files.file i
  have hne : s.chainOf i ≠ [] := by
    intro hnil
    have hfirst := hfile.first
    rw [hnil] at hfirst
    exact hi hfirst
  have hchain : ∀ {fs' dm' L'}, Local s.fs (s.dirMetas i) (s.chainOf i) fs' dm' L' → chain fs' dm' = L' := fun hl =>
    hl.fileOk.chain_eq (by rw [hl.superBlock]; exact hinv.superBlock)
  refine ⟨fun hnum hroom hpool => ?_, fun hpool => ?_, fun hnum hpool e hr => relocClus_error hfile hne hnum hpool hr⟩
  · obtain ⟨⟨r, fs', dm'⟩, hr⟩ := exists_relocClus hinv.superBlock hinv.bitmap hfile hne off hroom hnum hpool
    obtain rfl := relocClus_alloc_ret hr
    obtain ⟨L', hreach⟩ := relocClus_ok hinv.superBlock hinv.bitmap hfile hne hroom hr
    have hloc := hreach.ext.loc
    have hgrow := hreach.ext.grow
    refine ⟨fs', dm', hr, ?_⟩
    rw [hchain hloc]
    exact ⟨hgrow, hreach.length, hreach.cur, fun c hc => ⟨hloc.fresh hgrow hc, fun j hj =>
      hreach.ext.zeros hinv.superBlock hc hj⟩⟩
  · obtain ⟨⟨r, fs', dm'⟩, hr⟩ := exists_relocClus_found hinv.superBlock hinv.bitmap hfile hne off (by omega) hpool
    have hfound := relocClus_found hinv.superBlock hinv.bitmap hfile hne hr
    refine ⟨r, fs', dm', hr, hchain hfound.ext.loc, ⟨fun hneg => ?_, hfound.past⟩, hfound.inside⟩
    by_contra hlt
    have hret := (hfound.inside (by omega)).1
    omega

/-! ## A full volume -/

/-- With every cluster of the FAT taken, `allocClus` panics. -/
theorem allocClus_full (hb : BitmapOk fs) (hfull : freeClusters fs = 0)
    (htot : totalClusterNumber fs.superBlock ≤ fs.superBlock.dataClusCnt + 2) : allocClus fs = .error .allocClus := by
  have hnone : Bitmap.findClear fs.clusterBitmap (totalClusterNumber fs.superBlock / 64) 0 = none := by
    cases hf : Bitmap.findClear fs.clusterBitmap (totalClusterNumber fs.superBlock / 64) 0 with
    | none => rfl
    | some c =>
      obtain ⟨-, hlt, hclear, -⟩ := Bitmap.findClear_eq_some hf
      have h0 : c ≠ 0 := by
        rintro rfl
        rw [hb.zero] at hclear
        cases hclear
      have h1 : c ≠ 1 := by
        rintro rfl
        rw [hb.one] at hclear
        cases hclear
      have hmem : c ∈ (Finset.Ico 2 (fs.superBlock.dataClusCnt + 2)).filter fun c =>
          Bitmap.get fs.clusterBitmap c = false :=
        Finset.mem_filter.mpr ⟨Finset.mem_Ico.mpr ⟨by omega, by omega⟩, hclear⟩
      exact absurd hfull (Nat.pos_iff_ne_zero.mp (Finset.card_pos.mpr ⟨c, hmem⟩))
  unfold allocClus
  rw [hnone]

/-- Then `relocClus` cannot go past the end of a chain that is cached as a whole. -/
theorem relocClus_full {r : Int × FileSystem × DirMeta} (hok : fs.superBlock.Ok)
    (h : FileOk fs dm L) (hne : L ≠ []) (hfull : dm.inodeMaxCluster = L.length)
    (hoff : off / fs.superBlock.bytsPerClus = L.length) (ha : allocClus fs = .error e) :
    relocClus fs dm off true ≠ .ok r := by
  intro hr
  unfold relocClus at hr
  rw [if_neg (h.asserts hne)] at hr
  simp only [hoff, hfull, Nat.lt_irrefl, if_false] at hr
  obtain ⟨dm₁, hfind, hr⟩ := except_bind_ok hr
  rw [← hfull] at hfind
  obtain ⟨hat, cur, cnt, rfl⟩ := atEnd_metaFindInode h hne hfind
  have hcnt := hat.cnt
  simp only at hcnt
  obtain ⟨p, hloop, -⟩ := except_bind_ok hr
  rw [show L.length - cnt = 0 + 1 by omega, relocLoop, (nextClus_end hok (h.setCur cur cnt) hat hfull).2, ha] at hloop
  cases hloop

theorem superBlock_full : (smallFs 128).superBlock = ⟨2, 126, 126, 512, 512, 1, 1, 1, 128, 1, 2⟩ := by
  decide

theorem small_ok_full : (smallFs 128).superBlock.Ok := by
  rw [superBlock_full]
  constructor <;> decide

/-- The chain of the root directory of the small volumes. -/
theorem chainOf_small {tot : Byte} (hok : (smallFs tot).superBlock.Ok) (hd : 0 < (smallFs tot).superBlock.dataClusCnt) :
    (smallState tot).chainOf 0 = [2] := (((rootOnly_small tot).filesOk hd).file 0).chain_eq hok

/-- The root directory can be extended over the whole volume. -/
theorem small_filled : ∃ fs' dm' L', (smallState 128).call (.reloc 0 (125 * 512) true) =
      .ok ((smallState 128).update 0 fs' dm') ∧ FatInit (smallState 128) ∧ fs'.superBlock = (smallFs 128).superBlock ∧
    BitmapOk fs' ∧ FileOk fs' dm' L' ∧ L'.length = 126 ∧ dm'.inodeMaxCluster = 126 ∧ freeClusters fs' = 0 := by
  have hpos : 0 < (smallFs 128).superBlock.dataClusCnt := by
    rw [superBlock_full]
    decide
  have hinit := fatInit_smallState small_ok_full hpos
  have hinv := hinit.inv
  have hfile := hinv.files.file 0
  rw [chainOf_small small_ok_full hpos] at hfile
  have hbpc : (smallState 128).fs.superBlock.bytsPerClus = 512 := congrArg SuperBlock.bytsPerClus superBlock_full
  have hnum : 125 * 512 / (smallState 128).fs.superBlock.bytsPerClus = 125 := by rw [hbpc]
  have hdata : (smallFs 128).superBlock.dataClusCnt = 126 := congrArg SuperBlock.dataClusCnt superBlock_full
  have hfree : freeClusters (smallState 128).fs = 125 := by
    show freeClusters (smallFs 128) = 125
    rw [(rootOnly_small 128).freeClusters small_ok_full, hdata]
  have hroom : 125 * 512 / (smallState 128).fs.superBlock.bytsPerClus + 1 ≤
      [2].length + freeClusters (smallState 128).fs := by
    rw [hnum, hfree]
    decide
  have hneed : inodesBetween 1 126 = 2 := by decide +kernel
  have hpool : inodesBetween ((smallState 128).dirMetas 0).inodeMaxCluster
      (125 * 512 / (smallState 128).fs.superBlock.bytsPerClus + 1) ≤ freeInodes (smallState 128).fs := by
    rw [hnum, freeInodes_clear rfl]
    show inodesBetween 1 126 ≤ 1024
    rw [hneed]
    decide
  obtain ⟨⟨r, fs', dm'⟩, hr⟩ := exists_relocClus hinv.superBlock hinv.bitmap hfile (List.cons_ne_nil 2 []) (125 * 512)
    hroom (by rw [hnum]; decide) hpool
  obtain ⟨L', hreach⟩ := relocClus_ok hinv.superBlock hinv.bitmap hfile (List.cons_ne_nil 2 []) hroom hr
  have hloc := hreach.ext.loc
  have hlen : L'.length = 126 := by
    rw [hreach.length, hnum]
    rfl
  refine ⟨fs', dm', L', ?_, hinit, hloc.superBlock, hloc.bitmapOk, hloc.fileOk, hlen, ?_, ?_⟩
  · show ((smallState 128).reloc 0 (125 * 512) true).map Prod.snd = _
    unfold FatState.reloc
    rw [hr]
    rfl
  · rw [hreach.count, hnum]
    rfl
  · have := hreach.ext.free
    rw [hfree, hlen, List.length_singleton] at this
    omega

/-- On the full volume the next cluster is asked for in vain. -/
theorem relocClus_volume_full : ¬ ∀ s : FatState, Run.Reach FatInit (CallStep fun _ _ => True) s →
    ∀ i off, (s.dirMetas i).firstClus ≠ 0 → (s.chainOf i).length ≤ INODE_THIRD_LEVEL_TOP →
      off / s.fs.superBlock.bytsPerClus < INODE_THIRD_LEVEL_TOP →
      inodesBetween (s.dirMetas i).inodeMaxCluster (off / s.fs.superBlock.bytsPerClus + 1) ≤ freeInodes s.fs →
      s.RelocExtends i off := by
  intro h
  obtain ⟨fs', dm', L', hcall, hinit, hsb, hb, hfile, hlen, hcount, hfull⟩ := small_filled
  have hok : fs'.superBlock.Ok := by
    rw [hsb]
    exact small_ok_full
  have hne : L' ≠ [] := by
    rintro rfl
    cases hlen
  have hself := (smallState 128).update_self 0 fs' dm'
  have hchain : ((smallState 128).update 0 fs' dm').chainOf 0 = L' := by
    unfold FatState.chainOf
    rw [hself]
    exact hfile.chain_eq hok
  have hbpc : fs'.superBlock.bytsPerClus = 512 := congrArg SuperBlock.bytsPerClus (hsb.trans superBlock_full)
  have hoff : 126 * 512 / fs'.superBlock.bytsPerClus = 126 := by rw [hbpc]
  have hnum : 126 * 512 / ((smallState 128).update 0 fs' dm').fs.superBlock.bytsPerClus = 126 := hoff
  have hlive : 0 ∉ (smallState 128).free := fun hmem => absurd (List.mem_singleton.mp hmem) (by decide)
  obtain ⟨fs'', dm'', hr, -⟩ := h ((smallState 128).update 0 fs' dm')
    (.step (.init hinit) ⟨.reloc 0 (125 * 512) true, hlive, trivial, hcall⟩) 0 (126 * 512)
    (by rw [hself]; exact fun hz => hfile.asserts hne (.inl hz)) (by rw [hchain, hlen]; decide) (by rw [hnum]; decide)
    (by rw [hself, hnum, hcount, show inodesBetween 126 127 = 0 by decide +kernel]; exact Nat.zero_le _)
  rw [hself] at hr
  refine relocClus_full hok hfile hne (hcount.trans hlen.symm) (hoff.trans hlen.symm) (allocClus_full hb hfull ?_) hr
  rw [hsb, superBlock_full]
  decide

/-- The root directory of the small volume, one cluster further. -/
theorem relocClus_agrees_small : (smallState 4).RelocExtends 0 512 ∧ (smallState 4).RelocFinds 0 512 := by
  have hsb : (smallState 4).fs.superBlock = ⟨2, 2, 2, 512, 512, 1, 1, 1, 4, 1, 2⟩ := superBlock_small.2
  have hfree := freeClusters_small
  have hlen : ((smallState 4).chainOf 0).length = 1 := by
    rw [chainOf_small small_ok_four (by decide)]
    rfl
  have hbpc : (smallState 4).fs.superBlock.bytsPerClus = 512 := congrArg SuperBlock.bytsPerClus hsb
  have hnum : 512 / (smallState 4).fs.superBlock.bytsPerClus = 1 := by rw [hbpc]
  obtain ⟨hext, hfind, -⟩ := relocClus_agrees (i := 0)
    (.init (fatInit_smallState small_ok_four (by decide))) (by decide) (by rw [hlen]; decide)
  refine ⟨hext (by rw [hnum]; decide) ?_ ?_, hfind ?_⟩
  · rw [hnum, hlen]
    show 1 + 1 ≤ 1 + freeClusters (smallFs 4)
    omega
  · rw [hnum]
    show inodesBetween 1 2 ≤ _
    rw [show inodesBetween 1 2 = 0 by decide]
    exact Nat.zero_le _
  · rw [hnum, hlen]
    show inodesBetween 1 (min 2 1) ≤ _
    rw [show inodesBetween 1 (min 2 1) = 0 by decide]
    exact Nat.zero_le _

end Exaros.Fat
