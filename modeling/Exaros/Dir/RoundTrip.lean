import Exaros.Dir.Encode
import Exaros.Fat.Reloc

/-!
# What is encoded is decoded again

`makeDentry` writes the entries of a file one after the other into its directory, whose chain may grow meanwhile, and
`dirMetaNext` reads them through the clusters the directory has cached. `Laid` is an entry in place: later writes
elsewhere keep it, and reading it gives it back.
-/

namespace Exaros.Dir

open Fat

/-- A file with clusters on a volume. -/
structure OnVolume (fs : FileSystem) (dm : DirMeta) (L : List Nat) : Prop where
  superBlock : fs.superBlock.Ok
  bitmap : BitmapOk fs
  file : FileOk fs dm L
  clusters : L ≠ []

/-- The 32 bytes of a file from `o` on. -/
def entryAt (fs : FileSystem) (L : List Nat) (o : Nat) : Dentry := (List.range 32).map fun i => chainByte fs L (o + i)

/-- Entry `e` is at `o`, in a cluster that is cached. -/
structure Laid (fs : FileSystem) (dm : DirMeta) (L : List Nat) (o : Nat) (e : Dentry) : Prop where
  entry : entryAt fs L o = e
  inside : o + 32 ≤ L.length * fs.superBlock.bytsPerClus
  cached : o / fs.superBlock.bytsPerClus < dm.inodeMaxCluster

section Write

variable {fs fs' : FileSystem} {dm dm' : DirMeta} {L L' : List Nat} {off o r : Nat} {de e : Dentry}

/-- An entry does not reach across a cluster. -/
theorem aligned_le (hok : fs.superBlock.Ok) (hoff : off % 32 = 0) :
    off % fs.superBlock.bytsPerClus + 32 ≤ fs.superBlock.bytsPerClus := by
  have hdvd : 32 ∣ fs.superBlock.bytsPerClus := by
    rw [hok.bytsPerClus]
    exact Dvd.dvd.mul_left (by decide) _
  have hmod : off % fs.superBlock.bytsPerClus % 32 = 0 := by rw [Nat.mod_mod_of_dvd _ hdvd, hoff]
  have hlt := Nat.mod_lt off hok.bpc_pos
  obtain ⟨q, hq⟩ := hdvd
  omega

theorem div_entry (hok : fs.superBlock.Ok) (hoff : off % 32 = 0) {i : Nat} (hi : i < 32) :
    (off + i) / fs.superBlock.bytsPerClus = off / fs.superBlock.bytsPerClus ∧
      (off + i) % fs.superBlock.bytsPerClus = off % fs.superBlock.bytsPerClus + i := by
  have hle := aligned_le hok hoff
  have hdiv := Nat.div_add_mod off fs.superBlock.bytsPerClus
  have hsum : off + i = off % fs.superBlock.bytsPerClus + i + fs.superBlock.bytsPerClus * (off / fs.superBlock.bytsPerClus) := by
    omega
  rw [hsum, Nat.add_mul_div_left _ _ hok.bpc_pos, Nat.add_mul_mod_self_left, Nat.div_eq_of_lt (by omega), Nat.zero_add,
    Nat.mod_eq_of_lt (show off % fs.superBlock.bytsPerClus + i < fs.superBlock.bytsPerClus by omega)]
  exact ⟨rfl, rfl⟩

/-- What writing an entry leaves. -/
structure WroteEntry (fs : FileSystem) (dm : DirMeta) (L : List Nat) (off : Nat) (de : Dentry) (fs' : FileSystem) (dm' : DirMeta)
    (L' : List Nat) : Prop where
  volume : OnVolume fs' dm' L'
  written : Written fs dm L (fun j => de.getD (j - off) 0) off (off + 32) fs' dm' L'
  cached : off / fs.superBlock.bytsPerClus < dm'.inodeMaxCluster

/-- An entry of 32 bytes is written at its offset, in a chain that may have grown. -/
theorem OnVolume.writeDentry (h : OnVolume fs dm L) (hoff : off % 32 = 0)
    (hroom : off / fs.superBlock.bytsPerClus + 1 ≤ L.length + freeClusters fs)
    (hr : writeDentry fs dm off de = .ok (r, fs', dm')) : ∃ L', WroteEntry fs dm L off de fs' dm' L' := by
  unfold Dir.writeDentry at hr
  cases hreloc : relocClus fs dm off true with
  | error e =>
    rw [hreloc] at hr
    cases hr
  | ok p =>
    obtain ⟨off2, fs₁, dm₁⟩ := p
    obtain ⟨L', hreach⟩ := relocClus_ok h.superBlock h.bitmap h.file h.clusters hroom hreloc
    have hret : off2.toNat = off % fs.superBlock.bytsPerClus := by
      rw [relocClus_alloc_ret hreloc, ← Int.natCast_mod, Int.toNat_natCast]
    have hext := hreach.ext
    have hsb := hext.loc.superBlock
    have hok : fs₁.superBlock.Ok := by rw [hsb]; exact h.superBlock
    have hcur : L'[off / fs₁.superBlock.bytsPerClus]? = some dm₁.curClus := by rw [hsb]; exact hreach.cur
    have hcR := hext.loc.fileOk.chain.inRange _ (List.mem_of_getElem? hcur)
    have hm := aligned_le hok hoff
    obtain ⟨d', hwrite, hd'⟩ := rwClusWrite_eq hok hcR (fun i => de.getD i 0) (Nat.mod_lt off hok.bpc_pos) hm
    have hw : Written fs₁ dm₁ L' (fun j => de.getD (j - off) 0) off (off + 32) { fs₁ with disk := d' } dm₁ L' := by
      refine written_clus hok hext.loc.bitmapOk hext.loc.fileOk hcur hm fun a => ?_
      rw [hd' a]
      simp only [Nat.add_sub_cancel_left]
    rw [hreloc] at hr
    dsimp only at hr
    rw [hret, ← hsb, hwrite] at hr
    cases hr
    have hall := (hext.written (fun j => de.getD (j - off) 0) off).trans hw (Nat.le_refl _) (Nat.le_add_right _ _)
    refine ⟨L', ⟨hok, hall.loc.bitmapOk, hall.loc.fileOk, fun hnil => ?_⟩, hall, ?_⟩
    · rw [hnil] at hcur
      cases hcur
    · rw [hreach.count]
      omega

theorem WroteEntry.laid (h : WroteEntry fs dm L off de fs' dm' L') (hde : de.length = 32) : Laid fs' dm' L' off de := by
  have hsb := h.written.loc.superBlock
  have hin := h.written.inside (by omega)
  refine ⟨?_, by rw [hsb]; exact hin, by rw [hsb]; exact h.cached⟩
  show (List.range 32).map (fun i => chainByte fs' L' (off + i)) = de
  refine List.ext_getElem (by rw [List.length_map, List.length_range, hde]) fun i hi hi' => ?_
  rw [List.getElem_map, List.getElem_range, h.written.bytes (off + i) (by omega), if_pos (by omega), Nat.add_sub_cancel_left]
  exact List.getD_eq_getElem _ _ hi'

/-- Other entries stay. -/
theorem Laid.kept (hl : Laid fs dm L o e) (h : WroteEntry fs dm L off de fs' dm' L') (ho : o % 32 = 0) (hoff : off % 32 = 0)
    (hne : o ≠ off) : Laid fs' dm' L' o e := by
  have hsb := h.written.loc.superBlock
  have hlen := h.written.length_le fs.superBlock.bytsPerClus
  have hin := hl.inside
  refine ⟨?_, by rw [hsb]; omega, by rw [hsb]; exact lt_of_lt_of_le hl.cached h.written.count⟩
  rw [← hl.entry]
  refine List.map_congr_left fun i hi => ?_
  have hlt := List.mem_range.mp hi
  rw [h.written.bytes (o + i) (by omega), if_neg (by omega), if_pos (by omega)]

end Write

/-! ## The entries of one file -/

section Group

variable {fs fs' : FileSystem} {dm dm' : DirMeta} {L : List Nat} {off next : Nat} {name : List Byte} {checksum : Byte}

/-- The long entries up to `i` are in place from `off` on. -/
def Grouped (name : List Byte) (checksum : Byte) (i : Nat) (fs : FileSystem) (dm : DirMeta) (L : List Nat) (off : Nat) : Prop :=
  ∀ k < i, Laid fs dm L (Fat.u32 (off + 32 * k)) (longEntry name checksum (i - k))

theorem u32_here (hlt : off < 2 ^ 32) : Fat.u32 (off + 32 * 0) = off := Nat.mod_eq_of_lt hlt

theorem u32_next (off k : Nat) : Fat.u32 (Fat.u32 (off + 32) + 32 * k) = Fat.u32 (off + 32 * (k + 1)) := by
  unfold Fat.u32
  omega

/-- **The long entries** of a name. -/
theorem longLoop_ok (i : Nat) (hi : i ≤ 20) (h : OnVolume fs dm L) (hoff : off % 32 = 0) (hlt : off < 2 ^ 32)
    (hroom : ∀ k < i, Fat.u32 (off + 32 * k) / fs.superBlock.bytsPerClus + 1 ≤ L.length + freeClusters fs)
    (hr : longLoop name checksum i fs dm off = .ok (next, fs', dm')) :
    ∃ L', OnVolume fs' dm' L' ∧ Growth fs dm L fs' dm' L' ∧ next = Fat.u32 (off + 32 * i) ∧
      Grouped name checksum i fs' dm' L' off ∧
      ∀ o e, o % 32 = 0 → (∀ k < i, o ≠ Fat.u32 (off + 32 * k)) → Laid fs dm L o e → Laid fs' dm' L' o e := by
  induction i generalizing fs dm L off with
  | zero =>
    cases hr
    exact ⟨L, h, (Ext.refl h.bitmap h.file).toGrowth, (Nat.mod_eq_of_lt hlt).symm, fun k hk => absurd hk (Nat.not_lt_zero k),
      fun _ _ _ _ hl => hl⟩
  | succ i ih =>
    rw [longLoop] at hr
    cases hwrite : writeDentry fs dm off (longEntry name checksum (i + 1)) with
    | error e =>
      rw [hwrite] at hr
      cases hr
    | ok p =>
      obtain ⟨r, fs₁, dm₁⟩ := p
      have hfirst := hroom 0 (Nat.succ_pos i)
      rw [u32_here hlt] at hfirst
      obtain ⟨L₁, hw⟩ := h.writeDentry hoff hfirst hwrite
      have hsb := hw.written.loc.superBlock
      have hfree := hw.written.free
      have hlaid := hw.laid (longEntry_length name checksum (i + 1))
      have hnext : Fat.u32 (off + 32) % 32 = 0 ∧ Fat.u32 (off + 32) < 2 ^ 32 := by
        unfold Fat.u32
        omega
      rw [hwrite] at hr
      obtain ⟨L', hv, hgrow, hend, hgroup, hkept⟩ := ih (by omega) hw.volume hnext.1 hnext.2 (fun k hk => by
        have := hroom (k + 1) (by omega)
        rw [u32_next, hsb]
        omega) hr
      rw [u32_next] at hend
      refine ⟨L', hv, hw.written.toGrowth.trans hgrow, hend, fun k hk => ?_, fun o e ho hne hl => ?_⟩
      · cases k with
        | zero =>
          rw [u32_here hlt, Nat.sub_zero]
          refine hkept off _ hoff (fun k hk => ?_) hlaid
          rw [u32_next]
          unfold Fat.u32
          omega
        | succ k =>
          have hrest := hgroup k (by omega)
          rwa [u32_next, show i - k = i + 1 - (k + 1) by omega] at hrest
      · refine hkept o e ho (fun k hk => ?_) (hl.kept hw ho hoff ?_)
        · rw [u32_next]
          exact hne (k + 1) (by omega)
        · have := hne 0 (Nat.succ_pos i)
          rwa [u32_here hlt] at this

end Group

/-! ## Reading them -/

section Read

variable {fs : FileSystem} {dm : DirMeta} {L : List Nat} {off o i n : Nat} {e : Dentry} {name buf : List Byte} {checksum : Byte}

theorem OnVolume.setCur (h : OnVolume fs dm L) (cur cnt : Nat) : OnVolume fs { dm with curClus := cur, clusCnt := cnt } L :=
  ⟨h.superBlock, h.bitmap, h.file.setCur cur cnt, h.clusters⟩

/-- An entry in place is read back. -/
theorem OnVolume.readDentry (h : OnVolume fs dm L) (hl : Laid fs dm L o e) (ho : o % 32 = 0)
    (htop : o / fs.superBlock.bytsPerClus < INODE_THIRD_LEVEL_TOP) (hend : e.order ≠ END_OF_ENTRY) :
    ∃ cur cnt, Dir.readDentry fs dm o = .ok (some e, fs, { dm with curClus := cur, clusCnt := cnt }) := by
  have hcached := hl.cached
  have hlen : o / fs.superBlock.bytsPerClus < L.length :=
    (Nat.div_lt_iff_lt_mul h.superBlock.bpc_pos).mpr (by have := hl.inside; omega)
  have hget : L[o / fs.superBlock.bytsPerClus]? = some (L.getD (o / fs.superBlock.bytsPerClus) 0) := by
    rw [List.getD_eq_getElem _ _ hlen]
    exact List.getElem?_eq_getElem hlen
  have hclus := h.file.cached _ _ hcached htop hget
  have hR := h.file.chain.inRange _ (List.mem_of_getElem? hget)
  have hreloc : relocClus fs dm o false = .ok (((o % fs.superBlock.bytsPerClus : Nat) : Int), fs,
      { dm with curClus := L.getD (o / fs.superBlock.bytsPerClus) 0, clusCnt := o / fs.superBlock.bytsPerClus }) := by
    unfold relocClus
    rw [if_neg (h.file.asserts h.clusters)]
    rw [if_pos hcached]
    unfold metaFindInode
    rw [if_pos ⟨hcached, htop⟩, hclus]
    rfl
  have hread := rwClusRead_eq h.superBlock hR (Nat.mod_lt o h.superBlock.bpc_pos) (aligned_le h.superBlock ho)
  -- the bytes of the cluster are those of the chain
  have hbytes : (List.range 32).map (fun i => byteAt fs.disk
      (clusAddr fs.superBlock (L.getD (o / fs.superBlock.bytsPerClus) 0) + o % fs.superBlock.bytsPerClus + i)) = e := by
    rw [← hl.entry]
    refine List.map_congr_left fun i hi => ?_
    obtain ⟨hdiv, hmod⟩ := div_entry h.superBlock ho (List.mem_range.mp hi)
    unfold chainByte
    rw [hdiv, hmod, Nat.add_assoc]
  refine ⟨L.getD (o / fs.superBlock.bytsPerClus) 0, o / fs.superBlock.bytsPerClus, ?_⟩
  unfold Dir.readDentry
  rw [hreloc]
  dsimp only
  rw [if_neg (by omega), Int.toNat_natCast, hread, hbytes]
  dsimp only
  rw [if_neg fun h => h.elim (fun h => h rfl) hend]

/-- Past the cached levels reading stops the kernel. -/
theorem OnVolume.readDentry_top (h : OnVolume fs dm L) (hl : Laid fs dm L o e)
    (htop : INODE_THIRD_LEVEL_TOP ≤ o / fs.superBlock.bytsPerClus) :
    Dir.readDentry fs dm o = .error (.fat .metaFindInode) := by
  have hreloc : relocClus fs dm o false = .error .metaFindInode := by
    unfold relocClus
    rw [if_neg (h.file.asserts h.clusters)]
    rw [if_pos hl.cached]
    unfold metaFindInode
    rw [if_neg fun h => absurd h.2 (Nat.not_lt.mpr htop)]
    rfl
  unfold Dir.readDentry
  rw [hreloc]

/-- `*count` before the long entry with number `i` is read. -/
def countAt (name : List Byte) (i : Nat) : Option Nat := if i = lneCnt name then none else some (lneCnt name + 1)

/-- **A turn of `dirMetaNext`** on a long entry. -/
theorem OnVolume.nextLong (buf : List Byte) (n : Nat) (h : OnVolume fs dm L) (hl : Laid fs dm L off (longEntry name checksum (i + 1))) (hoff : off % 32 = 0)
    (htop : off / fs.superBlock.bytsPerClus < INODE_THIRD_LEVEL_TOP) (hlen : name.length ≤ 255) (hi : i < lneCnt name) :
    ∃ cur cnt, nextLoop (n + 1) fs dm off buf 0 (countAt name (i + 1)) =
      nextLoop n fs { dm with curClus := cur, clusCnt := cnt } (Fat.u32 (off + 32))
        (readLongName buf (i * CHAR_LONG_NAME) (longEntry name checksum (i + 1))) 0 (countAt name i) := by
  have hnum : Numbered name (longEntry name checksum (i + 1)) (i + 1) := longEntry_numbered checksum hlen (Nat.succ_pos i) hi
  have hcnt := lneCnt_le hlen
  have hlcnt := hnum.lcnt
  obtain ⟨cur, cnt, hread⟩ := h.readDentry hl hoff htop hnum.not_end
  refine ⟨cur, cnt, ?_⟩
  have hnow : countAt name i = some (lneCnt name + 1) := if_neg (Nat.ne_of_lt hi)
  rw [nextLoop_entry n hread, if_neg hnum.not_empty, if_neg (not_ne_iff.mpr rfl), if_pos (longEntry_attr name checksum (i + 1)),
    hlcnt, hnow, Nat.add_sub_cancel]
  by_cases hlast : i + 1 = lneCnt name
  · have hnone : countAt name (i + 1) = none := if_pos hlast
    rw [hnone, if_neg fun h => Bool.false_ne_true h.2, if_neg (by omega), if_pos (hnum.last.mpr hlast), hlast]
  · have hsome : countAt name (i + 1) = some (lneCnt name + 1) := if_neg hlast
    rw [hsome, if_neg fun h => hlast (hnum.last.mp h.1), if_neg (by omega), if_neg fun h => hlast (hnum.last.mp h)]

/-- The long entries behind the first. -/
theorem Grouped.tail (h : Grouped name checksum (i + 1) fs dm L off) (cur cnt : Nat) :
    Grouped name checksum i fs { dm with curClus := cur, clusCnt := cnt } L (Fat.u32 (off + 32)) := by
  intro k hk
  obtain ⟨hentry, hin, hcached⟩ := h (k + 1) (by omega)
  rw [← u32_next, show i + 1 - (k + 1) = i - k by omega] at hentry
  rw [← u32_next] at hin hcached
  exact ⟨hentry, hin, hcached⟩

theorem Grouped.head (h : Grouped name checksum (i + 1) fs dm L off) (hlt : off < 2 ^ 32) :
    Laid fs dm L off (longEntry name checksum (i + 1)) := by
  have hfirst := h 0 (Nat.succ_pos i)
  rwa [u32_here hlt, Nat.sub_zero] at hfirst

theorem u32_aligned (hoff : off % 32 = 0) (k : Nat) : Fat.u32 (off + 32 * k) % 32 = 0 ∧ Fat.u32 (off + 32 * k) < 2 ^ 32 := by
  unfold Fat.u32
  omega

/-- **The long entries are read** down to the short one, and leave the name. -/
theorem OnVolume.nextGroup (h : OnVolume fs dm L) (hgroup : Grouped name checksum i fs dm L off) (h0 : (0 : Byte) ∉ name)
    (hlen : name.length ≤ 255) (hoff : off % 32 = 0) (hlt : off < 2 ^ 32) (hi : i ≤ lneCnt name) (hname : 0 < lneCnt name)
    (htop : ∀ k < i, Fat.u32 (off + 32 * k) / fs.superBlock.bytsPerClus < INODE_THIRD_LEVEL_TOP)
    (hbuf : NameAt name buf (i * CHAR_LONG_NAME)) :
    ∃ cur cnt buf', NameAt name buf' 0 ∧ nextLoop (n + i) fs dm off buf 0 (countAt name i) =
      nextLoop n fs { dm with curClus := cur, clusCnt := cnt } (Fat.u32 (off + 32 * i)) buf' 0 (some (lneCnt name + 1)) := by
  induction i generalizing dm off buf with
  | zero =>
    have hcount : countAt name 0 = some (lneCnt name + 1) := if_neg (Nat.ne_of_lt hname)
    refine ⟨dm.curClus, dm.clusCnt, buf, ?_, ?_⟩
    · rwa [Nat.zero_mul] at hbuf
    · rw [hcount, u32_here hlt]
      rfl
  | succ i ih =>
    have hcnt := lneCnt_le hlen
    have hfirst := htop 0 (Nat.succ_pos i)
    rw [u32_here hlt] at hfirst
    have hp : i * CHAR_LONG_NAME ≤ name.length := by
      have hchar : CHAR_LONG_NAME = 13 := rfl
      unfold lneCnt at hi
      rw [hchar] at hi ⊢
      omega
    obtain ⟨cur, cnt, hturn⟩ := h.nextLong buf (n + i) (hgroup.head hlt) hoff hfirst hlen (Nat.lt_of_succ_le hi)
    have hnext := u32_aligned hoff 1
    rw [Nat.mul_one] at hnext
    obtain ⟨cur', cnt', buf', hbuf', hrest⟩ := ih (h.setCur cur cnt) (hgroup.tail cur cnt) hnext.1 hnext.2 (by omega)
      (fun k hk => by rw [u32_next]; exact htop (k + 1) (by omega)) (hbuf.readLong h0 checksum (by omega) hp)
    refine ⟨cur', cnt', buf', hbuf', ?_⟩
    rw [u32_next] at hrest
    rw [← Nat.add_assoc, hturn]
    exact hrest

/-- A long entry past the cached levels stops the kernel. -/
theorem OnVolume.nextGroup_top (h : OnVolume fs dm L) (hgroup : Grouped name checksum i fs dm L off)
    (hlen : name.length ≤ 255) (hoff : off % 32 = 0) (hlt : off < 2 ^ 32) (hi : i ≤ lneCnt name)
    (htop : ∃ k < i, INODE_THIRD_LEVEL_TOP ≤ Fat.u32 (off + 32 * k) / fs.superBlock.bytsPerClus) :
    ∃ e, nextLoop (n + i) fs dm off buf 0 (countAt name i) = .error e := by
  induction i generalizing dm off buf with
  | zero =>
    obtain ⟨k, hk, -⟩ := htop
    exact absurd hk (Nat.not_lt_zero k)
  | succ i ih =>
    have hl := hgroup.head hlt
    rw [← Nat.add_assoc]
    by_cases hfirst : off / fs.superBlock.bytsPerClus < INODE_THIRD_LEVEL_TOP
    · obtain ⟨cur, cnt, hturn⟩ := h.nextLong buf (n + i) hl hoff hfirst hlen (Nat.lt_of_succ_le hi)
      have hnext := u32_aligned hoff 1
      rw [Nat.mul_one] at hnext
      obtain ⟨k, hk, hge⟩ := htop
      rw [hturn]
      refine ih (h.setCur cur cnt) (hgroup.tail cur cnt) hnext.1 hnext.2 (by omega) ?_
      cases k with
      | zero =>
        rw [u32_here hlt] at hge
        omega
      | succ k =>
        refine ⟨k, by omega, ?_⟩
        rw [u32_next]
        exact hge
    · exact ⟨_, (nextLoop_error (n + i) (h.readDentry_top hl (Nat.le_of_not_lt hfirst))).1⟩

/-- Once an empty entry has been counted, no file is found. -/
theorem nextLoop_counting {cnt count : Nat} {last : Option Nat} {r : List Byte × FileSystem × DirMeta} (n : Nat) (hcnt : cnt ≠ 0) :
    nextLoop n fs dm off buf cnt last ≠ .ok (.entry count e, r) := by
  intro hr
  induction n generalizing fs dm off cnt with
  | zero => cases hr
  | succ n ih =>
    cases hread : Dir.readDentry fs dm off with
    | error h =>
      rw [(nextLoop_error n hread).1] at hr
      cases hr
    | ok p =>
      obtain ⟨entry, fs', dm'⟩ := p
      cases entry with
      | none =>
        rw [nextLoop_end n hread] at hr
        cases hr
      | some entry =>
        rw [nextLoop_entry n hread] at hr
        by_cases he : entry.order = EMPTY_ENTRY
        · rw [if_pos he] at hr
          exact ih (Nat.succ_ne_zero cnt) hr
        · rw [if_neg he, if_pos hcnt] at hr
          split at hr
          · cases hr
          · cases hr

/-- The entries of a file are in place from `off` on. -/
structure Encoded (name : List Byte) (checksum : Byte) (de : Dentry) (fs : FileSystem) (dm : DirMeta) (L : List Nat) (off : Nat) :
    Prop where
  group : Grouped name checksum (lneCnt name) fs dm L off
  short : Laid fs dm L (Fat.u32 (off + 32 * lneCnt name)) de

variable {de : Dentry}

/-- Cleared names and no count: how `dirMetaNext` starts. -/
theorem countAt_start (name : List Byte) : countAt name (lneCnt name) = none := if_pos rfl

/-- **The file is found.** -/
theorem OnVolume.nextFile (n : Nat) (h : OnVolume fs dm L) (he : Encoded name checksum de fs dm L off) (h0 : (0 : Byte) ∉ name)
    (hlen : name.length ≤ 255) (hname : 0 < lneCnt name) (hoff : off % 32 = 0) (hlt : off < 2 ^ 32)
    (htop : ∀ k ≤ lneCnt name, Fat.u32 (off + 32 * k) / fs.superBlock.bytsPerClus < INODE_THIRD_LEVEL_TOP)
    (hend : de.order ≠ END_OF_ENTRY) (hempty : de.order ≠ EMPTY_ENTRY) (hattr : de.attr ≠ ATTR_LONG_NAME) :
    ∃ buf fs' dm', NameAt name buf 0 ∧ nextLoop (n + 1 + lneCnt name) fs dm off (List.replicate 260 0) 0 none =
      .ok (.entry (lneCnt name + 1) de, buf, fs', dm') := by
  obtain ⟨cur, cnt, buf, hbuf, hgroup⟩ := h.nextGroup (n := n + 1) he.group h0 hlen hoff hlt (Nat.le_refl _) hname
    (fun k hk => htop k (Nat.le_of_lt hk)) (nameAt_start name)
  obtain ⟨hentry, hin, hcached⟩ := he.short
  have hshort : Laid fs { dm with curClus := cur, clusCnt := cnt } L (Fat.u32 (off + 32 * lneCnt name)) de := ⟨hentry, hin, hcached⟩
  obtain ⟨cur', cnt', hread⟩ := (h.setCur cur cnt).readDentry hshort (u32_aligned hoff _).1 (htop _ (Nat.le_refl _)) hend
  refine ⟨buf, fs, { dm with curClus := cur', clusCnt := cnt' }, hbuf, ?_⟩
  rw [← countAt_start name, hgroup, nextLoop_entry n hread, if_neg hempty, if_neg (not_ne_iff.mpr rfl), if_neg hattr]

/-- Where an entry is past the cached levels, or the short one counts as empty, no file is found. -/
theorem OnVolume.nextFile_none (n : Nat) (h : OnVolume fs dm L) (he : Encoded name checksum de fs dm L off) (h0 : (0 : Byte) ∉ name)
    (hlen : name.length ≤ 255) (hname : 0 < lneCnt name) (hoff : off % 32 = 0) (hlt : off < 2 ^ 32) (hend : de.order ≠ END_OF_ENTRY)
    (hbad : de.order = EMPTY_ENTRY ∨
      ∃ k ≤ lneCnt name, INODE_THIRD_LEVEL_TOP ≤ Fat.u32 (off + 32 * k) / fs.superBlock.bytsPerClus)
    {count : Nat} {r : List Byte × FileSystem × DirMeta} :
    nextLoop (n + 1 + lneCnt name) fs dm off (List.replicate 260 0) 0 none ≠ .ok (.entry count e, r) := by
  intro hr
  rw [← countAt_start name] at hr
  by_cases hlong : ∃ k < lneCnt name, INODE_THIRD_LEVEL_TOP ≤ Fat.u32 (off + 32 * k) / fs.superBlock.bytsPerClus
  · obtain ⟨h, herror⟩ := h.nextGroup_top (n := n + 1) he.group hlen hoff hlt (Nat.le_refl _) hlong
    rw [herror] at hr
    cases hr
  · have htop : ∀ k < lneCnt name, Fat.u32 (off + 32 * k) / fs.superBlock.bytsPerClus < INODE_THIRD_LEVEL_TOP :=
      fun k hk => Nat.lt_of_not_le fun hge => hlong ⟨k, hk, hge⟩
    obtain ⟨cur, cnt, buf, -, hgroup⟩ := h.nextGroup (n := n + 1) he.group h0 hlen hoff hlt (Nat.le_refl _) hname htop (nameAt_start name)
    obtain ⟨hentry, hin, hcached⟩ := he.short
    have hshort : Laid fs { dm with curClus := cur, clusCnt := cnt } L (Fat.u32 (off + 32 * lneCnt name)) de := ⟨hentry, hin, hcached⟩
    rw [hgroup] at hr
    by_cases hlast : Fat.u32 (off + 32 * lneCnt name) / fs.superBlock.bytsPerClus < INODE_THIRD_LEVEL_TOP
    · obtain ⟨cur', cnt', hread⟩ := (h.setCur cur cnt).readDentry hshort (u32_aligned hoff _).1 hlast hend
      have hempty : de.order = EMPTY_ENTRY := by
        rcases hbad with hempty | ⟨k, hk, hge⟩
        · exact hempty
        · rcases Nat.lt_or_eq_of_le hk with hk | rfl
          · exact absurd (htop k hk) (Nat.not_lt.mpr hge)
          · exact absurd hlast (Nat.not_lt.mpr hge)
      rw [nextLoop_entry n hread, if_pos hempty] at hr
      exact nextLoop_counting n (Nat.succ_ne_zero 0) hr
    · rw [(nextLoop_error n ((h.setCur cur cnt).readDentry_top hshort (Nat.le_of_not_lt hlast))).1] at hr
      cases hr

end Read

/-! ## The round trip -/

@[simp] theorem readDentryInfo_attr (dm : DirMeta) (e : Dentry) : (readDentryInfo dm e).attr = e.attr := rfl
@[simp] theorem readDentryInfo_firstClus (dm : DirMeta) (e : Dentry) : (readDentryInfo dm e).firstClus = e.firstClus := rfl
@[simp] theorem readDentryInfo_fileSize (dm : DirMeta) (e : Dentry) : (readDentryInfo dm e).fileSize = e.file_size := rfl
@[simp] theorem readDentryInfo_reserve (dm : DirMeta) (e : Dentry) : (readDentryInfo dm e).reserve = e.nt_res := rfl

namespace Tree

/-- `dirMetaNext` returns 1 and finds in `m` the file `child` with the name `name`, up to `next`. -/
def RoundTrip (t : Tree) (dir m off next : Nat) (name : List Byte) (child : DirMeta) : Prop :=
  ∃ count e t', t.dirMetaNext dir m off = .ok (.entry count e, t') ∧ (t'.nodes m).filename = name ∧
    (t'.dirMetas m).attr = child.attr ∧ (t'.dirMetas m).firstClus = child.firstClus ∧
    (t'.dirMetas m).fileSize = child.fileSize ∧ (t'.dirMetas m).reserve = child.reserve ∧ Fat.u32 (off + 32 * count) = next

section Call

variable {t t' : Tree} {dir child m off next : Nat} {L : List Nat}

/-- **`makeDentry`** has put the entries in place. -/
theorem makeDentry_ok (h : OnVolume (t.volume (t.fsOf dir)) (t.dirMetas dir) L) (hoff : 32 < off) (hlt : off < 2 ^ 32)
    (hlen : (t.nodes child).filename.length ≤ 255)
    (hroom : ∀ k ≤ lneCnt (t.nodes child).filename, Fat.u32 (off + 32 * k) /
      (t.volume (t.fsOf dir)).superBlock.bytsPerClus + 1 ≤ L.length + freeClusters (t.volume (t.fsOf dir)))
    (hr : t.makeDentry dir child off = .ok (next, t')) :
    t.isDir dir = true ∧ off % 32 = 0 ∧ next = Fat.u32 (off + 32 * (lneCnt (t.nodes child).filename + 1)) ∧
    ∃ fs dm L', t' = t.setFile dir fs dm ∧ OnVolume fs dm L' ∧ fs.superBlock = (t.volume (t.fsOf dir)).superBlock ∧
      dm.attr = (t.dirMetas dir).attr ∧
      Encoded (t.nodes child).filename (calChecksum (generateShortName (t.nodes child).filename))
        (shortEntry (strncpy (generateShortName (t.nodes child).filename) CHAR_SHORT_NAME) (t.dirMetas child)) fs dm L' off := by
  have hcnt := lneCnt_le hlen
  unfold Tree.makeDentry at hr
  split at hr
  · cases hr
  · rename_i hdir
    split at hr
    · cases hr
    · rename_i halign
      have hoff0 : off % 32 = 0 := by omega
      split at hr
      · cases hr
      · rw [if_neg (Nat.not_le.mpr hoff)] at hr
        dsimp only at hr
        generalize (t.nodes child).filename = name at *
        cases hlong : longLoop name (calChecksum (generateShortName name)) (lneCnt name) (t.volume (t.fsOf dir)) (t.dirMetas dir)
            off with
        | error e =>
          rw [hlong] at hr
          cases hr
        | ok p =>
          obtain ⟨off₁, fs₁, dm₁⟩ := p
          obtain ⟨L₁, hv₁, hgrow, hoff₁, hgroup, -⟩ := longLoop_ok _ hcnt h hoff0 hlt (fun k hk => hroom k (Nat.le_of_lt hk)) hlong
          subst hoff₁
          rw [hlong] at hr
          dsimp only at hr
          cases hshort : writeDentry fs₁ dm₁ (Fat.u32 (off + 32 * lneCnt name))
              (shortEntry (strncpy (generateShortName name) CHAR_SHORT_NAME) (t.dirMetas child)) with
          | error e =>
            rw [hshort] at hr
            cases hr
          | ok q =>
            obtain ⟨r, fs', dm'⟩ := q
            rw [hshort] at hr
            cases hr
            have hsb := hgrow.loc.superBlock
            have hfree := hgrow.free
            have hlast := hroom (lneCnt name) (Nat.le_refl _)
            have halign' := u32_aligned hoff0 (lneCnt name)
            obtain ⟨L', hw⟩ := hv₁.writeDentry halign'.1 (by rw [hsb]; omega) hshort
            refine ⟨Bool.not_eq_false _ ▸ fun h => hdir (by rw [h]; exact Bool.false_ne_true), hoff0, ?_, fs', dm', L', rfl, hw.volume,
              hw.written.loc.superBlock.trans hsb, hw.written.fields.1.trans hgrow.fields.1,
              ⟨fun k hk => ?_, hw.laid (shortEntry_length (strncpy_length _ _))⟩⟩
            · unfold Fat.u32
              omega
            · refine (hgroup k hk).kept hw (u32_aligned hoff0 k).1 halign'.1 ?_
              unfold Fat.u32
              omega

/-- What `dirMetaNext` returns with 1. -/
theorem dirMetaNext_entry {count : Nat} {e : Dentry} (hdir : t.isDir dir = true) (hoff : off % 32 = 0) :
    t.dirMetaNext dir m off = .ok (.entry count e, t') ↔
      ∃ buf fs dm, nextLoop (dirTurns (t.volume (t.fsOf dir)).superBlock) (t.volume (t.fsOf dir)) (t.dirMetas dir) off
          (List.replicate 260 0) 0 none = .ok (.entry count e, buf, fs, dm) ∧
        t' = ((t.setFile dir fs dm).setNode m { (t.setFile dir fs dm).nodes m with
          filename := cstr (buf.take (FAT32_MAX_FILENAME + 1)) }).setMeta m
            (readDentryInfo ((t.setFile dir fs dm).dirMetas m) e) := by
  unfold Tree.dirMetaNext
  rw [if_neg fun h => h.elim (fun h => h hdir) fun h => h hoff]
  cases hnext : nextLoop (dirTurns (t.volume (t.fsOf dir)).superBlock) (t.volume (t.fsOf dir)) (t.dirMetas dir) off
      (List.replicate 260 0) 0 none with
  | error e =>
    refine iff_of_false (fun h => by cases h) fun h => ?_
    obtain ⟨_, _, _, h, -⟩ := h
    cases h
  | ok p =>
    obtain ⟨r, buf, fs, dm⟩ := p
    cases r with
    | none =>
      refine iff_of_false (fun h => by cases h) fun h => ?_
      obtain ⟨_, _, _, h, -⟩ := h
      cases h
    | empty count =>
      refine iff_of_false (fun h => by cases h) fun h => ?_
      obtain ⟨_, _, _, h, -⟩ := h
      cases h
    | entry count e =>
      constructor
      · intro h
        cases h
        exact ⟨buf, fs, dm, rfl, rfl⟩
      · rintro ⟨_, _, _, h, rfl⟩
        cases h
        rfl

/-- The loop has turns for a whole group. -/
theorem dirTurns_le {fs : FileSystem} {dm : DirMeta} (h : OnVolume fs dm L) : 33 ≤ dirTurns fs.superBlock := by
  obtain ⟨c, hc⟩ := List.exists_mem_of_ne_nil _ h.clusters
  have hR := h.file.chain.inRange c hc
  have hclusters : 2 ≤ fs.superBlock.dataClusCnt + 1 := hR.1.trans hR.2
  have hbpc : 512 ≤ fs.superBlock.bytsPerClus := by
    have := h.superBlock.secPerClus
    rw [h.superBlock.bytsPerClus]
    omega
  have hmul := Nat.mul_le_mul hclusters hbpc
  unfold dirTurns
  omega

/-- **Encode and decode**: `dirMetaNext` gives back what `makeDentry` wrote exactly if the short name does not begin with
the empty mark and every entry is within the clusters that are cached. -/
theorem makeDentry_roundTrip (h : OnVolume (t.volume (t.fsOf dir)) (t.dirMetas dir) L) (hs : Stores (t.dirMetas child))
    (hattr : (t.dirMetas child).attr ≠ ATTR_LONG_NAME) (hpos : 0 < (t.nodes child).filename.length)
    (hlen : (t.nodes child).filename.length ≤ FAT32_MAX_FILENAME) (h0 : (0 : Byte) ∉ (t.nodes child).filename)
    (hoff : 32 < off) (hlt : off < 2 ^ 32)
    (hroom : ∀ k ≤ lneCnt (t.nodes child).filename, Fat.u32 (off + 32 * k) /
      (t.volume (t.fsOf dir)).superBlock.bytsPerClus + 1 ≤ L.length + freeClusters (t.volume (t.fsOf dir)))
    (hr : t.makeDentry dir child off = .ok (next, t')) :
    t'.RoundTrip dir m off next (t.nodes child).filename (t.dirMetas child) ↔
      ¬ ShortEmpty (t.nodes child).filename ∧ ∀ k ≤ lneCnt (t.nodes child).filename,
        Fat.u32 (off + 32 * k) / (t.volume (t.fsOf dir)).superBlock.bytsPerClus < INODE_THIRD_LEVEL_TOP := by
  obtain ⟨hdir, halign, hnext, fs, dm, L', rfl, hv, hsb, hkeep, he⟩ := makeDentry_ok h hoff hlt hlen hroom hr
  have hcnt := lneCnt_le hlen
  have hname : 0 < lneCnt (t.nodes child).filename := by
    have hchar : CHAR_LONG_NAME = 13 := rfl
    unfold lneCnt
    rw [hchar]
    omega
  obtain ⟨hend, hempty⟩ := @shortEntry_order (t.nodes child).filename (t.dirMetas child) h0
  obtain ⟨hattr', hres, hclus, hsize⟩ :=
    shortEntry_fields (strncpy_length (generateShortName (t.nodes child).filename) CHAR_SHORT_NAME) hs
  obtain ⟨n, hturns⟩ : ∃ n, dirTurns fs.superBlock = n + 1 + lneCnt (t.nodes child).filename := by
    have := dirTurns_le hv
    exact ⟨dirTurns fs.superBlock - 1 - lneCnt (t.nodes child).filename, by omega⟩
  have hvolume : (t.setFile dir fs dm).volume ((t.setFile dir fs dm).fsOf dir) = fs := volume_setFile t dir fs dm
  have hdir' : (t.setFile dir fs dm).isDir dir = true := by
    unfold Tree.isDir at hdir ⊢
    rw [dirMetas_setFile, hkeep]
    exact hdir
  have hdm := dirMetas_setFile t dir fs dm
  have hmeta : ∀ (t : Tree) (x : DirMeta), (t.setMeta m x).dirMetas m = x := fun _ _ => Function.update_self ..
  have hnode : ∀ (t : Tree) (x : Node) (y : DirMeta), ((t.setNode m x).setMeta m y).nodes m = x := fun _ _ _ => Function.update_self ..
  rw [← hsb]
  constructor
  · rintro ⟨count, e, t'', hr', -⟩
    obtain ⟨buf, fs'', dm'', hloop, -⟩ := (dirMetaNext_entry hdir' halign).mp hr'
    rw [hvolume, hdm, hturns] at hloop
    refine ⟨fun hshort => ?_, fun k hk => Nat.lt_of_not_le fun hge => ?_⟩
    · exact hv.nextFile_none n he h0 hlen hname halign hlt hend (.inl (hempty.mpr hshort)) hloop
    · exact hv.nextFile_none n he h0 hlen hname halign hlt hend (.inr ⟨k, hk, hge⟩) hloop
  · rintro ⟨hshort, htop⟩
    obtain ⟨buf, fs'', dm'', hbuf, hloop⟩ := hv.nextFile n he h0 hlen hname halign hlt htop hend (fun h => hshort (hempty.mp h))
      (by rw [hattr']; exact hattr)
    rw [← hturns] at hloop
    refine ⟨_, _, _, (dirMetaNext_entry hdir' halign).mpr ⟨buf, fs'', dm'', by rw [hvolume, hdm]; exact hloop, rfl⟩, ?_, ?_, ?_, ?_, ?_,
      hnext.symm⟩
    · rw [hnode]
      exact hbuf.cstr h0 hlen
    · rw [hmeta, readDentryInfo_attr]
      exact hattr'
    · rw [hmeta, readDentryInfo_firstClus]
      exact hclus
    · rw [hmeta, readDentryInfo_fileSize]
      exact hsize
    · rw [hmeta, readDentryInfo_reserve]
      exact hres

end Call

/-! ## Two names in the root of the small volume -/

/-- The small volume, with an entry of that name not yet written. -/
def withName (name : List Byte) : Tree :=
  (rootSet (smallFs 4)).setNode 0 { zeroNode with filename := name, fileSystem := 0 }

theorem withName_child (name : List Byte) : (withName name).dirMetas 0 = zeroMeta := by
  have hne : 0 ≠ rootOf 0 := by decide
  show Function.update pooled.dirMetas (rootOf 0) (rootMeta (smallFs 4).superBlock.rootClus) 0 = zeroMeta
  rw [Function.update_of_ne hne]
  rfl

theorem withName_volume (name : List Byte) : (withName name).volume ((withName name).fsOf (rootOf 0)) = smallFs 4 := by
  have hne : rootOf 0 ≠ 0 := by decide
  have hnode : (withName name).nodes (rootOf 0) = (rootSet (smallFs 4)).nodes (rootOf 0) := by
    show Function.update (rootSet (smallFs 4)).nodes 0 { zeroNode with filename := name, fileSystem := 0 } (rootOf 0) = _
    rw [Function.update_of_ne hne]
  have hslot : (withName name).fileSystem 0 = ⟨true, smallFs 4, none⟩ := rootSet_fileSystem (smallFs 4) 0
  unfold Tree.fsOf
  rw [hnode, rootSet_root]
  have hpool : (withName name).inodes = (smallFs 4).inodes ∧ (withName name).inodeBitmap = (smallFs 4).inodeBitmap := ⟨rfl, rfl⟩
  unfold Tree.volume
  dsimp only [zeroNode]
  rw [hslot, hpool.1, hpool.2]

theorem onVolume_withName (name : List Byte) :
    OnVolume ((withName name).volume ((withName name).fsOf (rootOf 0))) ((withName name).dirMetas (rootOf 0)) [2] := by
  have hroot : (withName name).dirMetas (rootOf 0) = rootMeta (smallFs 4).superBlock.rootClus := by
    show Function.update pooled.dirMetas (rootOf 0) (rootMeta (smallFs 4).superBlock.rootClus) (rootOf 0) = _
    rw [Function.update_self]
  have hchain := ((rootOnly_small 4).filesOk (by decide)).file 0
  rw [withName_volume, hroot]
  refine ⟨small_ok_four, ?_, ⟨hchain.chain, rfl, fun _ => Nat.one_pos, Nat.le_refl 1, fun i c hi _ hc => ?_,
    fun key hl => (not_live_of_le_one (Nat.le_refl 1) hl).elim, fun key _ hl => (not_live_of_le_one (Nat.le_refl 1) hl).elim⟩,
    List.cons_ne_nil 2 []⟩
  · exact (fatInit_smallState small_ok_four (by decide)).inv.bitmap
  · obtain rfl : i = 0 := Nat.lt_one_iff.mp hi
    exact Option.some.inj hc

theorem room_withName (name : List Byte) (hname : lneCnt name = 1) : ∀ k ≤ lneCnt ((withName name).nodes 0).filename,
    Fat.u32 (64 + 32 * k) / ((withName name).volume ((withName name).fsOf (rootOf 0))).superBlock.bytsPerClus + 1 ≤
      [2].length + freeClusters ((withName name).volume ((withName name).fsOf (rootOf 0))) := by
  intro k hk
  have hk' : k ≤ 1 := hname ▸ hk
  have hbpc : (smallFs 4).superBlock.bytsPerClus = 512 := rfl
  have hone : Fat.u32 (64 + 32 * k) / 512 + 1 = 1 := by
    unfold Fat.u32
    omega
  rw [withName_volume, hbpc, hone]
  exact Nat.le_add_right 1 _

theorem stores_withName (name : List Byte) : Stores ((withName name).dirMetas 0) := by
  rw [withName_child]
  exact ⟨by decide, by decide, by decide, by decide⟩

/-- A name that begins with `0xe5` is taken for an empty entry. -/
theorem dirMetaNext_misses : ¬ ∀ (t t' : Tree) (dir child m off next : Nat) (L : List Nat),
    OnVolume (t.volume (t.fsOf dir)) (t.dirMetas dir) L → Stores (t.dirMetas child) →
    (t.dirMetas child).attr ≠ ATTR_LONG_NAME → 0 < (t.nodes child).filename.length →
    (t.nodes child).filename.length ≤ FAT32_MAX_FILENAME → (0 : Byte) ∉ (t.nodes child).filename →
    slash ∉ (t.nodes child).filename → 32 < off → off < 2 ^ 32 →
    (∀ k ≤ lneCnt (t.nodes child).filename, Fat.u32 (off + 32 * k) /
      (t.volume (t.fsOf dir)).superBlock.bytsPerClus + 1 ≤ L.length + freeClusters (t.volume (t.fsOf dir))) →
    t.makeDentry dir child off = .ok (next, t') →
    t'.RoundTrip dir m off next (t.nodes child).filename (t.dirMetas child) := by
  intro h
  have hrun : (((withName [0xe5]).makeDentry (rootOf 0) 0 64).toOption.map fun p =>
      (p.1, (p.2.dirMetaNext (rootOf 0) 1 64).toOption.map Prod.fst)) = some (128, some .none) := by decide +kernel
  obtain ⟨⟨next, t'⟩, hmake, heq⟩ := Loop.exists_of_toOption hrun
  obtain ⟨count, e, t'', hnext, -⟩ := h (withName [0xe5]) t' (rootOf 0) 0 1 64 next [2] (onVolume_withName _) (stores_withName _)
    (by decide +kernel) (by decide +kernel) (by decide +kernel) (by decide +kernel) (by decide +kernel) (by decide) (by decide)
    (room_withName _ rfl) hmake
  have hnone := (Prod.mk.inj heq).2
  rw [hnext] at hnone
  cases hnone

/-- The name `a` written at offset 64 and read back. -/
theorem makeDentry_roundTrip_small : ∃ t', (withName [0x61]).makeDentry (rootOf 0) 0 64 = .ok (128, t') ∧
    (t'.RoundTrip (rootOf 0) 1 64 128 ((withName [0x61]).nodes 0).filename ((withName [0x61]).dirMetas 0) ↔
      ¬ ShortEmpty ((withName [0x61]).nodes 0).filename ∧ ∀ k ≤ lneCnt ((withName [0x61]).nodes 0).filename,
        Fat.u32 (64 + 32 * k) / ((withName [0x61]).volume ((withName [0x61]).fsOf (rootOf 0))).superBlock.bytsPerClus <
          INODE_THIRD_LEVEL_TOP) := by
  have hrun : ((withName [0x61]).makeDentry (rootOf 0) 0 64).toOption.map Prod.fst = some 128 := by decide +kernel
  obtain ⟨⟨next, t'⟩, hmake, heq⟩ := Loop.exists_of_toOption hrun
  obtain rfl : next = 128 := heq
  exact ⟨t', hmake, makeDentry_roundTrip (onVolume_withName _) (stores_withName _) (by decide +kernel) (by decide +kernel)
    (by decide +kernel) (by decide +kernel) (by decide) (by decide) (room_withName _ rfl) hmake⟩

end Tree

end Exaros.Dir
