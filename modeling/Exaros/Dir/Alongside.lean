import Exaros.Dir.Spelling

/-!
# Lookups beside a new entry

A lookup reads the links on its way, and the path in a link lies in the first cluster of its file: reading it moves the
cursor of the link and nothing else (`Consulted`). What a lookup finds in a tree it finds in every tree that has the
entries of the first one and more, with the same bytes where they start (`Alongside`).
-/

namespace Exaros.Dir

open Fat Linked

/-- The file with its cursor at another cluster. -/
def Moved (dm dm' : DirMeta) : Prop :=
  ∃ cur cnt, dm' = { dm with curClus := cur, clusCnt := cnt } ∧ (dm.curClus < FAT32_EOC → cur < FAT32_EOC)

/-- What `metaRead` reads from the start of a file, up to a sector, where `data` are the bytes of its first cluster. -/
def readStart (data : Nat → Byte) (dm : DirMeta) (n : Nat) : Except Panic (Int × List Byte × DirMeta) :=
  if dm.dev = .zero then .ok (i32 n, List.replicate n 0, dm)
  else if dm.dev = .osrelease then .ok (i32 osrelease.length, osrelease, dm)
  else if dm.attr &&& ATTR_DIRECTORY ≠ 0 then .ok (0, [], dm)
  else if min n dm.fileSize = 0 then .ok (0, [], dm)
  else if dm.firstClus = 0 ∨ dm.inodeMaxCluster = 0 ∨ dm.firstClus ≠ dm.item 0 then .error .relocClus
  else .ok (i32 (min n dm.fileSize), (List.range (min n dm.fileSize)).map data, { dm with curClus := dm.firstClus, clusCnt := 0 })

section Start

variable {fs : FileSystem} {dm dm' dm'' dm₁ : DirMeta} {data data' : Nat → Byte} {dst : List Byte} {r : Int} {n : Nat}

theorem Moved.refl (dm : DirMeta) : Moved dm dm := ⟨dm.curClus, dm.clusCnt, rfl, id⟩

theorem Moved.trans (h : Moved dm dm') (h' : Moved dm' dm'') : Moved dm dm'' := by
  obtain ⟨cur, cnt, rfl, hcur⟩ := h
  obtain ⟨cur', cnt', rfl, hcur'⟩ := h'
  exact ⟨cur', cnt', rfl, fun hlt => hcur' (hcur hlt)⟩

theorem Moved.kind (h : Moved dm dm') : dm'.kind = dm.kind := by
  obtain ⟨cur, cnt, rfl, -⟩ := h
  rfl

theorem Moved.firstClus (h : Moved dm dm') : dm'.firstClus = dm.firstClus := by
  obtain ⟨cur, cnt, rfl, -⟩ := h
  rfl

theorem Moved.fileSize (h : Moved dm dm') : dm'.fileSize = dm.fileSize := by
  obtain ⟨cur, cnt, rfl, -⟩ := h
  rfl

theorem Moved.cursor (h : Moved dm dm') (hcur : dm.curClus < FAT32_EOC) : dm'.curClus < FAT32_EOC := by
  obtain ⟨cur, cnt, rfl, hlt⟩ := h
  exact hlt hcur

/-- Cursors moved on both sides. -/
theorem Moved.both {dm₁' : DirMeta} (h : Moved dm dm') (hcur : dm.curClus < FAT32_EOC) (h₁ : Moved dm dm₁) (h₁' : Moved dm' dm₁') :
    Moved dm₁ dm₁' := by
  have hlt := (h.trans h₁').cursor hcur
  obtain ⟨cur, cnt, rfl, -⟩ := h
  obtain ⟨cur₁, cnt₁, rfl, -⟩ := h₁
  obtain ⟨cur₁', cnt₁', rfl, -⟩ := h₁'
  exact ⟨cur₁', cnt₁', rfl, fun _ => hlt⟩

theorem metaReadLoop_done (n turns off : Nat) (dst : List Byte) : metaReadLoop n turns fs dm off n dst = .ok (n, dst, fs, dm) := by
  cases turns with
  | zero => rfl
  | succ turns => rw [metaReadLoop, if_neg fun h => Nat.lt_irrefl n h.2]

theorem relocClus_start (hpanic : ¬ (dm.firstClus = 0 ∨ dm.inodeMaxCluster = 0 ∨ dm.firstClus ≠ dm.item 0)) (alloc : Bool) :
    relocClus fs dm 0 alloc = .ok (0, fs, { dm with clusCnt := 0, curClus := dm.firstClus }) := by
  have hpos : 0 < dm.inodeMaxCluster := by omega
  have hfirst : dm.firstClus = dm.item 0 := by
    by_contra hne
    exact hpanic (.inr (.inr hne))
  have hfind : metaFindInode fs dm 0 = .ok { dm with clusCnt := 0, curClus := dm.firstClus } := by
    unfold metaFindInode
    rw [if_pos ⟨hpos, by decide⟩, hfirst]
    rfl
  unfold relocClus
  rw [if_neg hpanic]
  simp only [Nat.zero_div, Nat.zero_mod]
  rw [if_pos hpos, hfind]
  rfl

/-- One turn of the loop reads up to a sector from the first cluster. -/
theorem metaReadLoop_start (hok : fs.superBlock.Ok) (hfirst : dm.firstClus ≠ 0 → fs.superBlock.InRange dm.firstClus)
    (hcur : dm.curClus < FAT32_EOC) (hpos : 0 < n) (hn : n ≤ 512) : metaReadLoop n n fs dm 0 0 [] =
      if dm.firstClus = 0 ∨ dm.inodeMaxCluster = 0 ∨ dm.firstClus ≠ dm.item 0 then .error .relocClus
      else .ok (n, (List.range n).map fun i => byteAt fs.disk (clusAddr fs.superBlock dm.firstClus + i), fs,
        { dm with curClus := dm.firstClus, clusCnt := 0 }) := by
  have hbpc : 512 ≤ fs.superBlock.bytsPerClus := by
    have hspc := hok.secPerClus
    have hmul := hok.bytsPerClus
    omega
  obtain ⟨m, rfl⟩ : ∃ m, n = m + 1 := ⟨n - 1, by omega⟩
  rw [metaReadLoop, if_pos ⟨hcur, hpos⟩]
  by_cases hpanic : dm.firstClus = 0 ∨ dm.inodeMaxCluster = 0 ∨ dm.firstClus ≠ dm.item 0
  · have hreloc : relocClus fs dm 0 false = .error .relocClus := by
      unfold relocClus
      rw [if_pos hpanic]
    rw [if_pos hpanic, hreloc]
    rfl
  · have hturn : metaTurn fs.superBlock 0 0 (m + 1) = m + 1 := by
      by_cases hlt : m + 1 - 0 < fs.superBlock.bytsPerClus - 0 % fs.superBlock.bytsPerClus
      · exact if_pos hlt
      · refine (if_neg hlt).trans ?_
        rw [Nat.zero_mod] at hlt ⊢
        omega
    have hread := rwClusRead_eq hok (hfirst fun h => hpanic (.inl h)) hok.bpc_pos (show 0 + (m + 1) ≤ fs.superBlock.bytsPerClus by omega)
    rw [if_neg hpanic, relocClus_start hpanic]
    show Except.bind (rwClusRead fs dm.firstClus (0 % fs.superBlock.bytsPerClus) (metaTurn fs.superBlock 0 0 (m + 1))) _ = _
    rw [hturn, Nat.zero_mod, hread]
    show (if m + 1 = m + 1 then _ else _) = _
    rw [if_pos rfl, Nat.zero_add, metaReadLoop_done]
    simp only [Nat.add_zero, List.nil_append]

/-- A read from the start of a file. -/
theorem metaRead_start (hok : fs.superBlock.Ok) (hfirst : dm.firstClus ≠ 0 → fs.superBlock.InRange dm.firstClus)
    (hcur : dm.curClus < FAT32_EOC) (hn : n ≤ 512) : Fat.metaRead fs dm 0 n =
      (readStart (fun i => byteAt fs.disk (clusAddr fs.superBlock dm.firstClus + i)) dm n).map fun p => (p.1, p.2.1, fs, p.2.2) := by
  have hu : u32 (0 + n) = n := by
    unfold u32
    omega
  unfold Fat.metaRead readStart
  rw [hu]
  split
  · rfl
  · split
    · rfl
    · by_cases hdir : dm.attr &&& ATTR_DIRECTORY ≠ 0
      · rw [if_pos (.inr (.inr hdir)), if_pos hdir]
        rfl
      · have hmin : (if dm.fileSize < n then dm.fileSize - 0 else n) = min n dm.fileSize := by
          split <;> omega
        rw [if_neg (by simp only [Nat.not_lt_zero, false_or]; exact hdir), if_neg hdir, hmin]
        by_cases hzero : min n dm.fileSize = 0
        · rw [if_pos hzero, hzero]
          rfl
        · rw [if_neg hzero]
          show Except.bind (metaReadLoop (min n dm.fileSize) (min n dm.fileSize) fs dm 0 0 []) _ = _
          rw [metaReadLoop_start hok hfirst hcur (by omega) (by omega)]
          split <;> rfl

theorem readStart_moved (hfirst : dm.firstClus < FAT32_EOC) (h : readStart data dm n = .ok (r, dst, dm₁)) : Moved dm dm₁ := by
  unfold readStart at h
  repeat' split at h
  all_goals cases h
  · exact .refl dm
  · exact .refl dm
  · exact .refl dm
  · exact .refl dm
  · exact ⟨dm.firstClus, 0, rfl, fun _ => hfirst⟩

/-- The same bytes are read at another cursor. -/
theorem readStart_beside (hm : Moved dm dm') (hdata : dm.firstClus ≠ 0 → ∀ i < n, data' i = data i)
    (h : readStart data dm n = .ok (r, dst, dm₁)) : ∃ dm₁', readStart data' dm' n = .ok (r, dst, dm₁') := by
  obtain ⟨cur, cnt, rfl, -⟩ := hm
  unfold readStart at h ⊢
  split at h
  · cases h
    rw [if_pos ‹_›]
    exact ⟨_, rfl⟩
  · rw [if_neg ‹_›]
    split at h
    · cases h
      rw [if_pos ‹_›]
      exact ⟨_, rfl⟩
    · rw [if_neg ‹_›]
      split at h
      · cases h
        rw [if_pos ‹_›]
        exact ⟨_, rfl⟩
      · rw [if_neg ‹_›]
        split at h
        · cases h
          rw [if_pos ‹_›]
          exact ⟨_, rfl⟩
        · rw [if_neg ‹_›]
          split at h
          · cases h
          · rename_i hpanic
            cases h
            rw [if_neg hpanic]
            have hsame : (List.range (min n dm.fileSize)).map data' = (List.range (min n dm.fileSize)).map data :=
              List.map_congr_left fun i hi => hdata (fun h => hpanic (.inl h)) i
                (Nat.lt_of_lt_of_le (List.mem_range.mp hi) (Nat.min_le_left _ _))
            rw [hsame]
            exact ⟨_, rfl⟩

end Start

namespace Tree

/-- The entries of the tree lie on sound volumes: the bitmap shows the FAT, and an entry starts at a chain. -/
structure Formatted (t : Tree) : Prop where
  superBlock : ∀ d, t.InTree d → (t.volume (t.fsOf d)).superBlock.Ok
  bitmap : ∀ d, t.InTree d → BitmapOk (t.volume (t.fsOf d))
  chain : ∀ d, t.InTree d → ∃ L, IsChain (t.volume (t.fsOf d)) L ∧ (t.dirMetas d).firstClus = L.headD 0
  cursor : ∀ d, t.InTree d → (t.dirMetas d).curClus < FAT32_EOC

/-- What lookups do: they move the cursors of files. -/
structure Consulted (t t' : Tree) : Prop extends Still t t' where
  volume : ∀ f, t'.volume f = t.volume f
  file : ∀ d, Moved (t.dirMetas d) (t'.dirMetas d)

/-- The entries of `t` are in `t'` too, where lookups that find them in `t` find them. -/
structure Alongside (t t' : Tree) : Prop where
  rootFileSystem : t'.rootFileSystem = t.rootFileSystem
  head : ∀ d, t.InTree d → (t'.nodes d).head = (t.nodes d).head
  fsOf : ∀ d, t.InTree d → t'.fsOf d = t.fsOf d
  file : ∀ d, t.InTree d → Moved (t.dirMetas d) (t'.dirMetas d)
  found : ∀ d name x, t.InTree d → t.dirlookup d name = .ok (some x) → t'.dirlookup d name = .ok (some x)
  superBlock : ∀ d, t.InTree d → (t'.volume (t.fsOf d)).superBlock = (t.volume (t.fsOf d)).superBlock
  start : ∀ d, t.InTree d → (t.dirMetas d).firstClus ≠ 0 → ∀ i < 512,
    byteAt (t'.volume (t.fsOf d)).disk (clusAddr (t.volume (t.fsOf d)).superBlock (t.dirMetas d).firstClus + i) =
      byteAt (t.volume (t.fsOf d)).disk (clusAddr (t.volume (t.fsOf d)).superBlock (t.dirMetas d).firstClus + i)

section Consulted

variable {t t' t'' t₁ : Tree} {free : List Nat} {kids : Nat → List Nat} {c : Caller} {d x : Nat} {bytes : List Byte}

/-- The first cluster of an entry is one of its volume, and taken. -/
theorem Formatted.first (h : t.Formatted) (hd : t.InTree d) (hne : (t.dirMetas d).firstClus ≠ 0) :
    (t.volume (t.fsOf d)).superBlock.InRange (t.dirMetas d).firstClus ∧
      Bitmap.get (t.volume (t.fsOf d)).clusterBitmap (t.dirMetas d).firstClus = true := by
  obtain ⟨L, hL, hfirst⟩ := h.chain d hd
  cases L with
  | nil => exact absurd hfirst hne
  | cons c L =>
    have hc : (t.dirMetas d).firstClus = c := hfirst
    rw [hc]
    exact ⟨hL.inRange c List.mem_cons_self, hL.used (h.bitmap d hd) List.mem_cons_self⟩

theorem Formatted.first_lt (h : t.Formatted) (hd : t.InTree d) : (t.dirMetas d).firstClus < FAT32_EOC := by
  by_cases hne : (t.dirMetas d).firstClus = 0
  · rw [hne]
    decide
  · exact ((h.superBlock d hd).inRange_bounds (h.first hd hne).1).2

theorem Consulted.refl (t : Tree) : Consulted t t := ⟨.refl t, fun _ => rfl, fun _ => .refl _⟩

theorem Consulted.trans (h : Consulted t t') (h' : Consulted t' t'') : Consulted t t'' where
  toStill := h.toStill.trans h'.toStill
  volume f := (h'.volume f).trans (h.volume f)
  file d := (h.file d).trans (h'.file d)

theorem Consulted.fsOf (h : Consulted t t') (d : Nat) : t'.fsOf d = t.fsOf d := by
  unfold Tree.fsOf
  rw [h.nodes]

theorem Consulted.formatted (h : Consulted t t') (hf : t.Formatted) : t'.Formatted where
  superBlock d hd := by
    rw [h.fsOf, h.volume]
    exact hf.superBlock d ((h.inTree d).mp hd)
  bitmap d hd := by
    rw [h.fsOf, h.volume]
    exact hf.bitmap d ((h.inTree d).mp hd)
  chain d hd := by
    rw [h.fsOf, h.volume, (h.file d).firstClus]
    exact hf.chain d ((h.inTree d).mp hd)
  cursor d hd := (h.file d).cursor (hf.cursor d ((h.inTree d).mp hd))

theorem volume_setFile_self (t : Tree) (x : Nat) (dm : DirMeta) (f : Nat) :
    (t.setFile x (t.volume (t.fsOf x)) dm).volume f = t.volume f := by
  unfold Tree.setFile Tree.setVolume Tree.setMeta Tree.volume
  by_cases hf : f = t.fsOf x
  · subst hf
    simp
  · simp [hf]

theorem consulted_setFile (t : Tree) {dm : DirMeta} (hm : Moved (t.dirMetas x) dm) :
    Consulted t (t.setFile x (t.volume (t.fsOf x)) dm) where
  toStill := still_setFile t x _ hm.kind
  volume := volume_setFile_self t x dm
  file d := by
    by_cases hd : d = x
    · subst hd
      show Moved _ (Function.update t.dirMetas d dm d)
      rw [Function.update_self]
      exact hm
    · show Moved _ (Function.update t.dirMetas x dm d)
      rw [Function.update_of_ne hd]
      exact .refl _

/-- A link that is read. -/
theorem Formatted.metaRead (h : t.Formatted) (hx : t.InTree x) (hr : t.metaRead x 0 FAT32_MAX_FILENAME = .ok (bytes, t')) :
    ∃ r dm, readStart (fun i => byteAt (t.volume (t.fsOf x)).disk
        (clusAddr (t.volume (t.fsOf x)).superBlock (t.dirMetas x).firstClus + i)) (t.dirMetas x) FAT32_MAX_FILENAME = .ok (r, bytes, dm) ∧
      t' = t.setFile x (t.volume (t.fsOf x)) dm ∧ Moved (t.dirMetas x) dm := by
  have hstart := metaRead_start (h.superBlock x hx) (fun hne => (h.first hx hne).1) (h.cursor x hx)
    (show FAT32_MAX_FILENAME ≤ 512 by decide)
  unfold Tree.metaRead at hr
  rw [hstart] at hr
  cases hread : readStart (fun i => byteAt (t.volume (t.fsOf x)).disk
    (clusAddr (t.volume (t.fsOf x)).superBlock (t.dirMetas x).firstClus + i)) (t.dirMetas x) FAT32_MAX_FILENAME with
  | error e =>
    rw [hread] at hr
    cases hr
  | ok p =>
    obtain ⟨r, dst, dm⟩ := p
    rw [hread] at hr
    cases hr
    exact ⟨r, dm, rfl, rfl, readStart_moved (h.first_lt hx) hread⟩

/-- **A lookup** moves cursors only. -/
theorem consulted_lookupPath (h : Sound t free kids) (hf : t.Formatted) {n : Nat} {fd : Int} {parent jump : Bool} {r : Option Nat}
    {path name : List Byte} (hc : t.Stands c fd path) (hl : lookupPath n t c fd path parent jump = .ok (r, name, t')) :
    Consulted t t' ∧ ∀ x, r = some x → t.InTree x := by
  refine lookupPath_keeps h.shape h.mounted (fun _ hs => hs.toStill) (fun hs hx hr => ?_) (.refl t) hc hl
  obtain ⟨r, dm, -, rfl, hm⟩ := (hs.formatted hf).metaRead ((hs.inTree _).mpr hx) hr
  exact hs.trans (consulted_setFile _ hm)

/-! ### The other tree -/

theorem Alongside.below (h : Alongside t t') (hd : t.InTree d) : t'.below d = t.below d := by
  unfold Tree.below
  rw [h.head d hd]

theorem Alongside.isDir (h : Alongside t t') (hd : t.InTree d) : t'.isDir d = t.isDir d := by
  unfold Tree.isDir
  rw [attr_of_kind (h.file d hd).kind]

theorem Alongside.isLink (h : Alongside t t') (hd : t.InTree d) : t'.isLink d = t.isLink d := by
  have hres : (t'.dirMetas d).reserve = (t.dirMetas d).reserve := congrArg (fun k => k.2.1) (h.file d hd).kind
  unfold Tree.isLink
  rw [hres]

/-- Lookups on both sides. -/
theorem Alongside.both {t₁' : Tree} (h : Alongside t t') (hf : t.Formatted) (hc : Consulted t t₁) (hc' : Consulted t' t₁') :
    Alongside t₁ t₁' where
  rootFileSystem := hc'.rootFileSystem.trans (h.rootFileSystem.trans hc.rootFileSystem.symm)
  head d hd := by
    rw [hc'.nodes, hc.nodes]
    exact h.head d ((hc.inTree d).mp hd)
  fsOf d hd := by
    rw [hc'.fsOf, hc.fsOf]
    exact h.fsOf d ((hc.inTree d).mp hd)
  file d hd := by
    have hd := (hc.inTree d).mp hd
    exact (h.file d hd).both (hf.cursor d hd) (hc.file d) (hc'.file d)
  found d name x hd hx := by
    rw [hc.toStill.dirlookup] at hx
    rw [hc'.toStill.dirlookup]
    exact h.found d name x ((hc.inTree d).mp hd) hx
  superBlock d hd := by
    rw [hc'.volume, hc.volume, hc.fsOf]
    exact h.superBlock d ((hc.inTree d).mp hd)
  start d hd hne := by
    rw [(hc.file d).firstClus] at hne
    rw [hc'.volume, hc.volume, hc.fsOf, (hc.file d).firstClus]
    exact h.start d ((hc.inTree d).mp hd) hne

/-- A link is read on both sides. -/
theorem Alongside.metaRead (h : Alongside t t') (hf : t.Formatted) (hx : t.InTree x)
    (hr : t.metaRead x 0 FAT32_MAX_FILENAME = .ok (bytes, t₁)) :
    ∃ t₁', t'.metaRead x 0 FAT32_MAX_FILENAME = .ok (bytes, t₁') ∧ Consulted t t₁ ∧ Alongside t₁ t₁' := by
  obtain ⟨r, dm, hread, rfl, hm⟩ := hf.metaRead hx hr
  have hsb := h.superBlock x hx
  have hmoved := h.file x hx
  have hok : (t'.volume (t.fsOf x)).superBlock.Ok := by
    rw [hsb]
    exact hf.superBlock x hx
  have hrange : (t'.dirMetas x).firstClus ≠ 0 → (t'.volume (t.fsOf x)).superBlock.InRange (t'.dirMetas x).firstClus := fun hne => by
    rw [hmoved.firstClus] at hne ⊢
    rw [hsb]
    exact (hf.first hx hne).1
  have hstart := metaRead_start hok hrange (hmoved.cursor (hf.cursor x hx)) (show FAT32_MAX_FILENAME ≤ 512 by decide)
  rw [hsb, hmoved.firstClus] at hstart
  obtain ⟨dm', hread'⟩ := readStart_beside hmoved (fun hne i hi => h.start x hx hne i (Nat.lt_of_lt_of_le hi (by decide))) hread
  have hm' : Moved (t'.dirMetas x) dm' := by
    refine readStart_moved ?_ hread'
    rw [hmoved.firstClus]
    exact hf.first_lt hx
  have hc := consulted_setFile t hm
  have hc' := consulted_setFile t' hm'
  rw [hread'] at hstart
  refine ⟨_, ?_, hc, h.both hf hc hc'⟩
  unfold Tree.metaRead
  rw [h.fsOf x hx, hstart]
  rfl

end Consulted

/-! ### Lookups in both trees -/

/-- What a lookup rests on. -/
def Ready (t : Tree) (c : Caller) : Prop :=
  (∃ free kids, Sound t free kids) ∧ t.Formatted ∧ ∀ d, c.cwd = some d → t.InTree d

/-- A way to follow links that follows them alike in both trees. -/
def Mirrors (c : Caller) (link : Tree → Option Nat → Except Halt (Nat × Tree)) : Prop :=
  ∀ t t' cur d t₁, Ready t c → Alongside t t' → (∀ x, cur = some x → t.InTree x) → link t cur = .ok (d, t₁) →
    Consulted t t₁ ∧ t.InTree d ∧ t₁.isLink d = false ∧ ∃ t₁', link t' cur = .ok (d, t₁') ∧ Alongside t₁ t₁'

section Mirrors

variable {t t' t₁ : Tree} {c : Caller} {d n : Nat} {cur : Option Nat} {path name name' : List Byte} {elems : List (List Byte)}
  {link : Tree → Option Nat → Except Halt (Nat × Tree)}

theorem Ready.consulted (h : Ready t c) (hc : Consulted t t₁) : Ready t₁ c := by
  obtain ⟨⟨free, kids, hs⟩, hf, hcwd⟩ := h
  exact ⟨⟨free, kids, hs.still hc.toStill⟩, hc.formatted hf, fun d hd => (hc.inTree d).mpr (hcwd d hd)⟩

theorem Ready.below (h : Ready t c) (hd : t.InTree d) : t.InTree (t.below d) := by
  obtain ⟨⟨free, kids, hs⟩, -, -⟩ := h
  exact (hs.shape.inTree_iff _).mpr (hs.mounted.below_rooted ((hs.shape.inTree_iff d).mp hd))

theorem Ready.dirlookup (h : Ready t c) (hd : t.InTree d) {x : Nat} (hx : t.dirlookup d name = .ok (some x)) : t.InTree x := by
  obtain ⟨⟨free, kids, hs⟩, -, -⟩ := h
  exact (hs.shape.inTree_iff _).mpr (hs.shape.dirlookup_rooted hs.mounted ((hs.shape.inTree_iff d).mp hd) hx)

/-- A walk that ends at an entry. -/
theorem Mirrors.walkElems (hlink : Mirrors c link) (hr : Ready t c) (ha : Alongside t t') (hcur : ∀ x, cur = some x → t.InTree x)
    (hw : walkElems link false true t cur elems name = .ok (some d, name', t₁)) :
    Consulted t t₁ ∧ t.InTree d ∧ t₁.isLink d = false ∧
      ∃ t₁', walkElems link false true t' cur elems name = .ok (some d, name', t₁') ∧ Alongside t₁ t₁' := by
  induction elems generalizing t t' cur name with
  | nil =>
    rw [Tree.walkElems, if_pos rfl] at hw ⊢
    cases hl : link t cur with
    | error e =>
      rw [hl] at hw
      cases hw
    | ok p =>
      obtain ⟨x, t₂⟩ := p
      rw [hl] at hw
      cases hw
      obtain ⟨hc, hd, hstop, t₂', hl', ha'⟩ := hlink t t' cur d t₁ hr ha hcur hl
      rw [hl']
      exact ⟨hc, hd, hstop, t₂', rfl, ha'⟩
  | cons elem elems ih =>
    cases hl : link t cur with
    | error e =>
      rw [walkElems_error hl] at hw
      cases hw
    | ok p =>
      obtain ⟨x, t₂⟩ := p
      obtain ⟨hc, hx, -, t₂', hl', ha'⟩ := hlink t t' cur x t₂ hr ha hcur hl
      have hr₂ := hr.consulted hc
      have hx₂ : t₂.InTree x := (hc.inTree x).mpr hx
      by_cases hdir : t₂.isDir x = true
      · rw [walkElems_dir hl hdir, enter, if_neg (by simp)] at hw
        rw [walkElems_dir hl' ((ha'.isDir hx₂).trans hdir), ha'.below hx₂, enter, if_neg (by simp)]
        have hbelow := hr₂.below hx₂
        cases hlook : t₂.dirlookup (t₂.below x) elem with
        | error e =>
          rw [hlook] at hw
          cases hw
        | ok next =>
          rw [hlook] at hw
          cases next with
          | none => cases hw
          | some next =>
            rw [ha'.found _ _ _ hbelow hlook]
            have hnext := hr₂.dirlookup hbelow hlook
            obtain ⟨hc₁, hd, hstop, t₁', hw', ha₁⟩ := ih hr₂ ha' (fun y hy => by cases hy; exact hnext) hw
            exact ⟨hc.trans hc₁, (hc.inTree d).mp hd, hstop, t₁', hw', ha₁⟩
      · have hfile : t₂.isDir x = false := by simpa using hdir
        rw [walkElems_file hl hfile] at hw
        cases hw

/-- A lookup of a path in a link, or from the working directory. -/
theorem Mirrors.lookupWith (hlink : Mirrors c link) (hr : Ready t c) (ha : Alongside t t')
    (hl : lookupWith link t c AT_FDCWD path false true = .ok (some d, name, t₁)) :
    Consulted t t₁ ∧ t.InTree d ∧ t₁.isLink d = false ∧
      ∃ t₁', lookupWith link t' c AT_FDCWD path false true = .ok (some d, name, t₁') ∧ Alongside t₁ t₁' := by
  have hstart : t'.startDir c AT_FDCWD path = t.startDir c AT_FDCWD path := by
    unfold Tree.startDir
    rw [ha.rootFileSystem]
  unfold Tree.lookupWith at hl ⊢
  rw [hstart]
  cases hcur : t.startDir c AT_FDCWD path with
  | none =>
    rw [hcur] at hl
    cases hl
  | some cur =>
    rw [hcur] at hl
    dsimp only at hl ⊢
    rw [walk_elements (Nat.lt_succ_self _)] at hl ⊢
    refine hlink.walkElems hr ha (fun x hx => ?_) hl
    obtain ⟨⟨free, kids, hs⟩, -, hcwd⟩ := hr
    have hanchor := anchored_cwd hs.mounted (fun d hd => (hs.shape.inTree_iff d).mp (hcwd d hd)) path
    exact (hs.shape.inTree_iff x).mpr (hanchor x (by rw [hcur, hx]))

/-- Links are followed alike in both trees. -/
theorem mirrors_jump (n : Nat) (buf : List Byte) : Mirrors c fun t d => jumpToLinkDirMeta c n buf t d := by
  induction n generalizing buf with
  | zero =>
    intro t t' cur d t₁ _ _ _ hj
    cases hj
  | succ n ih =>
    intro t t' cur d t₁ hr ha hcur hj
    cases cur with
    | none => cases hj
    | some x =>
      have hx := hcur x rfl
      have hsame := ha.isLink hx
      dsimp only at hj ⊢
      rw [jumpToLinkDirMeta] at hj ⊢
      by_cases hlink : t.isLink x = true
      · rw [if_neg (by simp [hlink])] at hj
        rw [if_neg (by simp [hsame, hlink])]
        cases hread : t.metaRead x 0 FAT32_MAX_FILENAME with
        | error e =>
          rw [hread] at hj
          cases hj
        | ok p =>
          obtain ⟨bytes, t₂⟩ := p
          obtain ⟨t₂', hread', hc₂, ha₂⟩ := ha.metaRead hr.2.1 hx hread
          rw [hread] at hj
          rw [hread']
          dsimp only at hj ⊢
          cases hl : Tree.lookupWith (fun t d => jumpToLinkDirMeta c n (c.stack n) t d) t₂ c AT_FDCWD
              (cstr (bytes ++ buf.drop bytes.length)) false true with
          | error e =>
            rw [hl] at hj
            cases hj
          | ok p =>
            obtain ⟨target, name, t₃⟩ := p
            rw [hl] at hj
            cases target with
            | none =>
              cases n with
              | zero => cases hj
              | succ n => cases hj
            | some target =>
              obtain ⟨hc₃, htarget, -, t₃', hl', ha₃⟩ := (ih (c.stack n)).lookupWith (hr.consulted hc₂) ha₂ hl
              rw [hl']
              have hc := hc₂.trans hc₃
              obtain ⟨hc₄, hd, hstop, t₄', hj', ha₄⟩ := ih _ t₃ t₃' (some target) d t₁ (hr.consulted hc) ha₃
                (fun y hy => by cases hy; exact (hc₃.inTree target).mpr htarget) hj
              exact ⟨hc.trans hc₄, (hc.inTree d).mp hd, hstop, t₄', hj', ha₄⟩
      · have hfile : t.isLink x = false := by simpa using hlink
        rw [if_pos (by simp [hfile])] at hj
        rw [if_pos (by simp [hsame, hfile])]
        cases hj
        exact ⟨.refl t, hx, hfile, t', rfl, ha⟩

/-- **What is found beside**: a path that leads to an entry leads to it in the other tree. -/
theorem Alongside.metaName (ha : Alongside t t') (hr : Ready t c) (hm : metaName n t c AT_FDCWD path true = .ok (some d, t₁)) :
    Consulted t t₁ ∧ t.InTree d ∧ t₁.isLink d = false ∧
      ∃ t₁', metaName n t' c AT_FDCWD path true = .ok (some d, t₁') ∧ Alongside t₁ t₁' := by
  unfold Tree.metaName Tree.lookupPath at hm ⊢
  cases hl : Tree.lookupWith (fun t d => jumpToLinkDirMeta c n (c.stack n) t d) t c AT_FDCWD path false true with
  | error e =>
    rw [hl] at hm
    cases hm
  | ok p =>
    obtain ⟨r, name, t₂⟩ := p
    rw [hl] at hm
    cases hm
    obtain ⟨hc, hd, hstop, t₁', hl', ha'⟩ := (mirrors_jump n (c.stack n)).lookupWith hr ha hl
    rw [hl']
    exact ⟨hc, hd, hstop, t₁', rfl, ha'⟩

end Mirrors

end Tree

end Exaros.Dir
