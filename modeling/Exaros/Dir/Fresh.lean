import Exaros.Dir.Mount

/-!
# New entries

`metaAlloc` takes a `DirMeta` from the pool for a name that its directory does not have, and sets most of its fields.
The children, what is mounted on it, its device and its offset in the directory stay as the pool had them. A node of
the pool is `Clean` when these are as at boot; it is not when it has come back from an entry that had one of them set,
which `metaRemove` does not look at.
-/

namespace Exaros.Dir

open Fat Linked
open Function (update update_self update_of_ne)

/-- What changes the tree: creating, linking and removing entries, writing to a file, and mounting a volume. -/
inductive Change where
  | edit (op : Op)
  | write (d : Nat) (src : List Byte) (off n : Nat)
  | mount (c : Caller) (a : MountArgs)

/-- What `metaAlloc` sets in the file of an entry. -/
structure Made (dm : DirMeta) (attr : Nat) : Prop where
  kind : dm.attr = (if attr = ATTR_LINK then 0 else attr) ||| (if attr = ATTR_DIRECTORY then ATTR_DIRECTORY else ATTR_ARCHIVE)
  reserve : dm.reserve = if attr = ATTR_LINK then DT_LNK else 0
  size : dm.fileSize = 0 ∧ dm.clusCnt = 0 ∧ dm.curClus = dm.firstClus
  file : attr ≠ ATTR_DIRECTORY → dm.firstClus = 0 ∧ dm.inodeMaxCluster = 0
  directory : attr = ATTR_DIRECTORY → dm.item 0 = dm.firstClus ∧ dm.inodeMaxCluster = 1

/-- A new file on the volume has the clusters and pool inodes that a write of `n` bytes at `off` takes. -/
structure WriteRoom (fs : FileSystem) (off n : Nat) : Prop where
  superBlock : fs.superBlock.Ok
  bitmap : BitmapOk fs
  clusters : writeSpan fs.superBlock off n ≤ freeClusters fs
  top : span fs.superBlock off (off + n) ≤ INODE_THIRD_LEVEL_TOP
  inodes : inodesBetween 0 (span fs.superBlock off (off + n)) ≤ freeInodes fs

namespace Tree

def change (n : Nat) (t : Tree) : Change → Except Halt Tree
  | .edit op => t.exec n op
  | .write d src off n => (t.metaWrite d src off n).map Prod.snd
  | .mount c a => (t.syscallMount n c a).map Prod.snd

/-- Nothing is mounted on the entry, it is no device, and it has no offset. -/
structure Blank (t : Tree) (d : Nat) : Prop where
  head : (t.nodes d).head = none
  off : (t.nodes d).off = 0
  dev : (t.dirMetas d).dev = .regular

/-- As `dirMetaInit` left it, in the fields that `metaAlloc` does not set. -/
structure Clean (t : Tree) (d : Nat) : Prop extends Blank t d where
  leaf : (t.nodes d).firstChild = none

instance (t : Tree) (d : Nat) : Decidable (t.Clean d) :=
  decidable_of_iff ((t.nodes d).head = none ∧ (t.nodes d).off = 0 ∧ (t.dirMetas d).dev = .regular ∧ (t.nodes d).firstChild = none)
    ⟨fun h => ⟨⟨h.1, h.2.1, h.2.2.1⟩, h.2.2.2⟩, fun h => ⟨h.head, h.off, h.dev, h.leaf⟩⟩

/-- The new entry `d` of directory `p`: every field is what `metaAlloc` was asked for, or as at boot. -/
structure Fresh (t : Tree) (d p : Nat) (name : List Byte) (attr : Nat) : Prop extends Clean t d, Made (t.dirMetas d) attr where
  parent : (t.nodes d).parent = some p
  filename : (t.nodes d).filename = name.take FAT32_MAX_FILENAME
  fileSystem : t.fsOf d = t.fsOf p
  pool : ∀ key, ¬ InodeKey.Live (t.dirMetas d).inodeMaxCluster key
  link : t.isLink d = true ↔ attr = ATTR_LINK
  /-- nothing is read from it -/
  reads : ∀ off n, n < 2 ^ 32 → ∃ t', t.metaRead d off n = .ok ([], t')
  /-- no write is refused -/
  writes : attr &&& ATTR_READ_ONLY = 0 → ∀ off n, off + n < 2 ^ 32 → ¬ WriteRefused (t.dirMetas d) off n
  /-- and what is written to a file is stored, where the volume has room for it -/
  stores : attr ≠ ATTR_DIRECTORY → attr &&& ATTR_READ_ONLY = 0 → ∀ src off n, off + n < 2 ^ 32 → WriteRoom (t.volume (t.fsOf d)) off n →
    ∃ fs' dm' L', Fat.metaWrite (t.volume (t.fsOf d)) (t.dirMetas d) src off n = .ok (i32 n, fs', dm') ∧
      MetaWritten (t.volume (t.fsOf d)) (t.dirMetas d) [] src off n fs' dm' L'

end Tree

/-! ## One call -/

section Call

variable {fs fs' : FileSystem} {dm dm' : DirMeta} {attr : Nat}

/-- The last part of `metaAlloc` sets these fields, and leaves the device. -/
theorem made_metaAlloc (h : Fat.metaAlloc fs dm attr = .ok (fs', dm')) : Made dm' attr ∧ dm'.dev = dm.dev := by
  obtain ⟨⟨fs₁, dm₁⟩, hfree, h⟩ := Loop.bind_ok h
  obtain ⟨fs₂, -, hfree⟩ := Loop.bind_ok hfree
  cases hfree
  dsimp only at h
  by_cases hdir : attr = ATTR_DIRECTORY
  · rw [if_pos hdir] at h
    obtain ⟨⟨clus, fs₃⟩, -, h⟩ := Loop.bind_ok h
    cases h
    subst hdir
    exact ⟨⟨rfl, rfl, ⟨rfl, rfl, rfl⟩, fun hne => absurd rfl hne, fun _ => ⟨rfl, rfl⟩⟩, rfl⟩
  · rw [if_neg hdir] at h
    cases h
    by_cases hlink : attr = ATTR_LINK
    · subst hlink
      exact ⟨⟨rfl, rfl, ⟨rfl, rfl, rfl⟩, fun _ => ⟨rfl, rfl⟩, fun h => absurd h hdir⟩, rfl⟩
    · refine ⟨⟨?_, ?_, ⟨?_, rfl, ?_⟩, fun _ => ⟨?_, rfl⟩, fun h => absurd h hdir⟩, ?_⟩
      all_goals simp [hlink, hdir]

theorem Made.not_live (h : Made dm attr) (key : InodeKey) : ¬ InodeKey.Live dm.inodeMaxCluster key := by
  refine not_live_of_le_one ?_
  by_cases hdir : attr = ATTR_DIRECTORY
  · exact Nat.le_of_eq (h.directory hdir).2
  · exact (Nat.le_of_eq (h.file hdir).2).trans (Nat.zero_le 1)

/-- Nothing is read from an empty file. -/
theorem metaRead_made (h : Made dm attr) (hdev : dm.dev = .regular) (fs : FileSystem) {off n : Nat} (hn : n < 2 ^ 32) :
    Fat.metaRead fs dm off n = .ok (0, [], fs, dm) := by
  unfold Fat.metaRead
  rw [if_neg (by rw [hdev]; exact Dev.noConfusion), if_neg (by rw [hdev]; exact Dev.noConfusion), h.size.1]
  by_cases hoff : 0 < off ∨ Fat.u32 (off + n) < off ∨ dm.attr &&& ATTR_DIRECTORY ≠ 0
  · rw [if_pos hoff]
  · rw [if_neg hoff]
    obtain rfl : off = 0 := Nat.eq_zero_of_not_pos fun hpos => hoff (.inl hpos)
    have hu : Fat.u32 (0 + n) = n := by
      unfold Fat.u32
      omega
    rw [hu]
    by_cases hpos : 0 < n
    · rw [if_pos hpos]
      rfl
    · obtain rfl : n = 0 := Nat.eq_zero_of_not_pos hpos
      rfl

/-- A write to a file just made is not refused. -/
theorem Made.not_refused (h : Made dm attr) (hdev : dm.dev = .regular) (hattr : attr &&& ATTR_READ_ONLY = 0) {off n : Nat}
    (hn : off + n < 2 ^ 32) : ¬ WriteRefused dm off n := by
  have hro : dm.attr &&& ATTR_READ_ONLY = 0 := by
    rw [h.kind, Nat.and_or_distrib_right]
    have h1 : (if attr = ATTR_LINK then 0 else attr) &&& ATTR_READ_ONLY = 0 := by
      split
      · rfl
      · exact hattr
    have h2 : (if attr = ATTR_DIRECTORY then ATTR_DIRECTORY else ATTR_ARCHIVE) &&& ATTR_READ_ONLY = 0 := by
      split <;> rfl
    rw [h1, h2]
    rfl
  unfold WriteRefused
  rw [hdev, hro]
  have hu : Fat.u32 (off + n) = off + n := by
    unfold Fat.u32
    omega
  rw [hu]
  rintro (h | h | h | h)
  · cases h
  · omega
  · omega
  · exact h rfl

theorem Made.fileOk (h : Made dm attr) (hattr : attr ≠ ATTR_DIRECTORY) (fs : FileSystem) : FileOk fs dm [] := by
  obtain ⟨hfirst, hnone⟩ := h.file hattr
  refine ⟨IsChain.nil fs, hfirst, fun hne => absurd rfl hne, ?_, fun i c _ _ hc => ?_, ⟨fun key hl => ?_, fun key key' hl => ?_⟩⟩
  · rw [hnone]
    exact Nat.zero_le _
  · cases hc
  · exact absurd hl (h.not_live key)
  · exact absurd hl (h.not_live key)

/-- **A write to a new file** returns and stores the bytes. -/
theorem Made.stores (h : Made dm attr) (hdev : dm.dev = .regular) (hdir : attr ≠ ATTR_DIRECTORY) (hattr : attr &&& ATTR_READ_ONLY = 0)
    (src : Nat → Byte) {off n : Nat} (hn : off + n < 2 ^ 32) (hroom : WriteRoom fs off n) :
    ∃ fs' dm' L', Fat.metaWrite fs dm src off n = .ok (i32 n, fs', dm') ∧ MetaWritten fs dm [] src off n fs' dm' L' := by
  have hfile := h.fileOk hdir fs
  have hacc := h.not_refused hdev hattr hn
  have hclusters : writeSpan fs.superBlock off n ≤ ([] : List Nat).length + freeClusters fs := by
    rw [List.length_nil, Nat.zero_add]
    exact hroom.clusters
  have hinodes : inodesBetween dm.inodeMaxCluster (span fs.superBlock off (off + n)) ≤ freeInodes fs := by
    rw [(h.file hdir).2]
    exact hroom.inodes
  obtain ⟨⟨r, fs', dm'⟩, hw⟩ := exists_metaWrite src hroom.superBlock hroom.bitmap hfile hacc hclusters hroom.top hinodes
  obtain ⟨rfl, L', hwritten⟩ := metaWrite_ok hroom.superBlock hroom.bitmap hfile hacc hclusters hw
  exact ⟨fs', dm', L', hw, hwritten⟩

end Call

namespace Tree

section Alloc

variable {t t' : Tree} {free : List Nat} {kids : Nat → List Nat} {d p : Nat} {name : List Byte} {attr : Nat}

/-- **A new entry is fresh** exactly if the node taken for it was clean. -/
theorem fresh_iff (h : Sound t free kids) (hp : t.InTree p) (hnew : t.dirlookup p name = .ok none)
    (hr : t.metaAlloc p name attr = .ok (d, t')) : t'.Fresh d p name attr ↔ t.Clean d := by
  rcases h.metaAlloc hp hr with ⟨hlook, -⟩ | ⟨rest, fs, dm, -, hfree, hfat, rfl, hpd, -, -⟩
  · rw [hnew] at hlook
    cases hlook
  · obtain ⟨hmade, hdev⟩ := made_metaAlloc hfat
    have hself : (t.added d p name fs dm).nodes d = { t.nodes d with
        parent := some p
        nextBrother := (t.nodes p).firstChild
        fileSystem := (t.nodes p).fileSystem
        filename := name.take FAT32_MAX_FILENAME } := link_self { t with dirMetaHead := t.next d } name hpd
    have hpar : (t.added d p name fs dm).nodes p = { t.nodes p with firstChild := some d } :=
      link_parent { t with dirMetaHead := t.next d } name hpd
    have hfile : (t.added d p name fs dm).dirMetas d = dm := update_self ..
    constructor
    · intro hf
      have hhead := hf.head
      have hoff := hf.off
      have hd := hf.dev
      have hleaf := hf.leaf
      rw [hself] at hhead hoff hleaf
      rw [hfile, hdev] at hd
      exact ⟨⟨hhead, hoff, hd⟩, hleaf⟩
    · intro hc
      have hreg : dm.dev = .regular := hdev.trans hc.dev
      have hlink : (t.added d p name fs dm).isLink d = true ↔ attr = ATTR_LINK := by
        unfold Tree.isLink
        rw [hfile, decide_eq_true_iff, hmade.reserve]
        by_cases hattr : attr = ATTR_LINK
        · rw [if_pos hattr]
          exact iff_of_true rfl hattr
        · rw [if_neg hattr]
          exact iff_of_false (by decide) hattr
      refine ⟨⟨⟨?_, ?_, ?_⟩, ?_⟩, ?_, ?_, ?_, ?_, ?_, hlink, fun off n hn => ?_, fun hattr off n hn => ?_,
        fun hdir hattr src off n hn hroom => ?_⟩
      · rw [hself]
        exact hc.head
      · rw [hself]
        exact hc.off
      · rw [hfile]
        exact hreg
      · rw [hself]
        exact hc.leaf
      · rw [hfile]
        exact hmade
      · rw [hself]
      · rw [hself]
      · unfold fsOf
        rw [hself, hpar]
      · rw [hfile]
        exact hmade.not_live
      · unfold Tree.metaRead
        rw [hfile, metaRead_made hmade hreg _ hn]
        exact ⟨_, rfl⟩
      · rw [hfile]
        exact hmade.not_refused hreg hattr hn
      · rw [hfile]
        exact hmade.stores hreg hdir hattr src hn hroom

end Alloc

/-! ## The pool -/

/-- The free list, of nodes that are blank. -/
structure Pooled (t : Tree) (free : List Nat) : Prop where
  cells : Cells t.next t.dirMetaHead free
  blank : ∀ i ∈ free, t.Blank i

section Pool

variable {t t' : Tree} {free : List Nat} {kids : Nat → List Nat} {d f parent child off : Nat}

theorem Pooled.congr (h : Pooled t free) (hhead : t'.dirMetaHead = t.dirMetaHead) (hnext : ∀ i ∈ free, t'.next i = t.next i)
    (hb : ∀ i ∈ free, t.Blank i → t'.Blank i) : Pooled t' free where
  cells := by
    rw [hhead]
    exact h.cells.congr hnext
  blank i hi := hb i hi (h.blank i hi)

theorem Still.blank (hs : Still t t') {i : Nat} (h : t.Blank i) : t'.Blank i where
  head := by
    rw [hs.nodes]
    exact h.head
  off := by
    rw [hs.nodes]
    exact h.off
  dev := (congrArg (fun k => k.2.2) (hs.kind i)).trans h.dev

theorem Pooled.still (h : Pooled t free) (hs : Still t t') : Pooled t' free :=
  h.congr hs.dirMetaHead (fun i _ => by unfold Tree.next; rw [hs.nodes]) fun _ _ => hs.blank

theorem Pooled.take (h : Pooled t free) (ha : t.dirMetaAlloc = .ok (d, t')) :
    ∃ rest, d ∉ rest ∧ Pooled t' rest ∧ t'.Blank d := by
  unfold Tree.dirMetaAlloc at ha
  have hcells := h.cells
  cases hh : t.dirMetaHead with
  | none =>
    rw [hh] at ha
    cases ha
  | some x =>
    rw [hh] at ha hcells
    cases ha
    cases hcells with
    | @cons _ rest hrest =>
      have hnodup := h.cells.nodup
      have hb : ∀ i ∈ d :: rest, ({ t with dirMetaHead := (t.nodes d).nextBrother } : Tree).Blank i := fun i hi =>
        ⟨(h.blank i hi).head, (h.blank i hi).off, (h.blank i hi).dev⟩
      exact ⟨rest, (List.nodup_cons.mp hnodup).1, ⟨hrest, fun i hi => hb i (List.mem_cons_of_mem _ hi)⟩, hb d List.mem_cons_self⟩

theorem Pooled.give (h : Pooled t free) (hd : d ∉ free) (hb : t.Blank d) : Pooled (t.dirMetaFree d) (d :: free) := by
  have hne : ∀ i ∈ free, i ≠ d := fun i hi hid => hd (hid ▸ hi)
  refine ⟨h.cells.push (fun i hi => ?_) ?_, fun i hi => ?_⟩
  · simp [Tree.next, Tree.dirMetaFree, Tree.setNode, hne i hi]
  · simp [Tree.next, Tree.dirMetaFree, Tree.setNode]
  · have hnode : ((t.dirMetaFree d).nodes i).head = (t.nodes i).head ∧ ((t.dirMetaFree d).nodes i).off = (t.nodes i).off := by
      by_cases hid : i = d
      · simp [Tree.dirMetaFree, Tree.setNode, hid]
      · simp [Tree.dirMetaFree, Tree.setNode, hid]
    have hbi : t.Blank i := by
      rcases List.mem_cons.mp hi with rfl | hi
      · exact hb
      · exact h.blank i hi
    exact ⟨hnode.1.trans hbi.head, hnode.2.trans hbi.off, hbi.dev⟩

/-- `dirMetaNext` stores into its spare, but into none of these fields. -/
theorem blank_dirMetaNext {r : Next} (hr : t.dirMetaNext parent child off = .ok (r, t')) {i : Nat} (h : t.Blank i) : t'.Blank i := by
  unfold Tree.dirMetaNext at hr
  split at hr
  · cases hr
  · cases hnext : nextLoop (dirTurns (t.volume (t.fsOf parent)).superBlock) (t.volume (t.fsOf parent)) (t.dirMetas parent) off
      (List.replicate 260 0) 0 none with
    | error e =>
      rw [hnext] at hr
      cases hr
    | ok p =>
      obtain ⟨r₁, buf, fs, dm⟩ := p
      rw [hnext] at hr
      have h₁ : (t.setFile parent fs dm).Blank i := (still_setFile t parent fs (kind_nextLoop _ hnext)).blank h
      have h₂ : ((t.setFile parent fs dm).setNode child { (t.setFile parent fs dm).nodes child with
          filename := cstr (buf.take (FAT32_MAX_FILENAME + 1)) }).Blank i := by
        by_cases hi : i = child
        · subst hi
          exact ⟨by simpa [Tree.setNode] using h₁.head, by simpa [Tree.setNode] using h₁.off, h₁.dev⟩
        · exact ⟨by simpa [Tree.setNode, hi] using h₁.head, by simpa [Tree.setNode, hi] using h₁.off, h₁.dev⟩
      cases r₁ with
      | none =>
        cases hr
        exact h₂
      | empty count =>
        cases hr
        exact h₂
      | entry count e =>
        cases hr
        refine ⟨h₂.head, h₂.off, ?_⟩
        by_cases hi : i = child
        · subst hi
          have hdev := h₂.dev
          simp only [Tree.setMeta, update_self]
          exact hdev
        · simpa [Tree.setMeta, hi] using h₂.dev

theorem Pooled.adopt (h : Pooled t free) (hc : child ∉ free) (f parent off : Nat) : Pooled (t.adopt f parent child off) free := by
  have hnode : ∀ i ∈ free, ((t.adopt f parent child off).nodes i).nextBrother = (t.nodes i).nextBrother ∧
      ((t.adopt f parent child off).nodes i).head = (t.nodes i).head ∧
      ((t.adopt f parent child off).nodes i).off = (t.nodes i).off := fun i hi => by
    have hic : i ≠ child := fun hic => hc (hic ▸ hi)
    by_cases hip : i = parent
    · subst hip
      simp [Tree.adopt, Tree.setNode, hic]
    · simp [Tree.adopt, Tree.setNode, hic, hip]
  refine h.congr rfl (fun i hi => (hnode i hi).1) fun i hi hb => ?_
  exact ⟨(hnode i hi).2.1.trans hb.head, (hnode i hi).2.2.trans hb.off, hb.dev⟩

/-- **The loop of `loadDirMetas`** takes from the pool what it puts into the tree, and gives its last spare back as it was. -/
theorem pooled_loadLoop (n : Nat) (h : Pooled t free) (hc : child ∉ free) (hb : t.Blank child)
    (hr : loadLoop n t f parent child off = .ok t') : ∃ free', Pooled t' free' := by
  induction n generalizing t t' free parent child off with
  | zero => cases hr
  | succ n ih =>
    obtain ⟨r, t₁, hnext, hr⟩ := loadLoop_ok hr
    have hd := decoded_dirMetaNext hnext
    have h₁ : Pooled t₁ free := h.congr hd.dirMetaHead (fun i _ => (hd.pointer i).1) fun i _ => blank_dirMetaNext hnext
    rcases hr with rfl | ⟨count, t₃, spare, t₆, hsub, halloc, hr⟩
    · exact ⟨_, h₁.give hc (blank_dirMetaNext hnext hb)⟩
    · have h₃ : ∃ free₃, Pooled t₃ free₃ := by
        rcases hsub with ⟨-, t₄, first, t₅, hreloc, hfirst, hsub⟩ | rfl
        · have h₄ := (h₁.adopt hc f parent off).still (still_relocStart hreloc)
          obtain ⟨rest, hno, h₅, hfb⟩ := h₄.take hfirst
          exact ih h₅ hno hfb hsub
        · exact ⟨free, h₁.adopt hc f parent off⟩
      obtain ⟨free₃, h₃⟩ := h₃
      obtain ⟨rest, hno, h₆, hsb⟩ := h₃.take halloc
      exact ih h₆ hno hsb hr

theorem pooled_loadDirMetas (h : Pooled t free) (hr : t.loadDirMetas f parent = .ok t') : ∃ free', Pooled t' free' := by
  obtain ⟨t₁, hreloc, hr⟩ := Loop.bind_ok hr
  obtain ⟨⟨spare, t₂⟩, halloc, hr⟩ := Loop.bind_ok hr
  obtain ⟨rest, hno, h₂, hb⟩ := (h.still (still_relocStart hreloc)).take halloc
  exact pooled_loadLoop _ h₂ hno hb hr

/-- A new entry leaves the rest of the pool. -/
theorem Pooled.metaAlloc (h : Pooled t free) {name : List Byte} {attr : Nat} (hr : t.metaAlloc parent name attr = .ok (d, t')) :
    ∃ free', Pooled t' free' := by
  obtain ⟨-, ⟨-, rfl⟩ | ⟨t₁, fs, dm, -, ha, -, rfl⟩⟩ := metaAlloc_cases hr
  · exact ⟨free, h⟩
  · obtain ⟨rest, hno, h₁, -⟩ := h.take ha
    have hne : ∀ i ∈ rest, i ≠ d := fun i hi hid => hno (hid ▸ hi)
    have hnode : ∀ i ∈ rest, ((t₁.link d parent name).nodes i).nextBrother = (t₁.nodes i).nextBrother ∧
        ((t₁.link d parent name).nodes i).head = (t₁.nodes i).head ∧
        ((t₁.link d parent name).nodes i).off = (t₁.nodes i).off := fun i hi => by
      by_cases hip : i = parent
      · subst hip
        simp [Tree.link, Tree.setNode, hne i hi]
      · simp [Tree.link, Tree.setNode, hne i hi, hip]
    refine ⟨rest, h₁.congr rfl (fun i hi => (hnode i hi).1) fun i hi hb => ?_⟩
    refine ⟨(hnode i hi).2.1.trans hb.head, (hnode i hi).2.2.trans hb.off, ?_⟩
    show (update t₁.dirMetas d dm i).dev = _
    rw [update_of_ne (hne i hi)]
    exact hb.dev

theorem Pooled.metaCreate (h : Pooled t free) {c : Caller} {n : Nat} {fd : Int} {path : List Byte} {type : FileType} {mode : Nat}
    {r : Option Nat} (hr : metaCreate n t c fd path type mode = .ok (r, t')) : ∃ free', Pooled t' free' := by
  rcases metaCreate_cases hr with ⟨name, hdir, -⟩ | ⟨p, name, t₁, d, hdir, hal, -⟩
  · exact ⟨free, h.still (still_lookupPath hdir)⟩
  · exact (h.still (still_lookupPath hdir)).metaAlloc hal

/-! ## What goes back to the pool -/

/-- A removal leaves the offsets of the entries alone. -/
theorem off_metaRemove (hr : t.metaRemove d = .ok t') (x : Nat) : (t'.nodes x).off = (t.nodes x).off := by
  have hfree : ∀ t : Tree, ((t.dirMetaFree d).nodes x).off = (t.nodes x).off := fun t => by
    by_cases hx : x = d
    · simp [Tree.dirMetaFree, Tree.setNode, hx]
    · simp [Tree.dirMetaFree, Tree.setNode, hx]
  have hset : ∀ (i : Nat) (node : Node), node.off = (t.nodes i).off → ((t.setNode i node).nodes x).off = (t.nodes x).off :=
    fun i node hoff => by
      by_cases hx : x = i
      · simp [Tree.setNode, hx, hoff]
      · simp [Tree.setNode, hx]
  unfold Tree.metaRemove at hr
  cases hp : (t.nodes d).parent with
  | none =>
    rw [hp] at hr
    cases hr
  | some p =>
    rw [hp] at hr
    dsimp only at hr
    cases hf : (t.nodes p).firstChild with
    | none =>
      rw [hf] at hr
      cases hr
    | some i =>
      rw [hf] at hr
      dsimp only at hr
      split at hr
      · cases hr
        exact (hfree _).trans (hset p _ rfl)
      · cases hfind : Linked.find (fun d => (t.nodes d).nextBrother) (fun i => decide ((t.nodes i).nextBrother = some d))
            (DIRMETA_NUM + 1) (some i) with
        | none =>
          rw [hfind] at hr
          cases hr
        | some b =>
          rw [hfind] at hr
          cases b with
          | none =>
            cases hr
            exact hfree t
          | some b =>
            cases hr
            exact (hfree _).trans (hset b _ rfl)

/-- **A clean entry** goes back to the pool blank. -/
theorem Pooled.metaRemove (hp : Pooled t free) (h : Sound t free kids) (hd : t.InTree d) (hc : t.Clean d)
    (hr : t.metaRemove d = .ok t') : ∃ free', Pooled t' free' := by
  have hoff := off_metaRemove hr
  cases (h.shape.inTree_iff d).mp hd with
  | root hroot =>
    obtain ⟨f, hf, rfl⟩ := hroot
    unfold Tree.metaRemove at hr
    rw [h.mounted.parent f hf] at hr
    cases hr
  | @child p _ _ hi =>
    obtain ⟨t₁, ht₁, hre, hs⟩ := h.shape.unlinked hi ((h.shape.kids_nil_iff d).mpr hc.leaf)
    rw [hr] at ht₁
    cases ht₁
    have hre' := hre.trans (relinked_dirMetaFree t₁ d)
    have hb : ∀ i, t.Blank i → (t₁.dirMetaFree d).Blank i := fun i hi =>
      ⟨(hre'.node i).2.2.1.trans hi.head, (hoff i).trans hi.off, by rw [hre'.dirMetas]; exact hi.dev⟩
    refine ⟨d :: free, hs.dirMetaFree.freeCells, fun i hi => hb i ?_⟩
    rcases List.mem_cons.mp hi with rfl | hi
    · exact hc.toBlank
    · exact hp.blank i hi

theorem Clean.still (h : t.Clean d) (hs : Still t t') : t'.Clean d := by
  refine ⟨hs.blank h.toBlank, ?_⟩
  rw [hs.nodes]
  exact h.leaf

end Pool

/-! ## Histories -/

/-- The tree is in order, and so is the pool. -/
def Tidy (t : Tree) : Prop := (∃ free kids, Sound t free kids) ∧ ∃ free, Pooled t free

section Tidy

variable {t t' : Tree} {free : List Nat} {kids : Nat → List Nat} {c : Caller} {n d f : Nat}

theorem Tidy.cases (h : t.Tidy) : ∃ free kids, Sound t free kids ∧ Pooled t free := by
  obtain ⟨⟨free, kids, hs⟩, free', hp⟩ := h
  obtain rfl := hs.shape.freeCells.unique hp.cells
  exact ⟨free, kids, hs, hp⟩

theorem Tidy.still (h : t.Tidy) (hs : Still t t') : t'.Tidy := by
  obtain ⟨⟨free, kids, h⟩, free', hp⟩ := h
  exact ⟨⟨free, kids, h.still hs⟩, free', hp.still hs⟩

/-- A change of a file that leaves its kind and its device. -/
theorem Tidy.setMeta (h : t.Tidy) {dm : DirMeta} (hattr : dm.attr = (t.dirMetas d).attr) (hdev : dm.dev = (t.dirMetas d).dev) :
    (t.setMeta d dm).Tidy := by
  obtain ⟨⟨free, kids, h⟩, free', hp⟩ := h
  refine ⟨⟨free, kids, h.setMeta hattr⟩, free', hp.congr rfl (fun _ _ => rfl) fun i _ hb => ⟨hb.head, hb.off, ?_⟩⟩
  by_cases hi : i = d
  · subst hi
    simpa [Tree.setMeta, hdev] using hb.dev
  · simpa [Tree.setMeta, hi] using hb.dev

/-- What is in the tree may become a device. -/
theorem Tidy.setDev (h : t.Tidy) (hd : t.InTree d) (dev : Dev) : (t.setMeta d { t.dirMetas d with dev }).Tidy := by
  obtain ⟨free, kids, hs, hp⟩ := h.cases
  have hno : d ∉ free := fun hf => hs.not_free hd ((hs.shape.free_iff d).mpr hf)
  refine ⟨⟨free, kids, hs.setMeta rfl⟩, free, hp.congr rfl (fun _ _ => rfl) fun i hi hb => ⟨hb.head, hb.off, ?_⟩⟩
  have hid : i ≠ d := fun hid => hno (hid ▸ hi)
  simpa [Tree.setMeta, hid] using hb.dev

/-- Something may be mounted on what is in the tree. -/
theorem Tidy.setHead (h : t.Tidy) (hd : t.InTree d) (hf : (t.fileSystem f).valid = true) :
    (t.setNode d { t.nodes d with head := some f }).Tidy := by
  obtain ⟨free, kids, hs, hp⟩ := h.cases
  have hno : d ∉ free := fun hf => hs.not_free hd ((hs.shape.free_iff d).mpr hf)
  have hne : ∀ i ∈ free, i ≠ d := fun i hi hid => hno (hid ▸ hi)
  refine ⟨⟨free, kids, hs.setHead hf⟩, free, hp.congr rfl (fun i hi => ?_) fun i hi hb => ⟨?_, ?_, hb.dev⟩⟩
  · simp [Tree.next, Tree.setNode, hne i hi]
  · simpa [Tree.setNode, hne i hi] using hb.head
  · simpa [Tree.setNode, hne i hi] using hb.off

theorem Tidy.metaRemove (h : t.Tidy) (hd : t.InTree d) (hc : t.Clean d) (hr : t.metaRemove d = .ok t') : t'.Tidy := by
  obtain ⟨free, kids, hs, hp⟩ := h.cases
  exact ⟨(hs.metaRemove hd hc.leaf hr).sound, hp.metaRemove hs hd hc hr⟩

/-- A name that is new gets a fresh entry. -/
theorem Tidy.fresh (h : t.Tidy) {p attr : Nat} {name : List Byte} (hp : t.InTree p) (hnew : t.dirlookup p name = .ok none)
    (hr : t.metaAlloc p name attr = .ok (d, t')) : t'.Fresh d p name attr := by
  obtain ⟨free, kids, hs, hpool⟩ := h.cases
  rcases hs.metaAlloc hp hr with ⟨hlook, -⟩ | ⟨rest, -, -, -, hfree, -⟩
  · rw [hnew] at hlook
    cases hlook
  · have hd : d ∈ free := hfree ▸ List.mem_cons_self
    exact (fresh_iff hs hp hnew hr).mpr ⟨hpool.blank d hd, (hs.shape.kids_nil_iff d).mp (hs.shape.leaf d hd)⟩

/-- `metaCreate` finds an entry of the tree, or makes a clean one. -/
theorem Tidy.metaCreate (h : t.Tidy) {fd : Int} {path : List Byte} {type : FileType} {mode : Nat} {r : Option Nat}
    (hc : t.Stands c fd path) (hr : metaCreate n t c fd path type mode = .ok (r, t')) : t'.Tidy ∧ ∀ d, r = some d → t'.InTree d ∧
      ((∃ p name t₁, metaNameDir n t c fd path = .ok (some p, name, t₁) ∧ t₁.dirlookup p name = .ok (some d) ∧ Still t t') ∨
        t'.Clean d) := by
  obtain ⟨free, kids, hs, hp⟩ := h.cases
  obtain ⟨hl, hd⟩ := hs.metaCreate hc hr
  refine ⟨⟨hl.sound, hp.metaCreate hr⟩, fun d hrd => ⟨(hd d hrd).1, ?_⟩⟩
  subst hrd
  obtain ⟨p, name, t₁, hdir, hal⟩ := metaCreate_some hr
  obtain ⟨hst, hin⟩ := lookupPath_rooted hs.shape hs.mounted hc hdir
  have hp₁ : t₁.InTree p := (hst.inTree p).mpr (hin p rfl)
  rcases (hs.still hst).metaAlloc hp₁ hal with ⟨hlook, rfl⟩ | ⟨-, -, -, hlook, -⟩
  · exact .inl ⟨p, name, t', hdir, hlook, hst⟩
  · exact .inr ((h.still hst).fresh hp₁ hlook hal).toClean

/-! ### The boot -/

theorem Tidy.bootEntry (h : t.Tidy) (hc : c.cwd = none) {e : BootEntry} (hr : bootEntry n c t e = .ok t') : t'.Tidy := by
  obtain ⟨free, kids, hs, -⟩ := h.cases
  obtain ⟨path, type, r, t₁, hcreate, hrest⟩ := bootEntry_cases hr
  have hstands : t.Stands c AT_FDCWD path := hs.stands_cwd (fun d hd => by rw [hc] at hd; cases hd) path
  obtain ⟨h₁, hd⟩ := h.metaCreate hstands hcreate
  rcases hrest with rfl | ⟨d, rfl, ⟨dev, rfl⟩ | ⟨text, x, hw⟩⟩
  · exact h₁
  · exact h₁.setDev (hd d rfl).1 dev
  · exact h₁.still (still_metaWrite hw)

theorem Tidy.bootEntries (es : List BootEntry) (h : t.Tidy) (hc : c.cwd = none) (hr : es.foldlM (Tree.bootEntry n c) t = .ok t') :
    t'.Tidy :=
  Loop.foldlM_inv hr h fun _ _ _ h he => h.bootEntry hc he

theorem pooled_rootSet (fs : FileSystem) : Pooled (rootSet fs) (List.range DIRMETA_NUM).reverse := by
  refine ⟨(shape_rootSet fs).freeCells, fun i hi => ?_⟩
  have hlt : i < DIRMETA_NUM := List.mem_range.mp (List.mem_reverse.mp hi)
  have hne : i ≠ rootOf 0 := fun hi0 => by
    unfold rootOf at hi0
    omega
  refine ⟨rootSet_head fs i, ?_, ?_⟩
  · rw [rootSet_node fs hne]
    simp only [pooled, if_pos hlt]
    rfl
  · show (update pooled.dirMetas (rootOf 0) _ i).dev = _
    rw [update_of_ne hne]
    rfl

/-- **Boot** leaves the pool in order. -/
theorem tidy_initRootFileSystem {script : List Byte} {d : Disk} (hc : c.cwd = none)
    (h : initRootFileSystem n c script d = .ok t) : t.Tidy := by
  obtain ⟨t₀, hroot, h⟩ := Loop.bind_ok h
  obtain ⟨t₁, hfirst, h⟩ := Loop.bind_ok h
  obtain ⟨t₂, hvda2, hrest⟩ := Loop.bind_ok h
  obtain ⟨free₀, kids₀, hs₀, hm₀⟩ := shape_bootRoot hroot
  obtain ⟨fs, -, hload⟩ := bootRoot_cases hroot
  have h₁ := Tidy.bootEntries _ ⟨⟨free₀, kids₀, hs₀, hm₀⟩, pooled_loadDirMetas (pooled_rootSet fs) hload⟩ hc hfirst
  obtain ⟨free₁, kids₁, hs₁, -⟩ := h₁.cases
  obtain ⟨v, t₃, hcreate, rfl⟩ := bootVda2_cases hvda2
  have hstands : t₁.Stands c AT_FDCWD (bytes "/dev/vda2") := hs₁.stands_cwd (fun d hd => by rw [hc] at hd; cases hd) _
  obtain ⟨h₃, hd⟩ := h₁.metaCreate hstands hcreate
  obtain ⟨free₃, kids₃, hs₃, -⟩ := h₃.cases
  exact Tidy.bootEntries _ (h₃.setHead (hd v rfl).1 hs₃.mounted.root) hc hrest

/-! ### A new volume -/

/-- The root `fatInit` sets up in an element that was not in use. -/
structure NewRoot (t : Tree) (f : Nat) (t' : Tree) : Prop where
  node : t'.nodes (rootOf f) = { zeroNode with filename := [slash], fileSystem := f }
  isDir : t'.isDir (rootOf f) = true
  valid : (t'.fileSystem f).valid = true
  slot : ∀ g, g ≠ f → t'.fileSystem g = t.fileSystem g
  nodes : ∀ x, x ≠ rootOf f → t'.nodes x = t.nodes x
  dirMetas : ∀ x, x ≠ rootOf f → t'.dirMetas x = t.dirMetas x
  dirMetaHead : t'.dirMetaHead = t.dirMetaHead
  rootFileSystem : t'.rootFileSystem = t.rootFileSystem

/-- `fatInit` takes a file system that is free, and loads its root. -/
theorem fatInit_newRoot {t₂ : Tree} {disk : Disk} (ha : t.fsAlloc = some (f, t₂)) (h : t₂.fatInit f disk = .ok t') :
    (t.fileSystem f).valid = false ∧ ∃ t₃, NewRoot t f t₃ ∧ t₃.loadDirMetas f (rootOf f) = .ok t' := by
  have hspec := fsAlloc_spec ha
  obtain ⟨hvalid, hslots, hnodes, hroot⟩ := hspec
  have hrest : t₂.dirMetas = update t.dirMetas (rootOf f) zeroMeta ∧ t₂.dirMetaHead = t.dirMetaHead := by
    unfold Tree.fsAlloc at ha
    cases hfind : (List.range FILE_SYSTEMS).find? fun i => !(t.fileSystem i).valid with
    | none =>
      rw [hfind] at ha
      cases ha
    | some i =>
      rw [hfind] at ha
      cases ha
      exact ⟨rfl, rfl⟩
  obtain ⟨hmetas, hhead⟩ := hrest
  unfold Tree.fatInit at h
  cases hfat : Fat.fatInit disk t₂.inodes t₂.inodeBitmap with
  | error e =>
    rw [hfat] at h
    cases h
  | ok fs =>
    rw [hfat] at h
    refine ⟨hvalid, ((t₂.setVolume f fs).setNode (rootOf f) { zeroNode with filename := [slash], fileSystem := f }).setMeta
      (rootOf f) (rootMeta fs.superBlock.rootClus), ⟨?_, ?_, ?_, fun g hg => ?_, fun x hx => ?_, fun x hx => ?_, hhead, hroot⟩, h⟩
    · exact update_self ..
    · have hself : ∀ (t : Tree) (dm : DirMeta), (t.setMeta (rootOf f) dm).isDir (rootOf f) =
          decide (dm.attr &&& ATTR_DIRECTORY ≠ 0) := fun t dm => by simp [Tree.isDir, Tree.setMeta]
      have hattr : (ATTR_DIRECTORY ||| ATTR_SYSTEM) &&& ATTR_DIRECTORY ≠ 0 := by decide
      rw [hself]
      exact decide_eq_true hattr
    · simp [Tree.setMeta, Tree.setNode, Tree.setVolume, hslots]
    · simp [Tree.setMeta, Tree.setNode, Tree.setVolume, hslots, hg]
    · simp [Tree.setMeta, Tree.setNode, Tree.setVolume, hnodes, hx]
    · simp [Tree.setMeta, Tree.setNode, Tree.setVolume, hmetas, hx]

/-- The tree stays sound with one root more. -/
theorem Sound.newRoot (h : Sound t free kids) (hf : (t.fileSystem f).valid = false) (hn : NewRoot t f t') : Sound t' free kids := by
  have hlt : ∀ x < DIRMETA_NUM, x ≠ rootOf f := fun x hx hxf => by
    unfold rootOf at hxf
    omega
  have hinj : ∀ {g}, rootOf g = rootOf f → g = f := fun hg => Nat.add_left_cancel hg
  have hlive : ∀ x, t.LiveRoot x → x ≠ rootOf f ∧ t'.LiveRoot x := by
    rintro x ⟨g, hg, rfl⟩
    have hgf : g ≠ f := fun hgf => by
      rw [hgf, hf] at hg
      cases hg
    refine ⟨fun hx => hgf (hinj hx), g, ?_, rfl⟩
    rw [hn.slot g hgf]
    exact hg
  -- an element that is not in use lists nothing
  have hnil : kids (rootOf f) = [] := by
    by_contra hne
    cases h.shape.rooted _ hne with
    | root hr => exact (hlive _ hr).1 rfl
    | child _ hi => exact hlt _ (h.shape.kids_lt _ _ hi) rfl
  have hne : ∀ d, kids d ≠ [] → d ≠ rootOf f := fun d hd hdf => hd (hdf ▸ hnil)
  have hnext : ∀ x < DIRMETA_NUM, t'.next x = t.next x := fun x hx => by
    unfold Tree.next
    rw [hn.nodes x (hlt x hx)]
  have hs := h.shape
  refine ⟨⟨?_, fun d => ?_, hs.placed, hs.free_lt, hs.kids_lt, hs.spare, fun d i hi => ?_, hs.apart, hs.leaf, fun d hd => ?_,
    fun d hd => (hs.rooted d hd).mono (fun y hy => (hlive y hy).2) fun _ _ hi => hi⟩, ?_, fun d g hg => ?_, fun g hg => ?_, fun g hg => ?_⟩
  · rw [hn.dirMetaHead]
    exact hs.freeCells.congr fun i hi => hnext i (hs.free_lt i hi)
  · by_cases hd : d = rootOf f
    · rw [hd, hn.node, hnil]
      exact .nil
    · rw [hn.nodes d hd]
      exact (hs.kidCells d).congr fun i hi => hnext i (hs.kids_lt d i hi)
  · rw [hn.nodes i (hlt i (hs.kids_lt d i hi))]
    exact hs.parent d i hi
  · have hdir := hs.dirs d hd
    unfold Tree.isDir at hdir ⊢
    rw [hn.dirMetas d (hne d hd)]
    exact hdir
  · have hroot := h.mounted.root
    have hrf : t.rootFileSystem ≠ f := fun hrf => by
      rw [hrf, hf] at hroot
      cases hroot
    rw [hn.rootFileSystem, hn.slot _ hrf]
    exact hroot
  · by_cases hd : d = rootOf f
    · rw [hd, hn.node] at hg
      cases hg
    · rw [hn.nodes d hd] at hg
      by_cases hgf : g = f
      · rw [hgf]
        exact hn.valid
      · rw [hn.slot g hgf]
        exact h.mounted.head d g hg
  · by_cases hgf : g = f
    · rw [hgf, hn.node]
      rfl
    · rw [hn.slot g hgf] at hg
      rw [hn.nodes _ fun hx => hgf (hinj hx)]
      exact h.mounted.parent g hg
  · by_cases hgf : g = f
    · unfold fsOf
      rw [hgf, hn.node]
    · rw [hn.slot g hgf] at hg
      unfold fsOf
      rw [hn.nodes _ fun hx => hgf (hinj hx)]
      exact h.mounted.self g hg

theorem Pooled.newRoot (hp : Pooled t free) (h : Sound t free kids) (hn : NewRoot t f t') : Pooled t' free := by
  have hne : ∀ i ∈ free, i ≠ rootOf f := fun i hi hif => by
    have := h.shape.free_lt i hi
    unfold rootOf at hif
    omega
  refine hp.congr hn.dirMetaHead (fun i hi => ?_) fun i hi hb => ⟨?_, ?_, ?_⟩
  · unfold Tree.next
    rw [hn.nodes i (hne i hi)]
  · rw [hn.nodes i (hne i hi)]
    exact hb.head
  · rw [hn.nodes i (hne i hi)]
    exact hb.off
  · rw [hn.dirMetas i (hne i hi)]
    exact hb.dev

/-- The list of file systems that `f` is in. -/
theorem Tidy.setNext (h : t.Tidy) (f : Nat) (next : Option Nat) :
    ({ t with fileSystem := update t.fileSystem f { t.fileSystem f with next } } : Tree).Tidy := by
  obtain ⟨⟨free, kids, h⟩, free', hp⟩ := h
  have hvalid : ∀ g, (update t.fileSystem f { t.fileSystem f with next } g).valid = (t.fileSystem g).valid := fun g => by
    by_cases hg : g = f
    · simp [hg]
    · simp [hg]
  refine ⟨⟨free, kids, h.shape.congr (fun _ => ⟨rfl, rfl, rfl⟩) rfl (fun d hd => ?_) fun _ _ => rfl, ?_, fun d g hg => ?_,
    fun g hg => ?_, fun g hg => ?_⟩, free', hp.congr rfl (fun _ _ => rfl) fun _ _ hb => ⟨hb.head, hb.off, hb.dev⟩⟩
  · obtain ⟨g, hg, rfl⟩ := hd
    exact ⟨g, (hvalid g).trans hg, rfl⟩
  · exact (hvalid _).trans h.mounted.root
  · exact (hvalid g).trans (h.mounted.head d g hg)
  · exact h.mounted.parent g ((hvalid g).symm.trans hg)
  · exact h.mounted.self g ((hvalid g).symm.trans hg)

/-- **Mounting a volume** takes nodes from the pool and gives one back as it was. -/
theorem Tidy.mount (h : t.Tidy) {a : MountArgs} {r : Option (Nat × Nat)} (hc : ∀ d, c.cwd = some d → t.InTree d)
    (hr : t.syscallMount n c a = .ok (r, t')) : t'.Tidy := by
  rcases syscallMount_cases hr with ⟨-, hs⟩ | ⟨m, f, t₀, t₁, t₂, t₃, -, hs, hpoint, halloc, hfat, rfl⟩
  · exact h.still hs
  · have h₁ := (h.still hs).still (still_fetchName hpoint)
    obtain ⟨free, kids, hs₁, hp₁⟩ := h₁.cases
    have hm : t₁.InTree m := by
      obtain ⟨free₀, kids₀, hs₀, -⟩ := (h.still hs).cases
      cases hpath : a.point with
      | none =>
        rw [hpath] at hpoint
        cases hpoint
      | some path =>
        rw [hpath] at hpoint
        have hname : metaName n t₀ c AT_FDCWD path true = .ok (some m, t₁) := hpoint
        have hstands : t₀.Stands c AT_FDCWD path := hs₀.stands_cwd (fun d hd => (hs.inTree d).mpr (hc d hd)) path
        obtain ⟨hst, hin⟩ := metaName_rooted hs₀.shape hs₀.mounted hstands hname
        exact (hst.inTree m).mpr (hin m rfl)
    obtain ⟨hno, t₄, hnew, hload⟩ := fatInit_newRoot halloc hfat
    have hs₄ := hs₁.newRoot hno hnew
    obtain ⟨free', kids', hs', hm', hg⟩ := shape_loadDirMetas hs₄.shape hs₄.mounted (.root ⟨f, hnew.valid, rfl⟩) hnew.isDir hload
    have h₃ : t₃.Tidy := ⟨⟨free', kids', hs', hm'⟩, pooled_loadDirMetas (hp₁.newRoot hs₁ hnew) hload⟩
    have hm₄ : Rooted t₄.LiveRoot kids m := by
      refine ((hs₁.shape.inTree_iff m).mp hm).mono (fun x hx => ?_) fun _ _ hi => hi
      obtain ⟨g, hg, rfl⟩ := hx
      refine ⟨g, ?_, rfl⟩
      by_cases hgf : g = f
      · rw [hgf]
        exact hnew.valid
      · rw [hnew.slot g hgf]
        exact hg
    have hvalid : (t₃.fileSystem f).valid = true := ((held_loadDirMetas hload).slot f).1.trans hnew.valid
    exact (h₃.setHead ((hs'.inTree_iff m).mpr (hg.rooted m hm₄)) hvalid).setNext f (t₃.nodes m).head

/-! ### Steps -/

/-- Paths start in the tree, and what goes back to the pool is clean: what `unlinkat` removes, and what a `linkat` that
fails finds at its new path. -/
def Keeps (n : Nat) (t : Tree) : Change → Prop
  | .edit (.create c fd path _ _) => t.Stands c fd path
  | .edit (.linkat c oldDirFd oldPath newDirFd newPath) => t.Stands c oldDirFd oldPath ∧ t.Stands c newDirFd newPath ∧
      ∀ d t', t.Existing n c oldDirFd oldPath newDirFd newPath d →
        do_linkat n t c oldDirFd oldPath newDirFd newPath = .ok (-1, t') → t.Clean d
  | .edit (.unlinkat c fd path) => t.Stands c fd path ∧ ∀ d t', metaName n t c fd path true = .ok (some d, t') → t.Clean d
  | .write _ _ _ _ => True
  | .mount c _ => ∀ d, c.cwd = some d → t.InTree d

/-- **One step** leaves the pool clean. -/
theorem Tidy.change (h : t.Tidy) {ch : Change} (hk : t.Keeps n ch) (hr : t.change n ch = .ok t') : t'.Tidy := by
  obtain ⟨free, kids, hs, -⟩ := h.cases
  cases ch with
  | write d src off m =>
    obtain ⟨⟨r, t₁⟩, hw, rfl⟩ := Loop.map_ok hr
    exact h.still (still_metaWrite hw)
  | mount c a =>
    obtain ⟨⟨r, t₁⟩, hm, rfl⟩ := Loop.map_ok hr
    exact h.mount hk hm
  | edit op =>
    cases op with
    | create c fd path type mode =>
      obtain ⟨⟨r, t₁⟩, hc, rfl⟩ := Loop.map_ok hr
      exact (h.metaCreate hk hc).1
    | linkat c oldDirFd oldPath newDirFd newPath =>
      obtain ⟨⟨r, t₁⟩, hdo, rfl⟩ := Loop.map_ok hr
      obtain ⟨ho, hn, hclean⟩ := hk
      rcases do_linkat_cases hdo with ⟨-, hmiss⟩ | ⟨e, t₂, target, t₃, hold, hcreate, hlink⟩
      · exact h.still hmiss.still
      · have hst := (metaName_rooted hs.shape hs.mounted ho hold).1
        obtain ⟨h₃, htarget⟩ := (h.still hst).metaCreate (hn.still hst) hcreate
        obtain ⟨hin, hfound⟩ := htarget target rfl
        obtain ⟨t₄, hst₄, hcase⟩ := hlink.cases
        have h₄ := h₃.still hst₄
        rcases hcase with ⟨rfl, hrem⟩ | ⟨-, rfl⟩
        · -- what is removed was there and clean, or has just come from the pool
          refine h₄.metaRemove ((hst₄.inTree target).mpr hin) (.still ?_ hst₄) hrem
          rcases hfound with ⟨p, name, t₅, hdir, hlook, hst₅⟩ | hfresh
          · have hc : t.Clean target := hclean target t₁ ⟨e, t₂, p, name, t₅, hold, hdir, hlook⟩ hdo
            exact (hc.still hst).still hst₅
          · exact hfresh
        · exact h₄.setMeta rfl rfl
    | unlinkat c fd path =>
      obtain ⟨⟨r, t₁⟩, hdo, rfl⟩ := Loop.map_ok hr
      rcases do_unlinkat_cases hdo with ⟨-, hname⟩ | ⟨d, t₂, t₃, -, hname, htrunc, hrem⟩
      · exact h.still (still_metaName hname)
      · obtain ⟨hst, hin⟩ := metaName_rooted hs.shape hs.mounted hk.1 hname
        have hst₃ := hst.trans (still_metaTrunc htrunc)
        have h₄ : (t₃.setMeta d { t₃.dirMetas d with reserve := 0 }).Tidy := (h.still hst₃).setMeta rfl rfl
        have hc : t₃.Clean d := (hk.2 d t₂ hname).still hst₃
        have hc₄ : (t₃.setMeta d { t₃.dirMetas d with reserve := 0 }).Clean d :=
          ⟨⟨hc.head, hc.off, by simpa [Tree.setMeta] using hc.dev⟩, hc.leaf⟩
        have hl : Leaves t₃ (t₃.setMeta d { t₃.dirMetas d with reserve := 0 }) fun _ => False := (hs.still hst₃).leaves_setMeta rfl
        exact h₄.metaRemove (hl.inTree d ((hst₃.inTree d).mpr (hin d rfl)) id) hc₄ hrem

/-- The states that steps of `P` reach after the boot, by a process without a working directory. -/
def Past (P : Nat → Tree → Change → Prop) : Tree → Prop :=
  Run.Reach (fun t => ∃ n c script d, c.cwd = none ∧ initRootFileSystem n c script d = .ok t)
    fun t t' => ∃ n ch, P n t ch ∧ t.change n ch = .ok t'

theorem Past.tidy (h : Past Keeps t) : t.Tidy :=
  h.invariant (fun _ ⟨_, _, _, _, hc, hb⟩ => tidy_initRootFileSystem hc hb) fun _ _ hi ⟨_, _, hk, hr⟩ => hi.change hk hr

end Tidy

/-- `path` names no entry: its last element is `name`, which directory `p` does not have. -/
def Names (n : Nat) (t : Tree) (c : Caller) (fd : Int) (path : List Byte) (p : Nat) (name : List Byte) : Prop :=
  ∃ t₁, metaNameDir n t c fd path = .ok (some p, name, t₁) ∧ t₁.dirlookup p name = .ok none

/-- **A newly created file is fresh** after every history in which all that goes back to the pool is clean. -/
theorem fresh_of_past (t t' : Tree) (h : Past Keeps t) (n : Nat) (c : Caller) (fd : Int) (path : List Byte) (type : FileType)
    (mode d p : Nat) (name : List Byte) (hc : t.Stands c fd path) (hp : t.Names n c fd path p name)
    (hr : metaCreate n t c fd path type mode = .ok (some d, t')) : t'.Fresh d p name (createAttr type mode) := by
  obtain ⟨t₁, hdir, hnew⟩ := hp
  obtain ⟨p', name', t₁', hdir', hal⟩ := metaCreate_some hr
  rw [hdir] at hdir'
  cases hdir'
  obtain ⟨free, kids, hs, -⟩ := h.tidy.cases
  obtain ⟨hst, hin⟩ := lookupPath_rooted hs.shape hs.mounted hc hdir
  exact (h.tidy.still hst).fresh ((hst.inTree p).mpr (hin p rfl)) hnew hal

/-! ## Two histories -/

theorem stands_absolute {t : Tree} (hroot : (t.fileSystem t.rootFileSystem).valid = true) {path : List Byte}
    (hpath : path.head? = some slash) : t.Stands atBoot AT_FDCWD path := by
  refine ⟨fun d hd => (by cases hd), fun d hd => ?_⟩
  unfold Tree.startDir at hd
  rw [if_neg fun hne => hne.1 hpath, if_pos hpath] at hd
  cases hd
  exact .root ⟨_, hroot, rfl⟩

/-- Where the last element of a path is looked up, and what is found. -/
def lastElement (t : Tree) (path : List Byte) : Option (Option Nat × List Byte × Option (Option (Option Nat))) :=
  (metaNameDir 1 t atBoot AT_FDCWD path).toOption.map fun q => (q.1, q.2.1, q.1.map fun p => (q.2.2.dirlookup p q.2.1).toOption)

theorem names_of_lastElement {t : Tree} {path name : List Byte} {p : Nat}
    (h : t.lastElement path = some (some p, name, some (some none))) : t.Names 1 atBoot AT_FDCWD path p name := by
  obtain ⟨⟨r, name', t₁⟩, hdir, heq⟩ := Loop.exists_of_toOption h
  simp only [Prod.mk.injEq] at heq
  obtain ⟨rfl, rfl, hlook⟩ := heq
  exact ⟨t₁, hdir, Loop.ok_of_toOption (Option.some.inj hlook)⟩

def fileX : List Byte := bytes "/x"

/-- `/dev/null` removed and `/x` created: the tree in between, and what `metaCreate` returns. -/
def nullRemoved : Except Halt (Tree × Option Nat × Tree) := do
  let t₀ ← booted
  let t₁ ← t₀.change 1 (.edit (.unlinkat atBoot AT_FDCWD (bytes "/dev/null")))
  let r ← metaCreate 1 t₁ atBoot AT_FDCWD fileX .file 0
  return (t₁, r)

theorem nullRemoved_dev : (nullRemoved.toOption.map fun r => decide ((r.1.fileSystem r.1.rootFileSystem).valid = true ∧
    r.1.lastElement fileX = some (some (rootOf 0), [0x78], some (some none)) ∧ r.2.1 = some 8188 ∧
      (r.2.2.dirMetas 8188).dev = .none)) = some true := by
  decide +kernel

/-- The file made in place of the device drops what is written to it. -/
theorem not_fresh_nullRemoved : ¬ ∀ (t t' : Tree), Past (fun _ _ _ => True) t → ∀ (n : Nat) (c : Caller) (fd : Int)
    (path : List Byte) (type : FileType) (mode d p : Nat) (name : List Byte), t.Stands c fd path → t.Names n c fd path p name →
      metaCreate n t c fd path type mode = .ok (some d, t') → t'.Fresh d p name (createAttr type mode) := by
  intro h
  obtain ⟨⟨t₁, r, t₂⟩, hrun, hfacts⟩ := Loop.exists_of_toOption nullRemoved_dev
  obtain ⟨t₀, h₀, hrun⟩ := Loop.bind_ok hrun
  obtain ⟨t₁', hunlink, hrun⟩ := Loop.bind_ok hrun
  obtain ⟨⟨r', t₂'⟩, hcreate, hrun⟩ := Loop.bind_ok hrun
  cases hrun
  obtain ⟨hroot, hlast, rfl, hdev⟩ := of_decide_eq_true hfacts
  have hpast : Past (fun _ _ _ => True) t₁ :=
    .step (.init ⟨1, atBoot, [], smallDisk 40, rfl, initRootFileSystem_small.trans h₀⟩) ⟨1, _, trivial, hunlink⟩
  have hf := h t₁ t₂ hpast 1 atBoot AT_FDCWD fileX .file 0 8188 (rootOf 0) [0x78] (stands_absolute hroot rfl)
    (names_of_lastElement hlast) hcreate
  rw [hf.dev] at hdev
  cases hdev

def fileTmpX : List Byte := bytes "/tmp/x"
def fileTmpY : List Byte := bytes "/tmp/y"

def mountTmp : Change :=
  .mount atBoot ⟨some (bytes "vfat"), some (bytes "/auto.sh"), some (bytes "/tmp"), none, 0, true, smallDisk 4⟩

/-- A volume mounted on `/tmp`, and a file on it created, written and removed, with the states in between. -/
def tmpReused : Except Halt (Tree × Tree × Tree × Tree × Option Nat × Tree) := do
  let t₀ ← booted
  let t₁ ← t₀.change 1 mountTmp
  let t₂ ← t₁.change 1 (.edit (.create atBoot AT_FDCWD fileTmpX .file 0))
  let t₃ ← t₂.change 1 (.write 8167 (bytes "text") 0 4)
  let t₄ ← t₃.change 1 (.edit (.unlinkat atBoot AT_FDCWD fileTmpX))
  let r ← metaCreate 1 t₄ atBoot AT_FDCWD fileTmpY .file 0
  return (t₁, t₂, t₃, t₄, r)

/-- Whether what a path names is clean. -/
def cleanAt (t : Tree) (path : List Byte) : Option (Option Bool) :=
  (metaName 1 t atBoot AT_FDCWD path true).toOption.map fun q => q.1.map fun d => decide (t.Clean d)

theorem tmpReused_clean : (tmpReused.toOption.map fun r => decide ((r.1.fileSystem r.1.rootFileSystem).valid = true ∧
    (r.2.2.1.fileSystem r.2.2.1.rootFileSystem).valid = true ∧ (r.2.2.2.1.fileSystem r.2.2.2.1.rootFileSystem).valid = true ∧
    r.2.2.1.cleanAt fileTmpX = some (some true) ∧
    r.2.2.2.1.lastElement fileTmpY = some (some (rootOf 1), [0x79], some (some none)) ∧ r.2.2.2.2.1 = some 8167)) = some true := by
  decide +kernel

/-- The file of a mounted volume is removed, and its entry handed out again. -/
theorem fresh_tmpReused : ∃ t t', Past Keeps t ∧ metaCreate 1 t atBoot AT_FDCWD fileTmpY .file 0 = .ok (some 8167, t') ∧
    t'.Fresh 8167 (rootOf 1) [0x79] (createAttr .file 0) := by
  obtain ⟨⟨t₁, t₂, t₃, t₄, r, t₅⟩, hrun, hfacts⟩ := Loop.exists_of_toOption tmpReused_clean
  obtain ⟨t₀, h₀, hrun⟩ := Loop.bind_ok hrun
  obtain ⟨t₁', hmount, hrun⟩ := Loop.bind_ok hrun
  obtain ⟨t₂', hcreate, hrun⟩ := Loop.bind_ok hrun
  obtain ⟨t₃', hwrite, hrun⟩ := Loop.bind_ok hrun
  obtain ⟨t₄', hunlink, hrun⟩ := Loop.bind_ok hrun
  obtain ⟨⟨r', t₅'⟩, hnew, hrun⟩ := Loop.bind_ok hrun
  cases hrun
  obtain ⟨hroot₁, hroot₃, hroot₄, hclean, hlast, rfl⟩ := of_decide_eq_true hfacts
  have hclean₃ : ∀ d t, metaName 1 t₃ atBoot AT_FDCWD fileTmpX true = .ok (some d, t) → t₃.Clean d := by
    intro d t hname
    unfold cleanAt at hclean
    rw [hname] at hclean
    exact of_decide_eq_true (Option.some.inj (Option.some.inj hclean))
  have hp₀ : Past Keeps t₀ := .init ⟨1, atBoot, [], smallDisk 40, rfl, initRootFileSystem_small.trans h₀⟩
  have hk₁ : t₀.Keeps 1 mountTmp := fun d hd => by cases hd
  have hk₂ : t₁.Keeps 1 (.edit (.create atBoot AT_FDCWD fileTmpX .file 0)) := stands_absolute hroot₁ rfl
  have hk₄ : t₃.Keeps 1 (.edit (.unlinkat atBoot AT_FDCWD fileTmpX)) := ⟨stands_absolute hroot₃ rfl, hclean₃⟩
  have hp₂ : Past Keeps t₂ := (hp₀.step ⟨1, _, hk₁, hmount⟩).step ⟨1, _, hk₂, hcreate⟩
  have hp₃ : Past Keeps t₃ := hp₂.step ⟨1, .write 8167 (bytes "text") 0 4, trivial, hwrite⟩
  have hp₄ : Past Keeps t₄ := hp₃.step ⟨1, _, hk₄, hunlink⟩
  exact ⟨t₄, t₅, hp₄, hnew, fresh_of_past t₄ t₅ hp₄ 1 atBoot AT_FDCWD fileTmpY .file 0 8167 (rootOf 1) [0x79]
    (stands_absolute hroot₄ rfl) (names_of_lastElement hlast) hnew⟩

end Tree

end Exaros.Dir
