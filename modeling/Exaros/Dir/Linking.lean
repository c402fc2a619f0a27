import Exaros.Dir.Absolute
import Exaros.Dir.Alongside
import Exaros.Dir.Fresh
import Mathlib.Data.List.Find

/-!
# Linking

`do_linkat` makes an entry at the new path and writes the absolute path of the old one into it. `metaCreate` hands back
the entry that is there if the new path names one, and from then on `do_linkat` takes it for its own: it writes the path
over what the entry holds, or removes it. Of a new entry the rest holds if its `DirMeta` is as at boot, and it leads to
the old entry if the path that a reader takes from it does.
-/

namespace Exaros.Dir

open Fat Linked
open Function (update update_self update_of_ne)

/-- The volume has kept the clusters in use, and what they hold. -/
structure KeptClusters (fs fs' : FileSystem) : Prop where
  superBlock : fs'.superBlock = fs.superBlock
  clusters : ∀ c, fs.superBlock.InRange c → Bitmap.get fs.clusterBitmap c = true → SameCluster fs fs' c

section Volume

variable {fs fs' fs'' : FileSystem} {dm dm' : DirMeta} {attr : Nat} {L : List Nat} {buf : List Byte} {k : Int}

theorem KeptClusters.of_disk (hsb : fs'.superBlock = fs.superBlock) (hdisk : fs'.disk = fs.disk)
    (hbits : fs'.clusterBitmap = fs.clusterBitmap) : KeptClusters fs fs' := by
  refine ⟨hsb, fun c _ hused => ⟨?_, ?_, fun i _ => ?_⟩⟩
  · rw [hbits]
    exact hused
  · unfold fatEntry
    rw [hsb, hdisk]
  · rw [hdisk]

theorem KeptClusters.trans (h : KeptClusters fs fs') (h' : KeptClusters fs' fs'') : KeptClusters fs fs'' := by
  refine ⟨h'.superBlock.trans h.superBlock, fun c hc hused => ?_⟩
  obtain ⟨hused', hentry, hbytes⟩ := h.clusters c hc hused
  obtain ⟨hused'', hentry', hbytes'⟩ := h'.clusters c (by rw [h.superBlock]; exact hc) hused'
  rw [h.superBlock] at hbytes'
  exact ⟨hused'', hentry'.trans hentry, fun i hi => (hbytes' i hi).trans (hbytes i hi)⟩

/-- So its chains are kept, and their bytes. -/
theorem KeptClusters.chain (h : KeptClusters fs fs') (hok : fs.superBlock.Ok) (hb : BitmapOk fs) (hL : IsChain fs L) :
    IsChain fs' L ∧ ∀ j < L.length * fs.superBlock.bytsPerClus, chainByte fs' L j = chainByte fs L j := by
  refine ⟨hL.congr h.superBlock fun c hc => (h.clusters c (hL.inRange c hc) (hL.used hb hc)).2.1, fun j hj => ?_⟩
  have hpos := hok.bpc_pos
  have hidx : j / fs.superBlock.bytsPerClus < L.length := (Nat.div_lt_iff_lt_mul hpos).mpr hj
  have hmem : L.getD (j / fs.superBlock.bytsPerClus) 0 ∈ L := by
    rw [List.getD_eq_getElem _ _ hidx]
    exact List.getElem_mem hidx
  unfold chainByte
  rw [h.superBlock]
  exact (h.clusters _ (hL.inRange _ hmem) (hL.used hb hmem)).2.2 _ (Nat.mod_lt _ hpos)

theorem foldlM_inodeFree_frame {xs : List Nat} (h : xs.foldlM inodeFree fs = .ok fs') : ∃ bm, fs' = { fs with inodeBitmap := bm } := by
  induction xs generalizing fs with
  | nil =>
    cases h
    exact ⟨_, rfl⟩
  | cons x xs ih =>
    rw [List.foldlM_cons] at h
    obtain ⟨fs₁, hfree, h⟩ := Loop.bind_ok h
    unfold inodeFree at hfree
    split at hfree
    · cases hfree
      obtain ⟨bm, rfl⟩ := ih h
      exact ⟨bm, rfl⟩
    · cases hfree

/-- A new file takes nothing of the volume. -/
theorem metaAlloc_frame (hattr : attr ≠ ATTR_DIRECTORY) (h : Fat.metaAlloc fs dm attr = .ok (fs', dm')) :
    ∃ bm, fs' = { fs with inodeBitmap := bm } := by
  obtain ⟨⟨fs₁, dm₁⟩, hfree, h⟩ := Loop.bind_ok h
  obtain ⟨fs₂, hfold, hfree⟩ := Loop.bind_ok hfree
  cases hfree
  dsimp only at h
  rw [if_neg hattr] at h
  cases h
  exact foldlM_inodeFree_frame hfold

/-- A path written to a new file takes one cluster, and is read from it. -/
theorem metaWrite_path (hok : fs.superBlock.Ok) (hb : BitmapOk fs) (hmade : Made dm 0) (hdev : dm.dev = .regular)
    (hroom : 0 < freeClusters fs) (hlen : buf.length + 1 ≤ 512)
    (hw : Fat.metaWrite fs dm (fun i => (buf ++ [0]).getD i 0) 0 (buf.length + 1) = .ok (k, fs', dm')) :
    k = buf.length + 1 ∧ KeptClusters fs fs' ∧ ∀ res, ∃ r dm'', Moved { dm' with reserve := res } dm'' ∧
      Fat.metaRead fs' { dm' with reserve := res } 0 FAT32_MAX_FILENAME =
        .ok (r, (buf ++ [0]).take FAT32_MAX_FILENAME, fs', dm'') := by
  have hbpc : 512 ≤ fs.superBlock.bytsPerClus := by
    have hspc := hok.secPerClus
    have hmul := hok.bytsPerClus
    omega
  have hspan : writeSpan fs.superBlock 0 (buf.length + 1) = 1 := by
    unfold writeSpan span
    rw [if_pos (by omega), Nat.div_eq_of_lt (by omega)]
    rfl
  have hacc : ¬ WriteRefused dm 0 (buf.length + 1) := hmade.not_refused hdev rfl (by omega)
  obtain ⟨hk, L', hmw⟩ := metaWrite_ok hok hb (hmade.fileOk (by decide) fs) hacc (by rw [hspan, List.length_nil]; omega) hw
  have hloc := hmw.loc
  have hone : L'.length = 1 := by
    rw [hmw.length, hspan]
    rfl
  refine ⟨?_, ⟨hloc.superBlock, fun c hc hused => hloc.clusters c hc hused List.not_mem_nil⟩, fun res => ?_⟩
  · rw [hk, i32, if_pos (by omega)]
    push_cast
    rfl
  have hkind := kind_metaWrite hw
  obtain ⟨dm₁, hwr, hdm⟩ := hmw.written
  have hsize : dm'.fileSize = buf.length + 1 := by
    rw [hdm]
    rw [grownSize, if_pos ⟨Nat.succ_pos _, by rw [hmade.size.1]; omega⟩, Nat.zero_add]
  have hattr : dm'.attr = 0 ||| ATTR_ARCHIVE := (Tree.attr_of_kind hkind).trans hmade.kind
  have hreg : dm'.dev = .regular := (congrArg (fun k => k.2.2) hkind).trans hdev
  have hbytes : (List.range (min FAT32_MAX_FILENAME (dm'.fileSize - 0))).map (fun i => chainByte fs' L' (0 + i)) =
      (buf ++ [0]).take FAT32_MAX_FILENAME := by
    rw [hsize]
    refine List.ext_getElem ?_ fun i h₁ h₂ => ?_
    · simp
    · have hi : i < buf.length + 1 := by
        simp at h₁
        omega
      have hin : 0 + i < L'.length * fs.superBlock.bytsPerClus := by
        rw [hone]
        omega
      rw [List.getElem_map, List.getElem_range, hwr.bytes _ hin, if_pos (by omega), List.getElem_take]
      simp [hi]
  have hfile : FileOk fs' { dm' with reserve := res } L' := by
    have h := hloc.fileOk
    exact ⟨h.chain, h.first, h.pos, h.count, h.cached, h.inodeOk⟩
  have hcur : dm'.curClus < FAT32_EOC := by
    rcases hmw.cur with hin | hsame
    · exact ((hok.inRange_bounds (by have := hloc.fileOk.chain.inRange _ hin; rwa [hloc.superBlock] at this)).2)
    · rw [hsame, hmade.size.2.2, (hmade.file (by decide)).1]
      decide
  have hsb := hloc.superBlock
  have hcached : dm'.inodeMaxCluster = L'.length := hmw.full (hmade.file (by decide)).2
  have hfits : dm'.fileSize ≤ L'.length * fs'.superBlock.bytsPerClus := by
    rw [hsize, hone, hsb]
    omega
  have hsmall : dm'.fileSize < 2 ^ 32 := by
    rw [hsize]
    omega
  have hdir : dm'.attr &&& ATTR_DIRECTORY = 0 := by
    rw [hattr]
    decide
  have hroom : 0 + FAT32_MAX_FILENAME < 2 ^ 32 := by decide
  obtain ⟨cur, cnt, hlt, hread⟩ := metaRead_eq (hsb ▸ hok) hfile (by simp [hreg]) hdir hcached (by rw [hone]; decide) hfits hsmall hcur hroom
  exact ⟨_, _, ⟨cur, cnt, rfl, fun _ => hlt⟩, hread.trans (by rw [hbytes])⟩

end Volume

namespace Tree

/-- The file of the entry is as it was: its kind, its size and its bytes. -/
structure SameFile (t t' : Tree) (d : Nat) : Prop where
  kind : (t'.dirMetas d).kind = (t.dirMetas d).kind
  size : (t'.dirMetas d).fileSize = (t.dirMetas d).fileSize
  first : (t'.dirMetas d).firstClus = (t.dirMetas d).firstClus
  contents : ∀ L, IsChain (t.volume (t.fsOf d)) L → (t.dirMetas d).firstClus = L.headD 0 →
    IsChain (t'.volume (t'.fsOf d)) L ∧ ∀ j < L.length * (t.volume (t.fsOf d)).superBlock.bytsPerClus,
      chainByte (t'.volume (t'.fsOf d)) L j = chainByte (t.volume (t.fsOf d)) L j

/-- No trace of a call: the same entries, at the same places, with the same files. -/
structure Untouched (t t' : Tree) : Prop where
  rootFileSystem : t'.rootFileSystem = t.rootFileSystem
  entries : ∀ d, t'.InTree d ↔ t.InTree d
  nodes : ∀ d, t.InTree d → t'.nodes d = t.nodes d
  files : ∀ d, t.InTree d → t.SameFile t' d

/-- Whoever follows link `d`, as deep as it takes, comes to `e`. -/
def Resolves (t : Tree) (c : Caller) (d e : Nat) : Prop :=
  ∃ n₀, ∀ n ≥ n₀, ∃ t', jumpToLinkDirMeta c n (c.stack n) t (some d) = .ok (e, t')

/-- All that is new is `target`, a link to `e` with the name `name` in directory `p`. -/
structure NewLink (t t' : Tree) (e p target : Nat) (name : List Byte) : Prop where
  unused : ¬ t.InTree target
  entries : ∀ d, t'.InTree d ↔ t.InTree d ∨ d = target
  nodes : ∀ d, t.InTree d → d ≠ p → t'.nodes d = t.nodes d
  directory : t'.nodes p = { t.nodes p with firstChild := some target }
  brother : (t'.nodes target).nextBrother = (t.nodes p).firstChild
  found : t'.dirlookup p name = .ok (some target)
  link : t'.isLink target = true
  files : ∀ d, t.InTree d → t.SameFile t' d
  resolves : ∀ c, (∀ d, c.cwd = some d → t.InTree d) → t'.Resolves c target e

/-- What `do_linkat` is to do. -/
structure Links (n : Nat) (t : Tree) (c : Caller) (oldDirFd : Int) (oldPath : List Byte) (newDirFd : Int) (newPath : List Byte)
    (r : Int) (t' : Tree) : Prop where
  failed : r = -1 → t.Untouched t'
  taken : ∀ d, t.Existing n c oldDirFd oldPath newDirFd newPath d → r = -1
  linked : r = 0 → ∃ e t₁ p name t₂ target, metaName n t c oldDirFd oldPath true = .ok (some e, t₁) ∧
    metaNameDir n t₁ c newDirFd newPath = .ok (some p, name, t₂) ∧ t.NewLink t' e p target name

/-- The path that a reader finds in a link to which `buf` has been written, with `n` levels of its stack left. -/
def linkPath (c : Caller) (n : Nat) (buf : List Byte) : List Byte :=
  let bytes := (buf ++ [0]).take FAT32_MAX_FILENAME
  cstr (bytes ++ (c.stack n).drop bytes.length)

/-- The path that readers find in a link to `e` leads back to it. -/
def LeadsBack (t : Tree) (e : Nat) (buf : List Byte) : Prop :=
  ∀ c, (∀ d, c.cwd = some d → t.InTree d) →
    ∃ n₀, ∀ n ≥ n₀, ∃ t', metaName n t c AT_FDCWD (linkPath c (n + 1) buf) true = .ok (some e, t')

/-- A link with the path `buf` of `e` can be made in the directory `p`. -/
structure Writable (t : Tree) (e p : Nat) (buf : List Byte) : Prop where
  back : t.LeadsBack e buf
  /-- the next `DirMeta` of the pool is as at boot -/
  regular : ∀ d, t.dirMetaHead = some d → (t.dirMetas d).dev = .regular
  /-- the volume has a free cluster -/
  room : 0 < freeClusters (t.volume (t.fsOf p))

/-- When `do_linkat` does what it should. What writing the link takes is asked for only where the call gets as far: both
lookups find what they look for, and the path of the old entry is short enough. -/
structure Linkable (n : Nat) (t : Tree) (c : Caller) (oldDirFd : Int) (oldPath : List Byte) (newDirFd : Int) (newPath : List Byte) :
    Prop where
  /-- the new path names no entry -/
  unused : ∀ d, ¬ t.Existing n c oldDirFd oldPath newDirFd newPath d
  writable : ∀ e t₁ p name t₂ buf, metaName n t c oldDirFd oldPath true = .ok (some e, t₁) →
    metaNameDir n t₁ c newDirFd newPath = .ok (some p, name, t₂) → t.getAbsolutePath e FAT32_MAX_PATH = some buf →
    t.Writable e p buf

section Made

variable {t t' t₁ t₂ : Tree} {free : List Nat} {kids : Nat → List Nat} {d e p target : Nat} {name buf : List Byte}
  {fs : FileSystem} {dm : DirMeta} {k : Int}

theorem sameFile_of_kept (hf : t.Formatted) (hd : t.InTree d) (hm : Moved (t.dirMetas d) (t'.dirMetas d)) (hfs : t'.fsOf d = t.fsOf d)
    (hk : KeptClusters (t.volume (t.fsOf d)) (t'.volume (t.fsOf d))) : t.SameFile t' d where
  kind := hm.kind
  size := hm.fileSize
  first := hm.firstClus
  contents L hL _ := by
    rw [hfs]
    exact hk.chain (hf.superBlock d hd) (hf.bitmap d hd) hL

theorem kept_setFile (t : Tree) (d : Nat) (dm : DirMeta) (hk : KeptClusters (t.volume (t.fsOf d)) fs) (g : Nat) :
    KeptClusters (t.volume g) ((t.setFile d fs dm).volume g) := by
  by_cases hg : g = t.fsOf d
  · rw [hg, volume_setFile]
    exact hk
  · have hslot : (t.setFile d fs dm).fileSystem g = t.fileSystem g := update_of_ne hg _ _
    refine .of_disk ?_ ?_ ?_
    all_goals
      unfold Tree.volume
      rw [hslot]

/-- The entries are those that the lists reach. -/
theorem inTree_of_pointers (hroot : ∀ x, t'.LiveRoot x ↔ t.LiveRoot x) (hnext : t'.next = t.next)
    (hfirst : ∀ x, (t'.nodes x).firstChild = (t.nodes x).firstChild) : t'.InTree d ↔ t.InTree d := by
  have hlists : ∀ x i, t'.Lists x i ↔ t.Lists x i := fun x i => by
    unfold Lists
    rw [hnext, hfirst]
  constructor
  · intro hd
    induction hd with
    | root hr => exact .root ((hroot _).mp hr)
    | child _ hi ih => exact .child ih ((hlists _ _).mp hi)
  · intro hd
    induction hd with
    | root hr => exact .root ((hroot _).mpr hr)
    | child _ hi ih => exact .child ih ((hlists _ _).mpr hi)

/-- The path of an entry of the tree, when no other changes its name or parent. -/
theorem absoluteLoop_congr (h : Sound t free kids) (hsame : ∀ x, t.InTree x → (t'.nodes x).parent = (t.nodes x).parent ∧
      (t'.nodes x).filename = (t.nodes x).filename) (maxLen n space : Nat) (path : List Byte) (hd : t.InTree d) :
    absoluteLoop t' maxLen n d space path = absoluteLoop t maxLen n d space path := by
  induction n generalizing d space path with
  | zero => rfl
  | succ n ih =>
    rw [absoluteLoop, absoluteLoop, (hsame d hd).1, (hsame d hd).2]
    cases hp : (t.nodes d).parent with
    | none => rfl
    | some parent =>
      have hparent : t.InTree parent :=
        (h.shape.inTree_iff parent).mpr (h.shape.parent_rooted h.mounted ((h.shape.inTree_iff d).mp hd) hp)
      dsimp only
      rw [ih _ _ hparent]

theorem getAbsolutePath_congr (h : Sound t free kids) (hsame : ∀ x, t.InTree x → (t'.nodes x).parent = (t.nodes x).parent ∧
      (t'.nodes x).filename = (t.nodes x).filename) (maxLen : Nat) (hd : t.InTree d) :
    t'.getAbsolutePath d maxLen = t.getAbsolutePath d maxLen := by
  unfold getAbsolutePath
  rw [(hsame d hd).1, absoluteLoop_congr h hsame maxLen _ _ _ hd]

/-- What `metaAlloc` and the write of the path leave. -/
theorem written_path (hok : (t.volume (t.fsOf p)).superBlock.Ok) (hb : BitmapOk (t.volume (t.fsOf p))) (hpd : p ≠ target)
    (hfat : Fat.metaAlloc (t.volume (t.fsOf p)) (t.dirMetas target) 0 = .ok (fs, dm)) (hreg : (t.dirMetas target).dev = .regular)
    (hroom : 0 < freeClusters (t.volume (t.fsOf p))) (hlen : buf.length + 1 ≤ 512)
    (hw : (t.added target p name fs dm).metaWrite target (buf ++ [0]) 0 (buf.length + 1) = .ok (k, t₁)) :
    k = buf.length + 1 ∧ t₁.nodes = (t.added target p name fs dm).nodes ∧ t₁.rootFileSystem = t.rootFileSystem ∧
      (∀ x, x ≠ target → t₁.dirMetas x = t.dirMetas x) ∧ (∀ g, KeptClusters (t.volume g) (t₁.volume g)) ∧
      ∃ t₂, (t₁.setMeta target { t₁.dirMetas target with reserve := DT_LNK }).metaRead target 0 FAT32_MAX_FILENAME =
          .ok ((buf ++ [0]).take FAT32_MAX_FILENAME, t₂) ∧
        Consulted (t₁.setMeta target { t₁.dirMetas target with reserve := DT_LNK }) t₂ := by
  obtain ⟨hmade, hdev⟩ := made_metaAlloc hfat
  obtain ⟨bm, hframe⟩ := metaAlloc_frame (by decide) hfat
  have halloc : KeptClusters (t.volume (t.fsOf p)) fs := by
    rw [hframe]
    exact .of_disk rfl rfl rfl
  have hfs : ({ t with dirMetaHead := t.next target }.link target p name).fsOf target = t.fsOf p := by
    unfold Tree.fsOf
    rw [link_self _ _ hpd]
  have hvol : (t.added target p name fs dm).volume (t.fsOf p) = fs := by
    rw [← hfs]
    exact volume_setFile _ _ _ _
  have hadded : ∀ g, KeptClusters (t.volume g) ((t.added target p name fs dm).volume g) := by
    refine kept_setFile ({ t with dirMetaHead := t.next target }.link target p name) target dm ?_
    rw [hfs]
    exact halloc
  have hfs' : (t.added target p name fs dm).fsOf target = t.fsOf p := hfs
  have hfile : (t.added target p name fs dm).dirMetas target = dm := dirMetas_setFile _ _ _ _
  unfold Tree.metaWrite at hw
  rw [hfs', hvol, hfile] at hw
  cases hfw : Fat.metaWrite fs dm (fun i => (buf ++ [0]).getD i 0) 0 (buf.length + 1) with
  | error e =>
    rw [hfw] at hw
    cases hw
  | ok q =>
    obtain ⟨k', fs', dm'⟩ := q
    rw [hfw] at hw
    cases hw
    obtain ⟨hk, hkept, hread⟩ := metaWrite_path (by rw [halloc.superBlock]; exact hok) (by rw [hframe]; exact ⟨hb.zero, hb.one, hb.bit⟩) hmade
      (hdev.trans hreg) (by rw [hframe]; exact hroom) hlen hfw
    refine ⟨hk, rfl, rfl, fun x hx => ?_, fun g => (hadded g).trans (kept_setFile _ target dm' ?_ g), ?_⟩
    · show update (update t.dirMetas target dm) target dm' x = _
      rw [update_of_ne hx, update_of_ne hx]
    · rw [hfs', hvol]
      exact hkept
    · have hfile' : ((t.added target p name fs dm).setFile target fs' dm').dirMetas target = dm' := dirMetas_setFile _ _ _ _
      rw [hfile']
      generalize ht : ((t.added target p name fs dm).setFile target fs' dm').setMeta target { dm' with reserve := DT_LNK } = t'
      have hlink : t'.dirMetas target = { dm' with reserve := DT_LNK } := by
        rw [← ht]
        exact update_self ..
      have hvol' : t'.volume (t'.fsOf target) = fs' := by
        have hsame : t'.volume (t'.fsOf target) = ((t.added target p name fs dm).setFile target fs' dm').volume
            ((t.added target p name fs dm).fsOf target) := by
          rw [← ht]
          rfl
        rw [hsame]
        exact volume_setFile _ _ _ _
      obtain ⟨r, dm'', hm, hread⟩ := hread DT_LNK
      refine ⟨t'.setFile target (t'.volume (t'.fsOf target)) dm'', ?_, consulted_setFile t' (by rw [hlink]; exact hm)⟩
      unfold Tree.metaRead
      rw [hlink, hvol', hread]

/-- A tree with one entry more is alongside. -/
theorem alongside_added (h : Sound t free kids) {rest : List Nat} (h' : Sound t' rest (update kids p (target :: kids p)))
    (hf : t.Formatted) (hunused : ¬ t.InTree target) (hroot : t'.rootFileSystem = t.rootFileSystem)
    (hnodes : ∀ x, x ≠ target → x ≠ p → t'.nodes x = t.nodes x) (hdir : t'.nodes p = { t.nodes p with firstChild := some target })
    (hname : (t'.nodes target).filename = name.take FAT32_MAX_FILENAME) (hnames : ∀ i ∈ kids p, sameName (t.nodes i).filename name = false)
    (hfiles : ∀ x, t.InTree x → Moved (t.dirMetas x) (t'.dirMetas x)) (hkept : ∀ g, KeptClusters (t.volume g) (t'.volume g)) :
    Alongside t t' := by
  have hother : ∀ x, t.InTree x → x ≠ target := fun x hx hxt => hunused (hxt ▸ hx)
  have hnode : ∀ x, t.InTree x → (t'.nodes x).head = (t.nodes x).head ∧ (t'.nodes x).fileSystem = (t.nodes x).fileSystem ∧
      (t'.nodes x).parent = (t.nodes x).parent ∧ (t'.nodes x).filename = (t.nodes x).filename := fun x hx => by
    by_cases hxp : x = p
    · rw [hxp, hdir]
      exact ⟨rfl, rfl, rfl, rfl⟩
    · rw [hnodes x (hother x hx) hxp]
      exact ⟨rfl, rfl, rfl, rfl⟩
  have hfs : ∀ x, t.InTree x → t'.fsOf x = t.fsOf x := fun x hx => (hnode x hx).2.1
  refine ⟨hroot, fun x hx => (hnode x hx).1, hfs, hfiles, fun d nm x hd hx => ?_, fun d _ => (hkept _).superBlock, fun d hd hne i hi => ?_⟩
  · have hisDir : t.isDir d = true := by
      by_contra hno
      unfold Tree.dirlookup at hx
      rw [if_pos hno] at hx
      cases hx
    have hisDir' : t'.isDir d = true := by
      unfold Tree.isDir at hisDir ⊢
      rw [attr_of_kind (hfiles d hd).kind]
      exact hisDir
    rw [h.shape.dirlookup hisDir] at hx
    rw [h'.shape.dirlookup hisDir', hfs d hd, (hnode d hd).2.2.1]
    by_cases hdot : sameName nm [dot] = true
    · rw [if_pos hdot] at hx ⊢
      exact hx
    · rw [if_neg hdot] at hx ⊢
      by_cases hdots : sameName nm [dot, dot] = true
      · rw [if_pos hdots] at hx ⊢
        exact hx
      · rw [if_neg hdots] at hx ⊢
        have hfind := Except.ok.inj hx
        have hkids : ∀ i ∈ kids d, sameName (t'.nodes i).filename nm = sameName (t.nodes i).filename nm := fun i hi => by
          have hin : t.InTree i := (h.shape.inTree_iff i).mpr (.child ((h.shape.inTree_iff d).mp hd) hi)
          rw [(hnode i hin).2.2.2]
        have hsame : (kids d).find? (fun i => sameName (t'.nodes i).filename nm) = some x := by
          rw [← hfind]
          exact List.find?_congr hkids
        by_cases hdp : d = p
        · -- the new name is not the one that is looked up, which a child has
          subst hdp
          have hx : x ∈ kids d := List.mem_of_find?_eq_some hfind
          have hxname : sameName (t.nodes x).filename nm = true := by simpa using List.find?_some hfind
          have hno := hnames x hx
          have hnew : sameName (t'.nodes target).filename nm = false := by
            rw [hname]
            unfold sameName at hxname hno ⊢
            rw [decide_eq_true_iff] at hxname
            rw [decide_eq_false_iff_not] at hno ⊢
            rw [List.take_take, Nat.min_self]
            exact fun heq => hno (hxname.trans heq.symm)
          rw [update_self, List.find?_cons, hnew]
          exact congrArg Except.ok hsame
        · rw [update_of_ne hdp]
          exact congrArg Except.ok hsame
  · obtain ⟨hrange, hused⟩ := hf.first hd hne
    have hbpc : 512 ≤ (t.volume (t.fsOf d)).superBlock.bytsPerClus := by
      have hspc := (hf.superBlock d hd).secPerClus
      have hmul := (hf.superBlock d hd).bytsPerClus
      omega
    exact ((hkept _).clusters _ hrange hused).2.2 i (by omega)

theorem metaName_lookup {c : Caller} {n : Nat} {fd : Int} {path : List Byte} {jump : Bool} {r : Option Nat}
    (h : metaName n t c fd path jump = .ok (r, t')) : ∃ name, lookupPath n t c fd path false jump = .ok (r, name, t') := by
  unfold metaName at h
  cases hl : lookupPath n t c fd path false jump with
  | error e =>
    rw [hl] at h
    cases h
  | ok q =>
    obtain ⟨r₁, name, t₁⟩ := q
    rw [hl] at h
    cases h
    exact ⟨name, rfl⟩

/-- The new link is followed to where its path led before it was there. -/
theorem resolves_of_alongside {c : Caller} (h : Sound t free kids) (hf : t.Formatted)
    (ha : Alongside t t') (hlink : t'.isLink target = true)
    (hread : t'.metaRead target 0 FAT32_MAX_FILENAME = .ok ((buf ++ [0]).take FAT32_MAX_FILENAME, t₁)) (hc : Consulted t' t₁)
    (hcwd : ∀ d, c.cwd = some d → t.InTree d) (hback : t.LeadsBack e buf) : t'.Resolves c target e := by
  have ha₁ : Alongside t t₁ := ha.both hf (.refl t) hc
  obtain ⟨n₀, hleads⟩ := hback c hcwd
  refine ⟨n₀ + 2, fun n hn => ?_⟩
  obtain ⟨m, rfl⟩ : ∃ m, n = m + 2 := ⟨n - 2, by omega⟩
  obtain ⟨s, hs⟩ := hleads (m + 1) (by omega)
  obtain ⟨hcons, he, hstop, s', hs', has⟩ := ha₁.metaName ⟨⟨free, kids, h⟩, hf, hcwd⟩ hs
  obtain ⟨nm, hl⟩ := metaName_lookup hs'
  have hfile : s'.isLink e = false := (has.isLink ((hcons.inTree e).mpr he)).trans hstop
  refine ⟨s', ?_⟩
  have hl : lookupWith (fun t d => jumpToLinkDirMeta c (m + 1) (c.stack (m + 1)) t d) t₁ c AT_FDCWD
      (cstr ((buf ++ [0]).take FAT32_MAX_FILENAME ++ (c.stack (m + 1 + 1)).drop ((buf ++ [0]).take FAT32_MAX_FILENAME).length))
      false true = .ok (some e, nm, s') := hl
  rw [jumpToLinkDirMeta, if_neg (by simp [hlink]), hread]
  dsimp only
  rw [hl]
  exact jump_stays m _ hfile

/-- What an entry that is made for a new name finds, and where it is put. -/
theorem added_nodes (t : Tree) (target p : Nat) (name : List Byte) (fs : FileSystem) (dm : DirMeta) (hpd : p ≠ target) :
    (∀ x, x ≠ target → x ≠ p → (t.added target p name fs dm).nodes x = t.nodes x) ∧
      (t.added target p name fs dm).nodes p = { t.nodes p with firstChild := some target } ∧
      (t.added target p name fs dm).nodes target = { t.nodes target with
        parent := some p
        nextBrother := (t.nodes p).firstChild
        fileSystem := (t.nodes p).fileSystem
        filename := name.take FAT32_MAX_FILENAME } :=
  ⟨fun _ hx hxp => link_of_ne { t with dirMetaHead := t.next target } name hx hxp,
    link_parent { t with dirMetaHead := t.next target } name hpd, link_self { t with dirMetaHead := t.next target } name hpd⟩

/-- The entries of the tree keep their names and parents. -/
theorem named_metaAlloc {attr : Nat} (h : Sound t free kids) (hp : t.InTree p) (hal : t.metaAlloc p name attr = .ok (target, t')) {x : Nat}
    (hx : t.InTree x) : (t'.nodes x).parent = (t.nodes x).parent ∧ (t'.nodes x).filename = (t.nodes x).filename := by
  rcases h.metaAlloc hp hal with ⟨-, rfl⟩ | ⟨rest, fs, dm, -, hfree, -, rfl, hpd, -, -⟩
  · exact ⟨rfl, rfl⟩
  · obtain ⟨hother, hdir, -⟩ := t.added_nodes target p name fs dm hpd
    have hmem : target ∈ free := by
      rw [hfree]
      exact List.mem_cons_self
    have hxt : x ≠ target := fun hxt => h.not_free hx ((h.shape.free_iff x).mpr (hxt ▸ hmem))
    by_cases hxp : x = p
    · rw [hxp, hdir]
      exact ⟨rfl, rfl⟩
    · rw [hother x hxt hxp]
      exact ⟨rfl, rfl⟩

/-- The tree has one entry more. -/
theorem inTree_added {rest : List Nat} (h : Sound t free kids) (h' : Sound t' rest (update kids p (target :: kids p)))
    (hroot : ∀ x, t'.LiveRoot x ↔ t.LiveRoot x) (hp : t.InTree p) (hleaf : kids target = []) (d : Nat) :
    t'.InTree d ↔ t.InTree d ∨ d = target := by
  have hkids : ∀ x i, i ∈ update kids p (target :: kids p) x ↔ i ∈ kids x ∨ (x = p ∧ i = target) := fun x i => by
    by_cases hxp : x = p
    · subst hxp
      rw [update_self, List.mem_cons]
      tauto
    · rw [update_of_ne hxp]
      tauto
  rw [h.shape.inTree_iff, h'.shape.inTree_iff]
  have hp := (h.shape.inTree_iff p).mp hp
  have hback : ∀ x, Rooted t.LiveRoot kids x → Rooted t'.LiveRoot (update kids p (target :: kids p)) x := fun x hx =>
    hx.mono (fun y hy => (hroot y).mpr hy) fun y i hi => (hkids y i).mpr (.inl hi)
  constructor
  · intro hd
    induction hd with
    | root hr => exact .inl (.root ((hroot _).mp hr))
    | @child x i _ hi ih =>
      rcases (hkids x i).mp hi with hi | ⟨-, rfl⟩
      · rcases ih with hx | hxt
        · exact .inl (.child hx hi)
        · rw [hxt, hleaf] at hi
          cases hi
      · exact .inr rfl
  · rintro (hd | rfl)
    · exact hback d hd
    · exact .child (hback p hp) ((hkids p d).mpr (.inr ⟨rfl, rfl⟩))

/-- **The way to a new link**: `do_linkat` makes an entry and writes the path. -/
theorem newLink_of_written {t₃ t₄ : Tree} (h : Sound t free kids) (hf : t.Formatted) (hc : Consulted t t₂) (hp : t.InTree p)
    (hlook : t₂.dirlookup p name = .ok none) (hal : t₂.metaAlloc p name 0 = .ok (target, t₃))
    (hw : t₃.metaWrite target (buf ++ [0]) 0 (buf.length + 1) = .ok (k, t₄)) (hlen : buf.length + 1 ≤ 512)
    (hreg : ∀ d, t.dirMetaHead = some d → (t.dirMetas d).dev = .regular) (hroom : 0 < freeClusters (t.volume (t.fsOf p)))
    (hback : t.LeadsBack e buf) :
    k = buf.length + 1 ∧ t.NewLink (t₄.setMeta target { t₄.dirMetas target with reserve := DT_LNK }) e p target name := by
  have h₂ := h.still hc.toStill
  have hp₂ : t₂.InTree p := (hc.inTree p).mpr hp
  rcases h₂.metaAlloc hp₂ hal with ⟨hfound, -⟩ | ⟨rest, fs, dm, -, hfree, hfat, rfl, hpd, h₃, -⟩
  · rw [hlook] at hfound
    cases hfound
  have hhead : t₂.dirMetaHead = some target := by
    have hcells := h₂.shape.freeCells
    rw [hfree] at hcells
    generalize t₂.dirMetaHead = head at hcells
    cases hcells
    rfl
  have hmem : target ∈ free := by
    rw [hfree]
    exact List.mem_cons_self
  have hunused : ¬ t.InTree target := fun hin => h.not_free hin ((h.shape.free_iff target).mpr hmem)
  have hreg₂ : (t₂.dirMetas target).dev = .regular :=
    (congrArg (fun k => k.2.2) (hc.file target).kind).trans (hreg target (hc.dirMetaHead.symm.trans hhead))
  have hfs₂ := hc.fsOf p
  obtain ⟨hk, hnodes, hroot, hfiles, hkept, t₅, hread, hcons⟩ := written_path (by rw [hfs₂, hc.volume]; exact hf.superBlock p hp)
    (by rw [hfs₂, hc.volume]; exact hf.bitmap p hp) hpd hfat hreg₂ (by rw [hfs₂, hc.volume]; exact hroom) hlen hw
  have h₄ := h₃.still (still_metaWrite hw)
  have hvalid : ∀ x, t₄.LiveRoot x ↔ t.LiveRoot x := fun x =>
    ((still_metaWrite hw).liveRoot x).trans ((liveRoot_setFile _ target fs dm x).trans (hc.liveRoot x))
  obtain ⟨hother, hdir, hself⟩ := t₂.added_nodes target p name fs dm hpd
  obtain ⟨hisDir, ⟨hdot, hdots⟩, hnames⟩ := h₂.shape.dirlookup_none h₂.mounted ((h₂.shape.inTree_iff p).mp hp₂) hlook
  rw [← hnodes, hc.nodes] at hother hdir hself
  rw [hc.nodes] at hnames
  have h' : Sound (t₄.setMeta target { t₄.dirMetas target with reserve := DT_LNK }) rest (update kids p (target :: kids p)) :=
    h₄.setMeta rfl
  have hlink : (t₄.setMeta target { t₄.dirMetas target with reserve := DT_LNK }).isLink target = true := by
    have hset : (t₄.setMeta target { t₄.dirMetas target with reserve := DT_LNK }).dirMetas target =
        { t₄.dirMetas target with reserve := DT_LNK } := update_self ..
    unfold Tree.isLink
    rw [hset]
    exact decide_eq_true rfl
  have hmoved : ∀ x, t.InTree x →
      Moved (t.dirMetas x) ((t₄.setMeta target { t₄.dirMetas target with reserve := DT_LNK }).dirMetas x) := fun x hx => by
    have hxt : x ≠ target := fun hxt => hunused (hxt ▸ hx)
    show Moved _ (update t₄.dirMetas target _ x)
    rw [update_of_ne hxt, hfiles x hxt]
    exact hc.file x
  have hvol : ∀ g, KeptClusters (t.volume g) ((t₄.setMeta target { t₄.dirMetas target with reserve := DT_LNK }).volume g) := fun g => by
    rw [← hc.volume]
    exact hkept g
  have hisDir' : (t₄.setMeta target { t₄.dirMetas target with reserve := DT_LNK }).isDir p = true :=
    h'.shape.dirs p (by rw [update_self]; exact List.cons_ne_nil _ _)
  generalize ht' : t₄.setMeta target { t₄.dirMetas target with reserve := DT_LNK } = t' at *
  have hn' : t'.nodes = t₄.nodes := by
    rw [← ht']
    rfl
  rw [← hn'] at hother hdir hself
  have hroot' : t'.rootFileSystem = t.rootFileSystem := by
    rw [← ht']
    exact hroot.trans hc.rootFileSystem
  have hlive : ∀ x, t'.LiveRoot x ↔ t.LiveRoot x := fun x => by
    rw [← ht']
    exact hvalid x
  have hname : (t'.nodes target).filename = name.take FAT32_MAX_FILENAME := by rw [hself]
  have ha := alongside_added h h' hf hunused hroot' hother hdir hname hnames hmoved hvol
  refine ⟨hk, hunused, inTree_added h h' hlive hp (h.shape.leaf target hmem), fun d hd hdp => hother d (fun hdt => hunused (hdt ▸ hd)) hdp,
    hdir, by rw [hself], ?_, hlink, fun d hd => sameFile_of_kept hf hd (hmoved d hd) (ha.fsOf d hd) (hvol _),
    fun c hcwd => resolves_of_alongside h hf ha hlink hread hcons hcwd hback⟩
  have hnew : sameName (t'.nodes target).filename name = true := by
    rw [hname]
    unfold sameName
    rw [List.take_take, Nat.min_self]
    exact decide_eq_true rfl
  rw [h'.shape.dirlookup hisDir', if_neg (by simp [hdot]), if_neg (by simp [hdots]), update_self, List.find?_cons, hnew]

/-! ### Failing -/

theorem untouched_of_consulted (hf : t.Formatted) (hc : Consulted t t') : t.Untouched t' := by
  refine ⟨hc.rootFileSystem, hc.inTree, fun d _ => by rw [hc.nodes], fun d hd => ?_⟩
  refine sameFile_of_kept hf hd (hc.file d) (hc.fsOf d) ?_
  rw [hc.volume]
  exact .of_disk rfl rfl rfl

/-- A new entry that is removed leaves no trace. -/
theorem untouched_of_removed {t₃ : Tree} (h : Sound t free kids) (hf : t.Formatted) (hc : Consulted t t₂) (hp : t.InTree p)
    (hlook : t₂.dirlookup p name = .ok none) (hal : t₂.metaAlloc p name 0 = .ok (target, t₃)) (hrem : t₃.metaRemove target = .ok t') :
    t.Untouched t' := by
  have h₂ := h.still hc.toStill
  have hp₂ : t₂.InTree p := (hc.inTree p).mpr hp
  rcases h₂.metaAlloc hp₂ hal with ⟨hfound, -⟩ | ⟨rest, fs, dm, -, hfree, hfat, rfl, hpd, -, -⟩
  · rw [hlook] at hfound
    cases hfound
  have hmem : target ∈ free := by
    rw [hfree]
    exact List.mem_cons_self
  have hunused : ∀ x, t.InTree x → x ≠ target := fun x hx hxt =>
    h.not_free hx ((h.shape.free_iff x).mpr (hxt ▸ hmem))
  obtain ⟨hother, hdir, hself⟩ := t₂.added_nodes target p name fs dm hpd
  obtain ⟨bm, hframe⟩ := metaAlloc_frame (by decide) hfat
  have hfs : ({ t₂ with dirMetaHead := t₂.next target }.link target p name).fsOf target = t₂.fsOf p := by
    unfold Tree.fsOf
    rw [link_self _ _ hpd]
  have hadded : ∀ g, KeptClusters (t₂.volume g) ((t₂.added target p name fs dm).volume g) := by
    refine kept_setFile ({ t₂ with dirMetaHead := t₂.next target }.link target p name) target dm ?_
    rw [hfs, hframe]
    exact .of_disk rfl rfl rfl
  have hvalid : ∀ x, (t₂.added target p name fs dm).LiveRoot x ↔ t.LiveRoot x := fun x =>
    (liveRoot_setFile _ target fs dm x).trans (hc.liveRoot x)
  have hheads : (t₂.added target p name fs dm).dirMetaHead = t₂.next target := rfl
  have hroot : (t₂.added target p name fs dm).rootFileSystem = t.rootFileSystem := hc.rootFileSystem
  have hfiles : ∀ x, x ≠ target → (t₂.added target p name fs dm).dirMetas x = t₂.dirMetas x := fun x hx =>
    update_of_ne hx _ _
  generalize t₂.added target p name fs dm = t₃ at *
  -- the entry is the first of its directory
  have hremoved : t₃.metaRemove target = .ok ((t₃.setNode p { t₃.nodes p with firstChild := (t₃.nodes target).nextBrother }).dirMetaFree target) := by
    unfold Tree.metaRemove
    rw [hself]
    dsimp only
    rw [hdir]
    dsimp only
    rw [if_pos rfl]
  rw [hremoved] at hrem
  cases hrem
  have hp' : { t₃.nodes p with firstChild := (t₃.nodes target).nextBrother } = t₂.nodes p := by
    rw [hself, hdir]
  rw [hp']
  have hnode : ∀ x, x ≠ target → ((t₃.setNode p (t₂.nodes p)).dirMetaFree target).nodes x = t₂.nodes x := fun x hx => by
    by_cases hxp : x = p
    · subst hxp
      simp [Tree.dirMetaFree, Tree.setNode, hx]
    · simp [Tree.dirMetaFree, Tree.setNode, hx, hxp, hother x hx hxp]
  have htarget : ((t₃.setNode p (t₂.nodes p)).dirMetaFree target).nodes target = { t₃.nodes target with nextBrother := t₂.next target } := by
    simp [Tree.dirMetaFree, Tree.setNode, Ne.symm hpd, hheads]
  refine ⟨hroot, fun d => ?_, fun d hd => ?_, fun d hd => ?_⟩
  · refine inTree_of_pointers hvalid (funext fun x => ?_) fun x => ?_
    · unfold Tree.next
      by_cases hx : x = target
      · rw [hx, htarget, ← hc.nodes]
        rfl
      · rw [hnode x hx, hc.nodes]
    · by_cases hx : x = target
      · rw [hx, htarget, hself, hc.nodes]
      · rw [hnode x hx, hc.nodes]
  · rw [hnode d (hunused d hd), hc.nodes]
  · have hfs' : ((t₃.setNode p (t₂.nodes p)).dirMetaFree target).fsOf d = t.fsOf d := by
      unfold Tree.fsOf
      rw [hnode d (hunused d hd), hc.nodes]
    refine sameFile_of_kept hf hd ?_ hfs' ?_
    · show Moved _ (t₃.dirMetas d)
      rw [hfiles d (hunused d hd)]
      exact hc.file d
    · rw [← hc.volume]
      exact hadded _

/-- Removing an entry of the tree shows. -/
theorem not_untouched_of_removed (h : Sound t free kids) (hs : Still t t₁) (hd : t.InTree d) (hrem : t₁.metaRemove d = .ok t') :
    ¬ t.Untouched t' := by
  intro hu
  have h₁ := h.still hs
  have hrooted := (h₁.shape.inTree_iff d).mp ((hs.inTree d).mpr hd)
  cases hrooted with
  | root hr =>
    obtain ⟨f, hf, rfl⟩ := hr
    unfold Tree.metaRemove at hrem
    rw [h₁.mounted.parent f hf] at hrem
    cases hrem
  | @child q _ hq hi =>
    obtain ⟨s, hrem', -, -, -, -, hcells⟩ := metaRemove_cells (h₁.shape.kidCells q) (h₁.shape.length_le q) hi (h₁.shape.parent q d hi)
    rw [hrem] at hrem'
    cases hrem'
    have hnodup := (h.shape.kidCells q).nodup
    have hgone : d ∉ (kids q).erase d := fun hmem => (hnodup.mem_erase_iff.mp hmem).1 rfl
    have hq : t.InTree q := (hs.inTree q).mp ((h₁.shape.inTree_iff q).mpr hq)
    have hold : Cells (s.dirMetaFree d).next ((s.dirMetaFree d).nodes q).firstChild (kids q) := by
      rw [hu.nodes q hq]
      refine (h.shape.kidCells q).congr fun x hx => ?_
      unfold Tree.next
      rw [hu.nodes x ((h.shape.inTree_iff x).mpr (.child ((h.shape.inTree_iff q).mp hq) hx))]
    have hnew : Cells (s.dirMetaFree d).next ((s.dirMetaFree d).nodes q).firstChild ((kids q).erase d) := by
      have hfirst : ((s.dirMetaFree d).nodes q).firstChild = (s.nodes q).firstChild := by
        by_cases hqd : q = d
        · simp [Tree.dirMetaFree, Tree.setNode, hqd]
        · simp [Tree.dirMetaFree, Tree.setNode, hqd]
      rw [hfirst]
      refine hcells.congr fun x hx => ?_
      have hxd : x ≠ d := fun hxd => hgone (hxd ▸ hx)
      simp [Tree.next, Tree.dirMetaFree, Tree.setNode, hxd]
    rw [hold.unique hnew] at hi
    exact hgone hi

end Made

section Back

variable {t : Tree} {free : List Nat} {kids : Nat → List Nat} {e : Nat} {names : List (List Byte)} {buf : List Byte}

theorem cstr_terminated {a : List Byte} (h0 : (0 : Byte) ∉ a) (b : List Byte) : cstr (a ++ 0 :: b) = a := by
  unfold cstr
  rw [List.takeWhile_append_of_pos fun x hx => by
    have hne : x ≠ 0 := fun hx0 => h0 (hx0 ▸ hx)
    simpa using hne]
  simp

/-- The path of an entry below ordinary directories leads back to it, if a reader takes it whole. -/
theorem Ancestry.leadsBack (h : Ancestry t kids e names) (hsound : Sound t free kids) (hfile : t.isLink e = false)
    (hbuf : t.getAbsolutePath e FAT32_MAX_PATH = some buf) (hlen : buf.length < FAT32_MAX_FILENAME) (h0 : (0 : Byte) ∉ buf) :
    t.LeadsBack e buf := by
  intro c _
  refine ⟨1, fun n hn => ⟨t, ?_⟩⟩
  obtain ⟨m, rfl⟩ : ∃ m, n = m + 1 := ⟨n - 1, by omega⟩
  have hpath : linkPath c (m + 1 + 1) buf = buf := by
    have hall : (buf ++ [0]).take FAT32_MAX_FILENAME = buf ++ [0] := List.take_of_length_le (by
      rw [List.length_append]
      exact hlen)
    show cstr ((buf ++ [0]).take FAT32_MAX_FILENAME ++ (c.stack (m + 1 + 1)).drop ((buf ++ [0]).take FAT32_MAX_FILENAME).length) = buf
    rw [hall, List.append_assoc, List.singleton_append]
    exact cstr_terminated h0 _
  rw [hpath]
  exact h.metaName hsound hbuf c m fun _ => hfile

end Back

section Call

variable {n : Nat} {t t' : Tree} {free : List Nat} {kids : Nat → List Nat} {c : Caller} {oldDirFd newDirFd : Int}
  {oldPath newPath : List Byte} {r : Int}

/-- An entry that is there already is written over, or removed. -/
theorem not_links_of_existing {d : Nat} (h : Sound t free kids) (hn : t.Stands c newDirFd newPath)
    (hd : t.Existing n c oldDirFd oldPath newDirFd newPath d) (hr : do_linkat n t c oldDirFd oldPath newDirFd newPath = .ok (r, t')) :
    ¬ t.Links n c oldDirFd oldPath newDirFd newPath r t' := by
  intro hl
  obtain rfl := hl.taken d hd
  have hu := hl.failed rfl
  obtain ⟨e, t₁, p, name, t₂, hold, hdir, hlook⟩ := hd
  rcases do_linkat_cases hr with ⟨-, hmiss⟩ | ⟨e', t₁', target, t₃, hold', hcreate, hlink⟩
  · rcases hmiss with hno | ⟨e', t₁', name', hold', hno⟩
    · rw [hold] at hno
      cases hno
    · rw [hold] at hold'
      cases hold'
      rw [hdir] at hno
      cases hno
  · rw [hold] at hold'
    cases hold'
    obtain ⟨p', name', t₂', hdir', hal⟩ := metaCreate_some hcreate
    rw [hdir] at hdir'
    cases hdir'
    have hs₁ := still_metaName hold
    obtain ⟨hs₂, hp⟩ := lookupPath_rooted (h.still hs₁).shape (h.still hs₁).mounted (hn.still hs₁) hdir
    have hs := hs₁.trans hs₂
    have hp₂ : t₂.InTree p := (hs₂.inTree p).mpr (hp p rfl)
    rcases (h.still hs).metaAlloc hp₂ hal with ⟨hfound, rfl⟩ | ⟨-, -, -, hnew, -⟩
    · rw [hlook] at hfound
      cases hfound
      have hin := (h.still hs).shape.dirlookup_rooted (h.still hs).mounted (((h.still hs).shape.inTree_iff p).mp hp₂) hlook
      have hd : t.InTree d := (hs.inTree d).mp (((h.still hs).shape.inTree_iff d).mpr hin)
      obtain ⟨t₄, hs₄, ⟨-, hrem⟩ | ⟨hzero, -⟩⟩ := hlink.cases
      · exact not_untouched_of_removed h (hs.trans hs₄) hd hrem hu
      · cases hzero
    · rw [hlook] at hnew
      cases hnew

/-- **A link to a new path**: no trace of a failure, and on success the link and nothing else. -/
theorem links_of_linkable (h : Sound t free kids) (hf : t.Formatted) (ho : t.Stands c oldDirFd oldPath)
    (hn : t.Stands c newDirFd newPath) (hl : t.Linkable n c oldDirFd oldPath newDirFd newPath)
    (hr : do_linkat n t c oldDirFd oldPath newDirFd newPath = .ok (r, t')) : t.Links n c oldDirFd oldPath newDirFd newPath r t' := by
  have htaken : ∀ d, t.Existing n c oldDirFd oldPath newDirFd newPath d → r = -1 := fun d hd => absurd hd (hl.unused d)
  rcases do_linkat_cases hr with ⟨rfl, hmiss⟩ | ⟨e, t₁, target, t₃, hold, hcreate, hlink⟩
  · refine ⟨fun _ => untouched_of_consulted hf ?_, htaken, fun hzero => by cases hzero⟩
    rcases hmiss with hold | ⟨e, t₁, name, hold, hdir⟩
    · obtain ⟨name, hlook⟩ := metaName_lookup hold
      exact (consulted_lookupPath h hf ho hlook).1
    · obtain ⟨name', hlook⟩ := metaName_lookup hold
      have hc := (consulted_lookupPath h hf ho hlook).1
      exact hc.trans (consulted_lookupPath (h.still hc.toStill) (hc.formatted hf) (hn.still hc.toStill) hdir).1
  · obtain ⟨p, name, t₂, hdir, hal⟩ := metaCreate_some hcreate
    obtain ⟨name', hlook⟩ := metaName_lookup hold
    obtain ⟨hc₁, he⟩ := consulted_lookupPath h hf ho hlook
    obtain ⟨hc₂, hp⟩ := consulted_lookupPath (h.still hc₁.toStill) (hc₁.formatted hf) (hn.still hc₁.toStill) hdir
    have hc := hc₁.trans hc₂
    have hp : t.InTree p := (hc₁.inTree p).mp (hp p rfl)
    have hnew : t₂.dirlookup p name = .ok none := by
      rcases (h.still hc.toStill).metaAlloc ((hc.inTree p).mpr hp) hal with ⟨hfound, -⟩ | ⟨-, -, -, hnew, -⟩
      · exact absurd ⟨e, t₁, p, name, t₂, hold, hdir, hfound⟩ (hl.unused target)
      · exact hnew
    rcases hlink with ⟨-, rfl, hrem⟩ | ⟨buf, k, t₄, hbuf, hw, hlink⟩
    · exact ⟨fun _ => untouched_of_removed h hf hc hp hnew hal hrem, htaken, fun hzero => by cases hzero⟩
    · have hsame : ∀ x, t.InTree x → (t₃.nodes x).parent = (t.nodes x).parent ∧ (t₃.nodes x).filename = (t.nodes x).filename := by
        intro x hx
        have hnamed := named_metaAlloc (h.still hc.toStill) ((hc.inTree p).mpr hp) hal ((hc.inTree x).mpr hx)
        rwa [hc.nodes] at hnamed
      have hbuf : t.getAbsolutePath e FAT32_MAX_PATH = some buf := by
        rw [← hbuf]
        exact (getAbsolutePath_congr h hsame _ (he e rfl)).symm
      have hlen : buf.length + 1 ≤ 512 := by
        rw [← absolute_path t e (Nat.le_refl _)] at hbuf
        have hmax := (t.absolute_bounds e (by decide)).2 buf hbuf
        have hle : (buf.length : Int) + 1 ≤ 260 := hmax
        omega
      have hwritable := hl.writable e t₁ p name t₂ buf hold hdir hbuf
      obtain ⟨hk, hnewLink⟩ := newLink_of_written h hf hc hp hnew hal hw hlen hwritable.regular hwritable.room hwritable.back
      rcases hlink with ⟨hshort, -, -⟩ | ⟨-, rfl, rfl⟩
      · exact absurd hk hshort
      · exact ⟨fun hneg => absurd hneg (by decide), htaken, fun _ => ⟨e, t₁, p, name, t₂, target, hold, hdir, hnewLink⟩⟩

/-- **`do_linkat`** does what it should where the new path names no entry, the path of the old one leads back to it, and
the new entry finds a `DirMeta` as at boot and a free cluster; where the new path names an entry it does not. -/
theorem do_linkat_links (h : Sound t free kids) (hf : t.Formatted) (ho : t.Stands c oldDirFd oldPath)
    (hn : t.Stands c newDirFd newPath) (hr : do_linkat n t c oldDirFd oldPath newDirFd newPath = .ok (r, t')) :
    (t.Linkable n c oldDirFd oldPath newDirFd newPath → t.Links n c oldDirFd oldPath newDirFd newPath r t') ∧
      (t.Links n c oldDirFd oldPath newDirFd newPath r t' → ∀ d, ¬ t.Existing n c oldDirFd oldPath newDirFd newPath d) :=
  ⟨fun hl => links_of_linkable h hf ho hn hl hr, fun hl _ hd => not_links_of_existing h hn hd hr hl⟩

end Call

/-! ## Two links -/

def createA : Op := .create atBoot AT_FDCWD pathA .file 0

/-- `/a` is linked to itself: the tree before, the entry its path names with the tree after that lookup, and what
`do_linkat` returns. -/
def linkSelf : Except Halt (Tree × Option Nat × Tree × Int × Tree) := do
  let t ← (rootSet (smallFs 4)).exec 1 createA
  let found ← metaName 1 t atBoot AT_FDCWD pathA true
  let r ← do_linkat 1 t atBoot AT_FDCWD pathA AT_FDCWD pathA
  return (t, found.1, found.2, r)

theorem linkSelf_found : (linkSelf.toOption.map fun q => decide (q.2.1 = some 8191 ∧
    q.2.2.1.lastElement pathA = some (some (rootOf 0), [0x61], some (some (some 8191))) ∧ q.2.2.2.1 = 0)) = some true := by
  decide +kernel

/-- A file that is linked to itself becomes a link, and what it held is gone. -/
theorem linkat_itself : ¬ ∀ (t t' : Tree) (n : Nat) (c : Caller) (oldDirFd newDirFd : Int) (oldPath newPath : List Byte) (r : Int),
    Reached (fun _ _ _ => True) t → do_linkat n t c oldDirFd oldPath newDirFd newPath = .ok (r, t') →
      t.Links n c oldDirFd oldPath newDirFd newPath r t' := by
  intro h
  obtain ⟨⟨t, e, t₁, r, t'⟩, hrun, hfacts⟩ := Loop.exists_of_toOption linkSelf_found
  obtain ⟨t₀, hcreate, hrun⟩ := Loop.bind_ok hrun
  obtain ⟨⟨e', t₁'⟩, hold, hrun⟩ := Loop.bind_ok hrun
  obtain ⟨⟨r', t₂'⟩, hdo, hrun⟩ := Loop.bind_ok hrun
  cases hrun
  obtain ⟨rfl, hlast, rfl⟩ := of_decide_eq_true hfacts
  have hreach : Reached (fun _ _ _ => True) t := (reached_small _).step ⟨1, createA, trivial, hcreate⟩
  obtain ⟨⟨p, name, t₂⟩, hdir, heq⟩ := Loop.exists_of_toOption hlast
  simp only [Prod.mk.injEq] at heq
  obtain ⟨rfl, rfl, hlook⟩ := heq
  have hexists : t.Existing 1 atBoot AT_FDCWD pathA AT_FDCWD pathA 8191 :=
    ⟨8191, _, rootOf 0, [0x61], t₂, hold, hdir, Loop.ok_of_toOption (Option.some.inj hlook)⟩
  have hl := h t t' 1 atBoot AT_FDCWD AT_FDCWD pathA pathA 0 hreach hdo
  exact absurd (hl.taken 8191 hexists) (by decide)

def pathB : List Byte := [slash, 0x62]

theorem formatted_small : (rootSet (smallFs 4)).Formatted := by
  have hinv := (fatInit_smallState small_ok_four (by decide)).inv
  have hroot : ∀ d, (rootSet (smallFs 4)).InTree d → d = rootOf 0 := fun d hd => by
    have hrooted := ((shape_rootSet (smallFs 4)).inTree_iff d).mp hd
    cases hrooted with
    | root hr =>
      obtain ⟨f, hf, rfl⟩ := hr
      rw [rootSet_valid hf]
    | child _ hi => cases hi
  refine ⟨fun d hd => ?_, fun d hd => ?_, fun d hd => ?_, fun d hd => ?_⟩
  all_goals obtain rfl := hroot d hd
  · rw [rootSet_volume]
    exact small_ok_four
  · rw [rootSet_volume]
    exact hinv.bitmap
  · rw [rootSet_volume, rootSet_meta]
    exact ⟨smallChain 0, (((rootOnly_small 4).filesOk (by decide)).file 0).chain, rfl⟩
  · rw [rootSet_meta]
    decide

theorem made_inB : ((do_linkat 1 (rootSet (smallFs 4)) atBoot AT_FDCWD [slash] AT_FDCWD pathB).toOption.map fun q => decide (q.1 = 0 ∧
    (rootSet (smallFs 4)).lastElement pathB = some (some (rootOf 0), [0x62], some (some none)) ∧
    (rootSet (smallFs 4)).dirMetaHead = some (DIRMETA_NUM - 1) ∧
    ((rootSet (smallFs 4)).dirMetas (DIRMETA_NUM - 1)).dev = .regular)) = some true := by
  decide +kernel

/-- A link `/b` to the root. -/
theorem do_linkat_links_root : ∃ t', do_linkat 1 (rootSet (smallFs 4)) atBoot AT_FDCWD [slash] AT_FDCWD pathB = .ok (0, t') ∧
    (rootSet (smallFs 4)).Links 1 atBoot AT_FDCWD [slash] AT_FDCWD pathB 0 t' := by
  obtain ⟨⟨r, t'⟩, hdo, hfacts⟩ := Loop.exists_of_toOption made_inB
  obtain ⟨rfl, hlast, hhead, hdev⟩ := of_decide_eq_true hfacts
  have hsound : Sound (rootSet (smallFs 4)) (List.range DIRMETA_NUM).reverse fun _ => [] := ⟨shape_rootSet _, mounted_rootSet _⟩
  have hway : Ancestry (rootSet (smallFs 4)) (fun _ => []) (rootOf 0) [] := .root
  have hbuf : (rootSet (smallFs 4)).getAbsolutePath (rootOf 0) FAT32_MAX_PATH = some [slash] := by
    unfold getAbsolutePath
    rw [rootSet_root]
    rfl
  have hold : metaName 1 (rootSet (smallFs 4)) atBoot AT_FDCWD [slash] true = .ok (some (rootOf 0), rootSet (smallFs 4)) :=
    hway.metaName hsound hbuf atBoot 0 fun _ => rfl
  obtain ⟨⟨p, name, t₂⟩, hdir, heq⟩ := Loop.exists_of_toOption hlast
  simp only [Prod.mk.injEq] at heq
  obtain ⟨rfl, rfl, hlook⟩ := heq
  have hlook := Loop.ok_of_toOption (Option.some.inj hlook)
  have hlinkable : (rootSet (smallFs 4)).Linkable 1 atBoot AT_FDCWD [slash] AT_FDCWD pathB := by
    refine ⟨fun d hd => ?_, fun e t₁ p name t₂' buf he hp hpath => ⟨?_, fun d hd => ?_, ?_⟩⟩
    · obtain ⟨e, t₁, p, name, t₂', he, hp, hd⟩ := hd
      rw [hold] at he
      cases he
      rw [hdir] at hp
      cases hp
      rw [hlook] at hd
      cases hd
    · rw [hold] at he
      cases he
      rw [hbuf] at hpath
      cases hpath
      exact hway.leadsBack hsound rfl hbuf (by decide) (by decide)
    · rw [hhead] at hd
      cases hd
      exact hdev
    · rw [hold] at he
      cases he
      rw [hdir] at hp
      cases hp
      rw [rootSet_volume]
      exact freeClusters_small
  have hroot : ((rootSet (smallFs 4)).fileSystem (rootSet (smallFs 4)).rootFileSystem).valid = true := hsound.mounted.root
  exact ⟨t', hdo, (do_linkat_links hsound formatted_small (stands_absolute hroot rfl) (stands_absolute hroot rfl) hdo).1 hlinkable⟩

end Tree

end Exaros.Dir
