import Exaros.Dir.Loading
import Exaros.Fat.Allocation

/-!
# The tree over whole runs

Creating, linking and removing entries in any order, by paths, after the root has been loaded. What they
keep is `WellFormed`: every `DirMeta` is in exactly one list, where its parent pointer says. Removal looks
at no children, and a path may start in a directory that has been removed; a step that does neither keeps it.
-/

namespace Exaros.Dir

open Fat Linked

inductive Op where
  | create (c : Caller) (fd : Int) (path : List Byte) (type : FileType) (mode : Nat)
  | linkat (c : Caller) (oldDirFd : Int) (oldPath : List Byte) (newDirFd : Int) (newPath : List Byte)
  | unlinkat (c : Caller) (fd : Int) (path : List Byte)

namespace Tree

def exec (n : Nat) (t : Tree) : Op → Except Halt Tree
  | .create c fd path type mode => (metaCreate n t c fd path type mode).map Prod.snd
  | .linkat c oldDirFd oldPath newDirFd newPath => (do_linkat n t c oldDirFd oldPath newDirFd newPath).map Prod.snd
  | .unlinkat c fd path => (do_unlinkat n t c fd path).map Prod.snd

/-- Each `DirMeta` of the pool in one place, and named by no other than its directory. -/
structure WellFormed (t : Tree) : Prop where
  placed : ∀ i < DIRMETA_NUM, (t.Free i ∧ ∀ d, ¬ t.Lists d i) ∨
    (¬ t.Free i ∧ ∃ d, t.InTree d ∧ t.isDir d = true ∧ t.Lists d i ∧ ∀ e, t.Lists e i → e = d)
  parent : ∀ d i, t.Lists d i → (t.nodes i).parent = some d
  names : ∀ d i j, t.Lists d i → t.Lists d j → (t.nodes i).filename = (t.nodes j).filename → i = j
  root : t.LiveRoot (rootOf t.rootFileSystem) ∧ ¬ t.Free (rootOf t.rootFileSystem)

/-- The new path of `do_linkat` names an entry already. -/
def Existing (n : Nat) (t : Tree) (c : Caller) (oldDirFd : Int) (oldPath : List Byte) (newDirFd : Int) (newPath : List Byte)
    (d : Nat) : Prop :=
  ∃ e t₁ p name t₂, metaName n t c oldDirFd oldPath true = .ok (some e, t₁) ∧
    metaNameDir n t₁ c newDirFd newPath = .ok (some p, name, t₂) ∧ t₂.dirlookup p name = .ok (some d)

/-- Paths start in the tree, and what may be removed has no children. -/
def Meets (n : Nat) (t : Tree) : Op → Prop
  | .create c fd path _ _ => t.Stands c fd path
  | .linkat c oldDirFd oldPath newDirFd newPath => t.Stands c oldDirFd oldPath ∧ t.Stands c newDirFd newPath ∧
      ∀ d, t.Existing n c oldDirFd oldPath newDirFd newPath d → (t.nodes d).firstChild = none
  | .unlinkat c fd path => t.Stands c fd path ∧
      ∀ d t', metaName n t c fd path true = .ok (some d, t') → (t.nodes d).firstChild = none

section Step

variable {t t' : Tree} {free : List Nat} {kids : Nat → List Nat} {c : Caller} {n : Nat}
  {oldPath newPath : List Byte} {oldDirFd newDirFd : Int} {r : Int}

theorem Good.wellFormed (h : Good t free kids) : t.WellFormed := by
  have hs := h.shape
  refine ⟨fun i hi => ?_, fun d i hi => hs.parent d i ((hs.lists_iff d i).mp hi), hs.namesDiffer_iff.mpr h.names,
    ⟨_, h.mounted.root, rfl⟩, fun hf => ?_⟩
  · rcases hs.placed i hi with hf | hf | ⟨d, hd⟩
    · refine .inl ⟨(hs.free_iff i).mpr hf, fun d hd => hs.apart d i ((hs.lists_iff d i).mp hd) hf⟩
    · cases hf
    · have hne : kids d ≠ [] := List.ne_nil_of_mem hd
      refine .inr ⟨fun hf => hs.apart d i hd ((hs.free_iff i).mp hf), d, (hs.inTree_iff d).mpr (hs.rooted d hne), hs.dirs d hne,
        (hs.lists_iff d i).mpr hd, fun e he => ?_⟩
      have hpe := hs.parent e i ((hs.lists_iff e i).mp he)
      rw [hs.parent d i hd] at hpe
      exact (Option.some.inj hpe).symm
  · have := hs.free_lt _ ((hs.free_iff _).mp hf)
    unfold rootOf at this
    omega

/-- `do_linkat` finds no entry to link to, or no directory to link in. -/
def Misses (n : Nat) (t : Tree) (c : Caller) (oldDirFd : Int) (oldPath : List Byte) (newDirFd : Int) (newPath : List Byte)
    (t' : Tree) : Prop :=
  metaName n t c oldDirFd oldPath true = .ok (none, t') ∨
  ∃ e t₁ name, metaName n t c oldDirFd oldPath true = .ok (some e, t₁) ∧ metaNameDir n t₁ c newDirFd newPath = .ok (none, name, t')

theorem Misses.still (h : t.Misses n c oldDirFd oldPath newDirFd newPath t') : Still t t' := by
  rcases h with hold | ⟨e, t₁, name, hold, hdir⟩
  · exact still_metaName hold
  · exact (still_metaName hold).trans (still_lookupPath hdir)

/-- `target`, the entry at the new path, becomes a link to `e`, or is removed if the path of `e` is too long or cannot be
written. -/
def LinkedTo (t : Tree) (e target : Nat) (r : Int) (t' : Tree) : Prop :=
  (t.getAbsolutePath e FAT32_MAX_PATH = none ∧ r = -1 ∧ t.metaRemove target = .ok t') ∨
  ∃ buf k t₁, t.getAbsolutePath e FAT32_MAX_PATH = some buf ∧ t.metaWrite target (buf ++ [0]) 0 (buf.length + 1) = .ok (k, t₁) ∧
    ((k ≠ buf.length + 1 ∧ r = -1 ∧ t₁.metaRemove target = .ok t') ∨
      (k = buf.length + 1 ∧ r = 0 ∧ t' = t₁.setMeta target { t₁.dirMetas target with reserve := DT_LNK }))

theorem linkFailed_ok {d : Nat} (hr : t.linkFailed d = .ok (r, t')) : r = -1 ∧ t.metaRemove d = .ok t' := by
  unfold Tree.linkFailed at hr
  cases hrem : t.metaRemove d with
  | error e =>
    rw [hrem] at hr
    cases hr
  | ok t₁ =>
    rw [hrem] at hr
    cases hr
    exact ⟨rfl, rfl⟩

/-- **What `do_linkat` does**: it finds no entry to link to or no directory to link in, or turns the entry at the new
path into a link. -/
theorem do_linkat_cases (hr : do_linkat n t c oldDirFd oldPath newDirFd newPath = .ok (r, t')) :
    (r = -1 ∧ t.Misses n c oldDirFd oldPath newDirFd newPath t') ∨
    ∃ e t₁ target t₂, metaName n t c oldDirFd oldPath true = .ok (some e, t₁) ∧
      Tree.metaCreate n t₁ c newDirFd newPath .file 2 = .ok (some target, t₂) ∧ t₂.LinkedTo e target r t' := by
  unfold Tree.do_linkat at hr
  cases hold : metaName n t c oldDirFd oldPath true with
  | error e =>
    rw [hold] at hr
    cases hr
  | ok q =>
    obtain ⟨e, t₁⟩ := q
    rw [hold] at hr
    cases e with
    | none =>
      cases hr
      exact .inl ⟨rfl, .inl hold⟩
    | some e =>
      dsimp only at hr
      cases hcreate : Tree.metaCreate n t₁ c newDirFd newPath .file 2 with
      | error e =>
        rw [hcreate] at hr
        cases hr
      | ok q =>
        obtain ⟨target, t₂⟩ := q
        rw [hcreate] at hr
        cases target with
        | none =>
          cases hr
          rcases metaCreate_cases hcreate with ⟨name, hdir, -⟩ | ⟨-, -, -, d, -, -, hd⟩
          · exact .inl ⟨rfl, .inr ⟨e, t₁, name, hold, hdir⟩⟩
          · cases hd
        | some target =>
          refine .inr ⟨e, t₁, target, t₂, rfl, hcreate, ?_⟩
          dsimp only at hr
          cases habs : t₂.getAbsolutePath e FAT32_MAX_PATH with
          | none =>
            rw [habs] at hr
            obtain ⟨hr₁, hrem⟩ := linkFailed_ok hr
            exact .inl ⟨habs, hr₁, hrem⟩
          | some buf =>
            rw [habs] at hr
            dsimp only at hr
            cases hw : t₂.metaWrite target (buf ++ [0]) 0 (buf.length + 1) with
            | error e =>
              rw [hw] at hr
              cases hr
            | ok q =>
              obtain ⟨k, t₃⟩ := q
              rw [hw] at hr
              dsimp only at hr
              refine .inr ⟨buf, k, t₃, habs, hw, ?_⟩
              split at hr
              · obtain ⟨hr₁, hrem⟩ := linkFailed_ok hr
                exact .inl ⟨‹_›, hr₁, hrem⟩
              · cases hr
                exact .inr ⟨not_ne_iff.mp ‹_›, rfl, rfl⟩

/-- What `do_linkat` removes it has not changed the pointers of before. -/
theorem LinkedTo.cases {e target : Nat} (h : t.LinkedTo e target r t') : ∃ t₁, Still t t₁ ∧
    ((r = -1 ∧ t₁.metaRemove target = .ok t') ∨
      (r = 0 ∧ t' = t₁.setMeta target { t₁.dirMetas target with reserve := DT_LNK })) := by
  rcases h with ⟨-, hr, hrem⟩ | ⟨buf, k, t₁, -, hw, ⟨-, hr, hrem⟩ | ⟨-, hr, ht⟩⟩
  · exact ⟨t, .refl t, .inl ⟨hr, hrem⟩⟩
  · exact ⟨t₁, still_metaWrite hw, .inl ⟨hr, hrem⟩⟩
  · exact ⟨t₁, still_metaWrite hw, .inr ⟨hr, ht⟩⟩

/-- **What `do_unlinkat` does**: it finds nothing, or empties the entry and removes it. -/
theorem do_unlinkat_cases {fd : Int} {path : List Byte} (hr : do_unlinkat n t c fd path = .ok (r, t')) :
    (r = -1 ∧ metaName n t c fd path true = .ok (none, t')) ∨
    ∃ d t₁ t₂, r = 0 ∧ metaName n t c fd path true = .ok (some d, t₁) ∧ t₁.metaTrunc d = .ok t₂ ∧
      (t₂.setMeta d { t₂.dirMetas d with reserve := 0 }).metaRemove d = .ok t' := by
  unfold Tree.do_unlinkat at hr
  cases hname : metaName n t c fd path true with
  | error e =>
    rw [hname] at hr
    cases hr
  | ok q =>
    obtain ⟨d, t₁⟩ := q
    rw [hname] at hr
    cases d with
    | none =>
      cases hr
      exact .inl ⟨rfl, rfl⟩
    | some d =>
      dsimp only at hr
      cases htrunc : t₁.metaTrunc d with
      | error e =>
        rw [htrunc] at hr
        cases hr
      | ok t₂ =>
        rw [htrunc] at hr
        dsimp only at hr
        cases hrem : (t₂.setMeta d { t₂.dirMetas d with reserve := 0 }).metaRemove d with
        | error e =>
          rw [hrem] at hr
          cases hr
        | ok t₃ =>
          rw [hrem] at hr
          cases hr
          exact .inr ⟨d, t₁, t₂, rfl, rfl, htrunc, hrem⟩

/-- **`do_linkat`** removes at most the entry that its new path named before. -/
theorem Sound.do_linkat (h : Sound t free kids) (ho : t.Stands c oldDirFd oldPath) (hn : t.Stands c newDirFd newPath)
    (hleaf : ∀ d, t.Existing n c oldDirFd oldPath newDirFd newPath d → (t.nodes d).firstChild = none)
    (hr : do_linkat n t c oldDirFd oldPath newDirFd newPath = .ok (r, t')) :
    Leaves t t' (t.Existing n c oldDirFd oldPath newDirFd newPath) := by
  rcases do_linkat_cases hr with ⟨-, hmiss⟩ | ⟨e, t₁, target, t₂, hold, hcreate, hlink⟩
  · exact (h.leaves_still hmiss.still).mono fun _ _ => False.elim
  · obtain ⟨hs, -⟩ := metaName_rooted h.shape h.mounted ho hold
    have h₁ := h.still hs
    obtain ⟨hl₂, htarget⟩ := h₁.metaCreate (hn.still hs) hcreate
    have hl := (h.leaves_still hs).after hl₂
    obtain ⟨free₂, kids₂, h₂⟩ := hl₂.sound
    obtain ⟨hin, hfirst⟩ := htarget target rfl
    have hleaf₂ : (t₂.nodes target).firstChild = none := by
      rcases hfirst with ⟨p, name, t₃, hdir, hlook, hs₂⟩ | ⟨hnone, -⟩
      · rw [hs₂.nodes, hs.nodes]
        exact hleaf target ⟨e, t₁, p, name, t₃, hold, hdir, hlook⟩
      · exact hnone
    -- when the target goes, it was there before or is new
    have hgone : ∀ d, t.InTree d → d = target → t.Existing n c oldDirFd oldPath newDirFd newPath d := by
      intro d hd hdt
      subst hdt
      rcases hfirst with ⟨p, name, t₃, hdir, hlook, -⟩ | ⟨-, hfree⟩
      · exact ⟨e, t₁, p, name, t₃, hold, hdir, hlook⟩
      · exact absurd hfree (h₁.not_free ((hs.inTree d).mpr hd))
    obtain ⟨t₃, hs₃, ⟨-, hrem⟩ | ⟨-, rfl⟩⟩ := hlink.cases
    · have hleaf₃ : (t₃.nodes target).firstChild = none := by
        rw [hs₃.nodes]
        exact hleaf₂
      have hl₃ := hl.after (h₂.leaves_still hs₃)
      exact (hl₃.after ((h₂.still hs₃).metaRemove ((hs₃.inTree target).mpr hin) hleaf₃ hrem)).mono hgone
    · have hl₄ : Leaves t₃ (t₃.setMeta target { t₃.dirMetas target with reserve := DT_LNK }) fun _ => False :=
        (h₂.still hs₃).leaves_setMeta rfl
      exact ((hl.after (h₂.leaves_still hs₃)).after hl₄).mono fun _ _ => False.elim

/-- **`do_unlinkat`** removes the entry its path names. -/
theorem Sound.do_unlinkat (h : Sound t free kids) {fd : Int} {path : List Byte} (hc : t.Stands c fd path)
    (hleaf : ∀ d t', metaName n t c fd path true = .ok (some d, t') → (t.nodes d).firstChild = none)
    (hr : do_unlinkat n t c fd path = .ok (r, t')) :
    Leaves t t' fun d => ∃ t₁, metaName n t c fd path true = .ok (some d, t₁) := by
  rcases do_unlinkat_cases hr with ⟨-, hname⟩ | ⟨d, t₁, t₂, -, hname, htrunc, hrem⟩
  · exact (h.leaves_still (still_metaName hname)).mono fun _ _ => False.elim
  · obtain ⟨hs, hin⟩ := metaName_rooted h.shape h.mounted hc hname
    have h₁ := h.still hs
    have hs₂ := still_metaTrunc htrunc
    have h₂ := h₁.still hs₂
    have hl₃ : Leaves t₂ (t₂.setMeta d { t₂.dirMetas d with reserve := 0 }) fun _ => False := h₂.leaves_setMeta rfl
    obtain ⟨free₃, kids₃, h₃⟩ := hl₃.sound
    have hd₂ : t₂.InTree d := (hs₂.inTree d).mpr ((hs.inTree d).mpr (hin d rfl))
    have hleaf₂ : (t₂.nodes d).firstChild = none := by
      rw [hs₂.nodes, hs.nodes]
      exact hleaf d t₁ hname
    have hl := ((h.leaves_still hs).after (h₁.leaves_still hs₂)).after
      (hl₃.after (h₃.metaRemove (hl₃.inTree d hd₂ id) hleaf₂ hrem))
    refine hl.mono fun x _ hx => ⟨t₁, ?_⟩
    rw [hx]
    exact hname

/-- One step keeps the invariant. -/
theorem Inv.exec (h : t.Inv) {op : Op} (hm : t.Meets n op) (hr : t.exec n op = .ok t') : t'.Inv := by
  obtain ⟨free, kids, hg⟩ := id h
  cases op with
  | create c fd path type mode =>
    obtain ⟨⟨r, t₁⟩, hc, rfl⟩ := Loop.map_ok hr
    exact (hg.toSound.metaCreate hm hc).1.inv h
  | linkat c oldDirFd oldPath newDirFd newPath =>
    obtain ⟨⟨r, t₁⟩, hc, rfl⟩ := Loop.map_ok hr
    exact (hg.toSound.do_linkat hm.1 hm.2.1 hm.2.2 hc).inv h
  | unlinkat c fd path =>
    obtain ⟨⟨r, t₁⟩, hc, rfl⟩ := Loop.map_ok hr
    exact (hg.toSound.do_unlinkat hm.1 hm.2 hc).inv h

end Step

/-- The states that steps of `P` reach from the loaded root. -/
def Reached (P : Nat → Tree → Op → Prop) : Tree → Prop :=
  Run.Reach (fun t => ∃ d, bootRoot d = .ok t ∧ t.NamesDiffer) fun t t' => ∃ n op, P n t op ∧ t.exec n op = .ok t'

theorem Reached.inv {t : Tree} (h : Reached Meets t) : t.Inv := by
  refine h.invariant (fun t ht => ?_) fun t t' hi ⟨n, op, hm, hr⟩ => hi.exec hm hr
  obtain ⟨d, hd, hn⟩ := ht
  obtain ⟨free, kids, hs, hm⟩ := shape_bootRoot hd
  exact ⟨free, kids, ⟨hs, hm⟩, hs.namesDiffer_iff.mp hn⟩

/-- **The tree stays a tree**: whatever is created, linked and removed after the root has been loaded, as
long as paths start in the tree and what is removed has no children. -/
theorem wellFormed_of_reached (t : Tree) (h : Reached Meets t) : t.WellFormed := by
  obtain ⟨free, kids, hg⟩ := h.inv
  exact hg.wellFormed

/-! ## A directory with an entry -/

theorem bootRoot_small (tot : Byte) {e : Dentry} (hread : rwClusRead (smallFs tot) 2 0 32 = .ok (32, e))
    (he : e.order = END_OF_ENTRY) : bootRoot (smallDisk tot) = .ok (rootSet (smallFs tot)) := by
  rw [bootRoot_eq]
  unfold Tree.fatInit
  have hpool : Fat.fatInit (smallDisk tot) pooled.inodes pooled.inodeBitmap = .ok (smallFs tot) := fatInit_small
  rw [hpool]
  have hroot : (smallFs tot).superBlock.rootClus = 2 := rfl
  exact load_empty (by rw [hroot]; decide) hread he

theorem reached_small (P : Nat → Tree → Op → Prop) : Reached P (rootSet (smallFs 4)) := by
  refine .init ⟨smallDisk 4, bootRoot_small 4 rfl rfl, ?_⟩
  rw [(shape_rootSet (smallFs 4)).namesDiffer_iff]
  exact fun _ => List.nodup_nil

/-- A process that has no working directory yet. -/
def atBoot : Caller := ⟨none, fun _ => none, fun _ => []⟩

/-- Boot on a small volume whose root, which is empty, is loaded already. -/
def booted : Except Halt Tree := do
  let t ← [BootEntry.write (bytes "/auto.sh") .file [], .create (bytes "/var/tmp/XXX") .file,
    .create (bytes "/dev") .dir].foldlM (bootEntry 1 atBoot) (rootSet (smallFs 40))
  let t ← bootVda2 1 atBoot t
  bootEntries.foldlM (bootEntry 1 atBoot) t

theorem initRootFileSystem_small : initRootFileSystem 1 atBoot [] (smallDisk 40) = booted := by
  unfold initRootFileSystem
  rw [bootRoot_small 40 rfl rfl, Loop.ok_bind]
  rfl

/-- `/a` and `/a/b` -/
def pathA : List Byte := [slash, 0x61]
def pathAB : List Byte := [slash, 0x61, slash, 0x62]

def mkdirA : Op := .create atBoot AT_FDCWD pathA .dir 0
def createAB : Op := .create atBoot AT_FDCWD pathAB .file 0
def unlinkA : Op := .unlinkat atBoot AT_FDCWD pathA
def unlinkAB : Op := .unlinkat atBoot AT_FDCWD pathAB

/-- The directory `/a` with the file `/a/b`. -/
def nested : Except Halt Tree := do
  let t ← (rootSet (smallFs 4)).exec 1 mkdirA
  t.exec 1 createAB

/-- The file removed again. -/
def emptied : Except Halt Tree := do
  let t ← nested
  t.exec 1 unlinkAB

/-- The directory removed with the file in it. -/
def orphaned : Except Halt Tree := do
  let t ← nested
  t.exec 1 unlinkA

theorem nested_file : (nested.toOption.map fun t =>
    ((metaName 1 t atBoot AT_FDCWD pathAB true).toOption.map Prod.fst, (t.nodes (DIRMETA_NUM - 2)).firstChild)) =
      some (some (some (DIRMETA_NUM - 2)), none) := by
  decide +kernel

theorem emptied_root : (emptied.toOption.map fun t => (t.nodes (rootOf 0)).firstChild) = some (some (DIRMETA_NUM - 1)) := by
  decide +kernel

theorem orphaned_nodes : (orphaned.toOption.map fun t =>
    ((t.nodes (DIRMETA_NUM - 1)).firstChild, (t.nodes (DIRMETA_NUM - 2)).nextBrother, (t.nodes (DIRMETA_NUM - 1)).parent,
      (t.nodes (rootOf 0)).firstChild)) = some (some (DIRMETA_NUM - 2), none, some (rootOf 0), none) := by
  decide +kernel

theorem stands_atBoot {t : Tree} (h : t.Inv) (path : List Byte) : t.Stands atBoot AT_FDCWD path := by
  obtain ⟨free, kids, h⟩ := h
  have hcwd : ∀ d, atBoot.cwd = some d → Rooted t.LiveRoot kids d := fun d hd => by cases hd
  exact ⟨fun d hd => (by cases hd), fun d hd => (h.shape.inTree_iff d).mpr (anchored_cwd h.mounted hcwd path d hd)⟩

/-- Creating `/a` and `/a/b` and removing the file. -/
theorem wellFormed_emptied : ∃ t, Reached Meets t ∧ (t.nodes (rootOf 0)).firstChild = some (DIRMETA_NUM - 1) ∧ t.WellFormed := by
  obtain ⟨t, ht, hroot⟩ := Loop.exists_of_toOption emptied_root
  obtain ⟨t₂, h₂, hunlink⟩ := Loop.bind_ok ht
  have hr₀ := reached_small Meets
  obtain ⟨t₁, hmkdir, hcreate⟩ := Loop.bind_ok h₂
  have hr₁ : Reached Meets t₁ := hr₀.step ⟨1, mkdirA, stands_atBoot hr₀.inv pathA, hmkdir⟩
  have hr₂ : Reached Meets t₂ := hr₁.step ⟨1, createAB, stands_atBoot hr₁.inv pathAB, hcreate⟩
  have hleaf : ∀ d t', metaName 1 t₂ atBoot AT_FDCWD pathAB true = .ok (some d, t') → (t₂.nodes d).firstChild = none := by
    intro d t' hname
    obtain ⟨t₃, h₃, hfile⟩ := Loop.exists_of_toOption nested_file
    rw [h₂] at h₃
    cases h₃
    rw [hname] at hfile
    obtain ⟨hd, hnone⟩ := Prod.mk.inj hfile
    have hd : d = DIRMETA_NUM - 2 := Option.some.inj (Option.some.inj hd)
    rw [hd]
    exact hnone
  have hr₃ : Reached Meets t := hr₂.step ⟨1, unlinkAB, ⟨stands_atBoot hr₂.inv pathAB, hleaf⟩, hunlink⟩
  exact ⟨t, hr₃, hroot, wellFormed_of_reached t hr₃⟩

/-- Removing `/a` with `/a/b` in it: the file stays in the list of a directory that nothing lists. -/
theorem not_wellFormed_orphaned : ¬ ∀ t : Tree, Reached (fun _ _ _ => True) t → t.WellFormed := by
  intro hall
  obtain ⟨t, ht, hnodes⟩ := Loop.exists_of_toOption orphaned_nodes
  obtain ⟨t₂, h₂, hunlink⟩ := Loop.bind_ok ht
  obtain ⟨t₁, hmkdir, hcreate⟩ := Loop.bind_ok h₂
  have hr₁ : Reached (fun _ _ _ => True) t₁ := (reached_small _).step ⟨1, mkdirA, trivial, hmkdir⟩
  have hr₂ : Reached (fun _ _ _ => True) t₂ := hr₁.step ⟨1, createAB, trivial, hcreate⟩
  have hwf := hall t (hr₂.step ⟨1, unlinkA, trivial, hunlink⟩)
  obtain ⟨hfirst, hrest⟩ := Prod.mk.inj hnodes
  obtain ⟨hnext, hrest⟩ := Prod.mk.inj hrest
  obtain ⟨hparent, hroot⟩ := Prod.mk.inj hrest
  -- the file is in the list of `/a`
  have hlists : t.Lists (DIRMETA_NUM - 1) (DIRMETA_NUM - 2) := by
    refine ⟨[DIRMETA_NUM - 2], ?_, List.mem_cons_self ..⟩
    rw [hfirst]
    refine .cons ?_
    show Cells t.next (t.nodes (DIRMETA_NUM - 2)).nextBrother []
    rw [hnext]
    exact .nil
  have hnoroot : ∀ i, ¬ t.Lists (rootOf 0) i := by
    rintro i ⟨l, hl, hi⟩
    rw [hroot] at hl
    cases hl
    cases hi
  rcases hwf.placed (DIRMETA_NUM - 2) (by decide) with ⟨-, hno⟩ | ⟨-, d, hd, -, -, honly⟩
  · exact hno _ hlists
  · -- so `/a` would have to be in the tree, below its parent, the root
    have hda := honly _ hlists
    rw [← hda] at hd
    cases hd with
    | root hr =>
      obtain ⟨f, -, hf⟩ := hr
      unfold rootOf DIRMETA_NUM at hf
      omega
    | @child e _ _ he =>
      have hpe := hwf.parent e _ he
      rw [hparent] at hpe
      cases hpe
      exact hnoroot _ he

end Tree

end Exaros.Dir
