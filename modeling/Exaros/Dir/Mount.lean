import Exaros.Dir.Runs

/-!
# Mounting

`syscallMount` and `syscallUmount` (`kernel/trap/syscall.c`). The file systems mounted on a directory are a
list that starts at its `head`, the last mounted first. `World` adds to the tree what the calls so far have
mounted on each directory and not unmounted again, which only the statements read.

`umount` looks neither at what it invalidates, which at `/dev/vda2` is the root, nor at what is mounted on
the root of what it invalidates; `fsAlloc` clears that root with the rest of the element.
-/

namespace Exaros.Dir

open Fat Linked
open Function (update update_self update_of_ne)

/-- What `syscallMount` is given: the strings are those `fetchstr` reads, `none` where it fails. -/
structure MountArgs where
  type : Option (List Byte)
  image : Option (List Byte)
  point : Option (List Byte)
  /-- the outer `none` is a null pointer -/
  data : Option (Option (List Byte))
  flag : Int
  /-- `filealloc` finds a file -/
  file : Bool
  /-- the blocks `mountBlockRead` reads from the image -/
  blocks : Disk

namespace Tree

/-- `fetchstr` and the `metaName` behind it; `none` where either fails. -/
def fetchName (n : Nat) (t : Tree) (c : Caller) (path : Option (List Byte)) : Except Halt (Option Nat × Tree) :=
  match path with
  | none => .ok (none, t)
  | some path => metaName n t c AT_FDCWD path true

/-- File system `f` put in front of the list of `m`. -/
def mountOn (t : Tree) (m f : Nat) : Tree :=
  { t with
    fileSystem := update t.fileSystem f { t.fileSystem f with next := (t.nodes m).head }
    nodes := update t.nodes m { t.nodes m with head := some f } }

/-- `syscallMount`: `none` is -1, otherwise the directory and what has been mounted on it. -/
def syscallMount (n : Nat) (t : Tree) (c : Caller) (a : MountArgs) : Except Halt (Option (Nat × Nat) × Tree) :=
  if a.type.map (·.take 4) ≠ some (bytes "vfat") then .ok (none, t)
  else
    match fetchName n t c a.image with
    | .error e => .error e
    | .ok (none, t) => .ok (none, t)
    | .ok (some _, t) =>
      match fetchName n t c a.point with
      | .error e => .error e
      | .ok (none, t) => .ok (none, t)
      | .ok (some m, t) =>
        if a.data = some none then .ok (none, t)
        else if a.flag ≠ 0 then .error .flag
        else
          match t.fsAlloc with
          | none => .ok (none, t)
          | some (f, t) =>
            if ¬ a.file then .error .null
            else
              match t.fatInit f a.blocks with
              | .error e => .error e
              | .ok t => .ok (some (m, f), t.mountOn m f)

/-- The first file system of the list of `m` taken out. -/
def umountFrom (t : Tree) (m f : Nat) : Tree :=
  { t with
    fileSystem := update t.fileSystem f { t.fileSystem f with valid := false }
    nodes := update t.nodes m { t.nodes m with head := (t.fileSystem f).next } }

/-- `syscallUmount`: `none` is -1, otherwise the directory. -/
def syscallUmount (n : Nat) (t : Tree) (c : Caller) (path : Option (List Byte)) (flag : Int) : Except Halt (Option Nat × Tree) :=
  match fetchName n t c path with
  | .error e => .error e
  | .ok (none, t) => .ok (none, t)
  | .ok (some m, t) =>
    if flag ≠ 0 then .error .flag
    else
      match (t.nodes m).head with
      | none => .ok (none, t)
      | some f => .ok (some m, t.umountFrom m f)

end Tree

inductive Call where
  | mount (c : Caller) (a : MountArgs)
  | umount (c : Caller) (path : Option (List Byte)) (flag : Int)

/-- The tree, and what is mounted on each directory and not unmounted again, the last first. -/
structure World where
  tree : Tree
  mounts : Nat → List Nat

namespace World

def pushed (w : World) : Option (Nat × Nat) → Nat → List Nat
  | none => w.mounts
  | some (m, f) => update w.mounts m (f :: w.mounts m)

def popped (w : World) : Option Nat → Nat → List Nat
  | none => w.mounts
  | some m => update w.mounts m (w.mounts m).tail

def exec (n : Nat) (w : World) : Call → Except Halt World
  | .mount c a => (w.tree.syscallMount n c a).map fun (r, t) => ⟨t, w.pushed r⟩
  | .umount c path flag => (w.tree.syscallUmount n c path flag).map fun (r, t) => ⟨t, w.popped r⟩

/-- Mounts are stacks: the lists are what has been mounted, below a directory is the last of it, and
neither that nor the root is handed out again. -/
structure Stacked (w : World) : Prop where
  listed : ∀ d, Cells (fun f => (w.tree.fileSystem f).next) (w.tree.nodes d).head (w.mounts d)
  seen : ∀ d, w.tree.below d = (w.mounts d).head?.elim d rootOf
  fresh : ∀ f t, w.tree.fsAlloc = some (f, t) → f ≠ w.tree.rootFileSystem ∧ ∀ d, f ∉ w.mounts d
  root : (w.tree.fileSystem w.tree.rootFileSystem).valid = true

/-- What is unmounted is not the root, and the element a mount takes has nothing mounted on its root. -/
def Meets (n : Nat) (w : World) : Call → Prop
  | .mount _ _ => ∀ f t, w.tree.fsAlloc = some (f, t) → (w.tree.nodes (rootOf f)).head = none
  | .umount c path _ => ∀ m t, w.tree.fetchName n c path = .ok (some m, t) →
      (w.tree.nodes m).head ≠ some w.tree.rootFileSystem

/-- The state `initRootFileSystem` leaves: what it counts as mounted is what it has put into a `head`. -/
def Booted (w : World) : Prop :=
  (∃ n c script d, Tree.initRootFileSystem n c script d = .ok w.tree) ∧ ∀ d, w.mounts d = (w.tree.nodes d).head.toList

/-- The states that calls of `P` reach. -/
def Reached (P : Nat → World → Call → Prop) : World → Prop :=
  Run.Reach Booted fun w w' => ∃ n call, P n w call ∧ w.exec n call = .ok w'

end World

namespace Tree

/-! ## What keeps the lists -/

/-- The mounts stay, whatever becomes of entries and files. -/
structure Held (t t' : Tree) : Prop where
  head : ∀ d, (t'.nodes d).head = (t.nodes d).head
  slot : ∀ f, (t'.fileSystem f).valid = (t.fileSystem f).valid ∧ (t'.fileSystem f).next = (t.fileSystem f).next
  rootFileSystem : t'.rootFileSystem = t.rootFileSystem

section Held

variable {t t' t'' : Tree} {d f parent child off : Nat} {c : Caller} {n : Nat} {r : Option Nat}

theorem Held.refl (t : Tree) : Held t t := ⟨fun _ => rfl, fun _ => ⟨rfl, rfl⟩, rfl⟩

theorem Held.trans (h : Held t t') (h' : Held t' t'') : Held t t'' where
  head d := (h'.head d).trans (h.head d)
  slot f := ⟨(h'.slot f).1.trans (h.slot f).1, (h'.slot f).2.trans (h.slot f).2⟩
  rootFileSystem := h'.rootFileSystem.trans h.rootFileSystem

theorem Still.held (h : Still t t') : Held t t' := by
  refine ⟨fun d => ?_, h.slot, h.rootFileSystem⟩
  rw [h.nodes]

theorem Relinked.held (h : Relinked t t') : Held t t' := by
  refine ⟨fun d => (h.node d).2.2.1, fun f => ?_, h.rootFileSystem⟩
  rw [h.fileSystem]
  exact ⟨rfl, rfl⟩

theorem Decoded.held (h : Decoded t child t') : Held t t' := ⟨fun d => (h.node d).1, h.slot, h.rootFileSystem⟩

theorem held_setNode (t : Tree) (x : Nat) (node : Node) (hhead : node.head = (t.nodes x).head) : Held t (t.setNode x node) := by
  refine ⟨fun d => ?_, fun _ => ⟨rfl, rfl⟩, rfl⟩
  by_cases hd : d = x
  · subst hd
    simp [Tree.setNode, hhead]
  · simp [Tree.setNode, hd]

theorem held_setMeta (t : Tree) (x : Nat) (dm : DirMeta) : Held t (t.setMeta x dm) := ⟨fun _ => rfl, fun _ => ⟨rfl, rfl⟩, rfl⟩

theorem held_setVolume (t : Tree) (f : Nat) (fs : FileSystem) : Held t (t.setVolume f fs) := by
  refine ⟨fun _ => rfl, fun g => ?_, rfl⟩
  by_cases hg : g = f
  · subst hg
    simp [Tree.setVolume]
  · simp [Tree.setVolume, hg]

theorem held_setFile (t : Tree) (x : Nat) (fs : FileSystem) (dm : DirMeta) : Held t (t.setFile x fs dm) :=
  (held_setVolume t (t.fsOf x) fs).trans (held_setMeta _ x dm)

theorem held_dirMetaAlloc (h : t.dirMetaAlloc = .ok (d, t')) : Held t t' := by
  unfold Tree.dirMetaAlloc at h
  cases hh : t.dirMetaHead with
  | none =>
    rw [hh] at h
    cases h
  | some x =>
    rw [hh] at h
    cases h
    exact ⟨fun _ => rfl, fun _ => ⟨rfl, rfl⟩, rfl⟩

theorem held_link (t : Tree) (d parent : Nat) (name : List Byte) : Held t (t.link d parent name) := by
  refine .trans ?_ (held_setNode _ parent _ rfl)
  apply held_setNode
  rfl

theorem held_adopt (t : Tree) (f parent child off : Nat) : Held t (t.adopt f parent child off) := by
  refine .trans ?_ (held_setNode _ parent _ rfl)
  apply held_setNode
  rfl

theorem held_loadLoop (n : Nat) (hr : loadLoop n t f parent child off = .ok t') : Held t t' := by
  induction n generalizing t t' parent child off with
  | zero => cases hr
  | succ n ih =>
    obtain ⟨r, t₁, hnext, hr⟩ := loadLoop_ok hr
    have h₁ := (decoded_dirMetaNext hnext).held
    rcases hr with rfl | ⟨count, t₃, spare, t₆, hsub, halloc, hr⟩
    · exact h₁.trans (relinked_dirMetaFree t₁ child).held
    · have h₂ := held_adopt t₁ f parent child off
      have h₃ : Held (t₁.adopt f parent child off) t₃ := by
        rcases hsub with ⟨-, t₄, first, t₅, hreloc, hfirst, hsub⟩ | rfl
        · exact ((still_relocStart hreloc).held.trans (held_dirMetaAlloc hfirst)).trans (ih hsub)
        · exact .refl _
      exact ((h₁.trans (h₂.trans h₃)).trans (held_dirMetaAlloc halloc)).trans (ih hr)

theorem held_loadDirMetas (hr : t.loadDirMetas f parent = .ok t') : Held t t' := by
  obtain ⟨t₁, hreloc, hr⟩ := Loop.bind_ok hr
  obtain ⟨⟨spare, t₂⟩, halloc, hr⟩ := Loop.bind_ok hr
  exact ((still_relocStart hreloc).held.trans (held_dirMetaAlloc halloc)).trans (held_loadLoop _ hr)

theorem held_metaAlloc {name : List Byte} {attr : Nat} (hr : t.metaAlloc parent name attr = .ok (d, t')) : Held t t' := by
  obtain ⟨-, ⟨-, rfl⟩ | ⟨t₁, fs, dm, -, ha, -, rfl⟩⟩ := metaAlloc_cases hr
  · exact .refl _
  · exact ((held_dirMetaAlloc ha).trans (held_link t₁ d parent name)).trans (held_setFile _ d fs dm)

theorem held_metaCreate {fd : Int} {path : List Byte} {type : FileType} {mode : Nat}
    (hr : metaCreate n t c fd path type mode = .ok (r, t')) : Held t t' := by
  rcases metaCreate_cases hr with ⟨name, hdir, -⟩ | ⟨p, name, t₁, d, hdir, hal, -⟩
  · exact (still_lookupPath hdir).held
  · exact (still_lookupPath hdir).held.trans (held_metaAlloc hal)

theorem still_fetchName {path : Option (List Byte)} (hr : t.fetchName n c path = .ok (r, t')) : Still t t' := by
  cases path with
  | none =>
    cases hr
    exact .refl _
  | some path => exact still_metaName hr

theorem Held.fsAlloc (h : Held t t') : (t'.fsAlloc).map Prod.fst = (t.fsAlloc).map Prod.fst := by
  have hfind : ((List.range FILE_SYSTEMS).find? fun i => !(t'.fileSystem i).valid) =
      (List.range FILE_SYSTEMS).find? fun i => !(t.fileSystem i).valid := by
    simp only [(h.slot _).1]
  unfold Tree.fsAlloc
  rw [hfind]
  cases (List.range FILE_SYSTEMS).find? fun i => !(t.fileSystem i).valid with
  | none => rfl
  | some i => rfl

/-- `fsAlloc` finds an element that is not in use, and clears it with its root. -/
theorem fsAlloc_spec (h : t.fsAlloc = some (f, t')) :
    (t.fileSystem f).valid = false ∧ t'.fileSystem = update t.fileSystem f ⟨true, zeroVolume, none⟩ ∧
      t'.nodes = update t.nodes (rootOf f) zeroNode ∧ t'.rootFileSystem = t.rootFileSystem := by
  unfold Tree.fsAlloc at h
  cases hfind : (List.range FILE_SYSTEMS).find? fun i => !(t.fileSystem i).valid with
  | none =>
    rw [hfind] at h
    cases h
  | some i =>
    rw [hfind] at h
    cases h
    have hvalid := List.find?_some hfind
    exact ⟨by simpa using hvalid, rfl, rfl, rfl⟩

/-- `fatInit` sets up a root on which nothing is mounted. -/
theorem fatInit_held {d : Disk} (h : t.fatInit f d = .ok t') :
    Held (t.setNode (rootOf f) { zeroNode with filename := [slash], fileSystem := f }) t' := by
  unfold Tree.fatInit at h
  cases hfat : Fat.fatInit d t.inodes t.inodeBitmap with
  | error e =>
    rw [hfat] at h
    cases h
  | ok fs =>
    rw [hfat] at h
    have hvol := held_setVolume (t.setNode (rootOf f) { zeroNode with filename := [slash], fileSystem := f }) f fs
    exact (hvol.trans (held_setMeta _ _ _)).trans (held_loadDirMetas h)

/-- **What `syscallMount` does**: it changes no pointer, or puts a fresh file system in front of a list. -/
theorem syscallMount_cases {a : MountArgs} {r : Option (Nat × Nat)} (hr : t.syscallMount n c a = .ok (r, t')) :
    (r = none ∧ Still t t') ∨
    ∃ m f t₀ t₁ t₂ t₃, r = some (m, f) ∧ Still t t₀ ∧ t₀.fetchName n c a.point = .ok (some m, t₁) ∧ t₁.fsAlloc = some (f, t₂) ∧
      t₂.fatInit f a.blocks = .ok t₃ ∧ t' = t₃.mountOn m f := by
  unfold Tree.syscallMount at hr
  split at hr
  · cases hr
    exact .inl ⟨rfl, .refl _⟩
  · cases himage : t.fetchName n c a.image with
    | error e =>
      rw [himage] at hr
      cases hr
    | ok q =>
      obtain ⟨image, t₁⟩ := q
      have h₁ := still_fetchName himage
      rw [himage] at hr
      cases image with
      | none =>
        cases hr
        exact .inl ⟨rfl, h₁⟩
      | some image =>
        dsimp only at hr
        cases hpoint : t₁.fetchName n c a.point with
        | error e =>
          rw [hpoint] at hr
          cases hr
        | ok q =>
          obtain ⟨point, t₂⟩ := q
          have h₂ := h₁.trans (still_fetchName hpoint)
          rw [hpoint] at hr
          cases point with
          | none =>
            cases hr
            exact .inl ⟨rfl, h₂⟩
          | some m =>
            dsimp only at hr
            split at hr
            · cases hr
              exact .inl ⟨rfl, h₂⟩
            · split at hr
              · cases hr
              · cases halloc : t₂.fsAlloc with
                | none =>
                  rw [halloc] at hr
                  cases hr
                  exact .inl ⟨rfl, h₂⟩
                | some q =>
                  obtain ⟨f, t₃⟩ := q
                  rw [halloc] at hr
                  dsimp only at hr
                  split at hr
                  · cases hr
                  · cases hfat : t₃.fatInit f a.blocks with
                    | error e =>
                      rw [hfat] at hr
                      cases hr
                    | ok t₄ =>
                      rw [hfat] at hr
                      cases hr
                      exact .inr ⟨m, f, t₁, t₂, t₃, t₄, rfl, h₁, hpoint, halloc, hfat, rfl⟩

/-- **What `syscallUmount` does**: nothing to the mounts, or the first of a list taken out. -/
theorem syscallUmount_cases {path : Option (List Byte)} {flag : Int} (hr : t.syscallUmount n c path flag = .ok (r, t')) :
    (r = none ∧ Held t t') ∨
    ∃ m f t₁, r = some m ∧ t.fetchName n c path = .ok (some m, t₁) ∧ (t₁.nodes m).head = some f ∧ t' = t₁.umountFrom m f := by
  unfold Tree.syscallUmount at hr
  cases hname : t.fetchName n c path with
  | error e =>
    rw [hname] at hr
    cases hr
  | ok q =>
    obtain ⟨m, t₁⟩ := q
    have h₁ := (still_fetchName hname).held
    rw [hname] at hr
    cases m with
    | none =>
      cases hr
      exact .inl ⟨rfl, h₁⟩
    | some m =>
      dsimp only at hr
      split at hr
      · cases hr
      · cases hhead : (t₁.nodes m).head with
        | none =>
          rw [hhead] at hr
          cases hr
          exact .inl ⟨rfl, h₁⟩
        | some f =>
          rw [hhead] at hr
          cases hr
          exact .inr ⟨m, f, t₁, rfl, rfl, hhead, rfl⟩

/-! ## The boot -/

theorem held_bootEntry {e : BootEntry} (hr : bootEntry n c t e = .ok t') : Held t t' := by
  obtain ⟨path, type, r, t₁, hc, rfl | ⟨d, -, ⟨dev, rfl⟩ | ⟨text, x, hw⟩⟩⟩ := bootEntry_cases hr
  · exact held_metaCreate hc
  · exact (held_metaCreate hc).trans (held_setMeta t₁ d _)
  · exact (held_metaCreate hc).trans (still_metaWrite hw).held

theorem held_bootEntries (es : List BootEntry) (hr : es.foldlM (bootEntry n c) t = .ok t') : Held t t' :=
  Loop.foldlM_inv hr (.refl t) fun _ _ _ h he => h.trans (held_bootEntry he)

/-- Nothing is mounted when the root has been loaded. -/
theorem bootRoot_mounts {d : Disk} (h : bootRoot d = .ok t) :
    (∀ x, (t.nodes x).head = none) ∧ t.rootFileSystem = 0 ∧ (t.fileSystem 0).valid = true ∧ (t.fileSystem 0).next = none := by
  obtain ⟨fs, -, hload⟩ := bootRoot_cases h
  have hh := held_loadDirMetas hload
  refine ⟨fun x => ?_, hh.rootFileSystem, ?_, ?_⟩
  · rw [hh.head]
    exact rootSet_head fs x
  · rw [(hh.slot 0).1, rootSet_fileSystem]
    rfl
  · rw [(hh.slot 0).2, rootSet_fileSystem]
    rfl

/-- **What boot mounts**: the root on one directory, `/dev/vda2`. -/
theorem initRootFileSystem_mounts {script : List Byte} {d : Disk} (h : initRootFileSystem n c script d = .ok t) :
    ∃ v, (∀ x, (t.nodes x).head = if x = v then some 0 else none) ∧ t.rootFileSystem = 0 ∧ (t.fileSystem 0).valid = true ∧
      (t.fileSystem 0).next = none := by
  obtain ⟨t₀, hroot, h⟩ := Loop.bind_ok h
  obtain ⟨t₁, hfirst, h⟩ := Loop.bind_ok h
  obtain ⟨t₂, hvda2, hrest⟩ := Loop.bind_ok h
  obtain ⟨hhead, hfs, hvalid, hnext⟩ := bootRoot_mounts hroot
  have h₁ := held_bootEntries _ hfirst
  have h₃ := held_bootEntries _ hrest
  obtain ⟨v, t₄, hc, rfl⟩ := bootVda2_cases hvda2
  have h₄ := h₁.trans (held_metaCreate hc)
  have hroot₄ : t₄.rootFileSystem = 0 := h₄.rootFileSystem.trans hfs
  refine ⟨v, fun x => ?_, h₃.rootFileSystem.trans hroot₄, ?_, ?_⟩
  · rw [h₃.head]
    by_cases hx : x = v
    · simp [Tree.setNode, hx, hroot₄]
    · simp [Tree.setNode, hx, h₄.head, hhead]
  · rw [(h₃.slot 0).1]
    exact (h₄.slot 0).1.trans hvalid
  · rw [(h₃.slot 0).2]
    exact (h₄.slot 0).2.trans hnext

end Held

end Tree

namespace World

/-! ## Steps -/

/-- The lists are what has been mounted, on one directory each, and in use. -/
structure Lined (w : World) : Prop where
  listed : ∀ d, Cells (fun f => (w.tree.fileSystem f).next) (w.tree.nodes d).head (w.mounts d)
  valid : ∀ d, ∀ f ∈ w.mounts d, (w.tree.fileSystem f).valid = true
  apart : ∀ d e f, f ∈ w.mounts d → f ∈ w.mounts e → d = e
  root : (w.tree.fileSystem w.tree.rootFileSystem).valid = true

section Step

variable {t t' : Tree} {mounts : Nat → List Nat} {m f : Nat}

theorem Lined.held (h : Lined ⟨t, mounts⟩) (hh : Tree.Held t t') : Lined ⟨t', mounts⟩ where
  listed d := by
    rw [hh.head]
    exact (h.listed d).congr fun f _ => (hh.slot f).2
  valid d f hf := (hh.slot f).1.trans (h.valid d f hf)
  apart := h.apart
  root := by
    rw [hh.rootFileSystem, (hh.slot _).1]
    exact h.root

theorem Lined.stacked (h : Lined ⟨t, mounts⟩) : Stacked ⟨t, mounts⟩ where
  listed := h.listed
  seen d := by
    have hl := h.listed d
    unfold Tree.below
    dsimp only at hl ⊢
    cases hm : mounts d with
    | nil =>
      rw [hm] at hl
      cases hh : (t.nodes d).head with
      | none => rfl
      | some f =>
        rw [hh] at hl
        cases hl
    | cons g rest =>
      rw [hm] at hl
      cases hh : (t.nodes d).head with
      | none =>
        rw [hh] at hl
        cases hl
      | some f =>
        rw [hh] at hl
        cases hl
        rfl
  fresh f t' hf := by
    have hno := (Tree.fsAlloc_spec hf).1
    refine ⟨fun hroot => ?_, fun d hd => ?_⟩
    · rw [hroot, h.root] at hno
      cases hno
    · rw [h.valid d f hd] at hno
      cases hno
  root := h.root

/-- An element that is not in use, cleared. -/
theorem Lined.fsAlloc (h : Lined ⟨t, mounts⟩) (ha : t.fsAlloc = some (f, t')) (hroot : (t.nodes (rootOf f)).head = none) :
    Lined ⟨t', mounts⟩ ∧ (∀ d, f ∉ mounts d) ∧ (t'.nodes (rootOf f)).head = none ∧ (t'.fileSystem f).valid = true := by
  obtain ⟨hno, hslots, hnodes, hrootFs⟩ := Tree.fsAlloc_spec ha
  have hfresh : ∀ d, f ∉ mounts d := fun d hd => by
    rw [h.valid d f hd] at hno
    cases hno
  have hslot : ∀ g, g ≠ f → t'.fileSystem g = t.fileSystem g := fun g hg => by
    rw [hslots, update_of_ne hg]
  have hhead : ∀ d, (t'.nodes d).head = (t.nodes d).head := fun d => by
    rw [hnodes]
    by_cases hd : d = rootOf f
    · rw [hd, update_self, hroot]
      rfl
    · rw [update_of_ne hd]
  refine ⟨⟨fun d => ?_, fun d g hg => ?_, h.apart, ?_⟩, hfresh, (hhead _).trans hroot, ?_⟩
  · show Cells (fun f => (t'.fileSystem f).next) (t'.nodes d).head (mounts d)
    rw [hhead]
    refine (h.listed d).congr fun g hg => ?_
    rw [hslot g fun hgf => hfresh d (hgf ▸ hg)]
  · show (t'.fileSystem g).valid = true
    rw [hslot g fun hgf => hfresh d (hgf ▸ hg)]
    exact h.valid d g hg
  · show (t'.fileSystem t'.rootFileSystem).valid = true
    rw [hrootFs, hslot]
    · exact h.root
    · intro hroot
      have hvalid := h.root
      rw [hroot, hno] at hvalid
      cases hvalid
  · rw [hslots, update_self]

/-- A mount goes in front of the list of its mount point. -/
theorem Lined.mountOn (h : Lined ⟨t, mounts⟩) (hfresh : ∀ d, f ∉ mounts d) (hvalid : (t.fileSystem f).valid = true) :
    Lined ⟨t.mountOn m f, update mounts m (f :: mounts m)⟩ := by
  have hslot : ∀ g, ((t.mountOn m f).fileSystem g).valid = (t.fileSystem g).valid := fun g => by
    by_cases hg : g = f
    · simp [Tree.mountOn, hg]
    · simp [Tree.mountOn, hg]
  have hnext : ∀ g, g ≠ f → ((t.mountOn m f).fileSystem g).next = (t.fileSystem g).next := fun g hg => by
    simp [Tree.mountOn, hg]
  have hold : ∀ d, ∀ g ∈ mounts d, g ≠ f := fun d g hg hgf => hfresh d (hgf ▸ hg)
  refine ⟨fun d => ?_, fun d g hg => ?_, fun d e g hd he => ?_, ?_⟩
  · show Cells (fun g => ((t.mountOn m f).fileSystem g).next) ((t.mountOn m f).nodes d).head
      (update mounts m (f :: mounts m) d)
    by_cases hd : d = m
    · rw [hd, update_self]
      have hhead : ((t.mountOn m f).nodes m).head = some f := by simp [Tree.mountOn]
      rw [hhead]
      refine (h.listed m).push (fun g hg => hnext g (hold m g hg)) ?_
      simp [Tree.mountOn]
    · rw [update_of_ne hd]
      have hhead : ((t.mountOn m f).nodes d).head = (t.nodes d).head := by simp [Tree.mountOn, hd]
      rw [hhead]
      exact (h.listed d).congr fun g hg => hnext g (hold d g hg)
  · show ((t.mountOn m f).fileSystem g).valid = true
    rw [hslot]
    dsimp only at hg
    by_cases hd : d = m
    · rw [hd, update_self] at hg
      rcases List.mem_cons.mp hg with rfl | hg
      · exact hvalid
      · exact h.valid m g hg
    · rw [update_of_ne hd] at hg
      exact h.valid d g hg
  · dsimp only at hd he
    -- the new one is on `m` alone, the others are where they were
    have hmem : ∀ x, g ∈ update mounts m (f :: mounts m) x → (g = f ∧ x = m) ∨ (g ≠ f ∧ g ∈ mounts x) := by
      intro x hx
      by_cases hxm : x = m
      · rw [hxm, update_self] at hx
        rcases List.mem_cons.mp hx with hgf | hx
        · exact .inl ⟨hgf, hxm⟩
        · exact .inr ⟨hold m g hx, hxm ▸ hx⟩
      · rw [update_of_ne hxm] at hx
        exact .inr ⟨hold x g hx, hx⟩
    rcases hmem d hd with ⟨hgf, hdm⟩ | ⟨hgf, hd⟩
    · rcases hmem e he with ⟨-, hem⟩ | ⟨hne, -⟩
      · rw [hdm, hem]
      · exact absurd hgf hne
    · rcases hmem e he with ⟨heq, -⟩ | ⟨-, he⟩
      · exact absurd heq hgf
      · exact h.apart d e g hd he
  · show ((t.mountOn m f).fileSystem t.rootFileSystem).valid = true
    rw [hslot]
    exact h.root

/-- An unmount takes the front of the list off. -/
theorem Lined.umountFrom (h : Lined ⟨t, mounts⟩) (hhead : (t.nodes m).head = some f) (hroot : f ≠ t.rootFileSystem) :
    Lined ⟨t.umountFrom m f, update mounts m (mounts m).tail⟩ := by
  obtain ⟨rest, hm, hrest⟩ : ∃ rest, mounts m = f :: rest ∧ Cells (fun f => (t.fileSystem f).next) (t.fileSystem f).next rest := by
    have hl := h.listed m
    dsimp only at hl
    rw [hhead] at hl
    cases hml : mounts m with
    | nil =>
      rw [hml] at hl
      cases hl
    | cons g rest =>
      rw [hml] at hl
      cases hl with
      | cons hl => exact ⟨rest, rfl, hl⟩
  have hnodup : f ∉ rest := by
    have hn := (h.listed m).nodup
    dsimp only at hn
    rw [hm] at hn
    exact (List.nodup_cons.mp hn).1
  have hnext : ∀ g, ((t.umountFrom m f).fileSystem g).next = (t.fileSystem g).next := fun g => by
    by_cases hg : g = f
    · simp [Tree.umountFrom, hg]
    · simp [Tree.umountFrom, hg]
  have hslot : ∀ g, g ≠ f → ((t.umountFrom m f).fileSystem g).valid = (t.fileSystem g).valid := fun g hg => by
    simp [Tree.umountFrom, hg]
  -- what is still mounted was mounted before, and is not `f`
  have hmem : ∀ d, ∀ g ∈ update mounts m (mounts m).tail d, g ∈ mounts d ∧ g ≠ f := by
    intro d g hg
    by_cases hd : d = m
    · rw [hd, update_self, hm, List.tail_cons] at hg
      rw [hd, hm]
      exact ⟨List.mem_cons_of_mem _ hg, fun hgf => hnodup (hgf ▸ hg)⟩
    · rw [update_of_ne hd] at hg
      refine ⟨hg, fun hgf => hd ?_⟩
      refine h.apart d m f (hgf ▸ hg) ?_
      show f ∈ mounts m
      rw [hm]
      exact List.mem_cons_self ..
  refine ⟨fun d => ?_, fun d g hg => ?_, fun d e g hd he => h.apart d e g (hmem d g hd).1 (hmem e g he).1, ?_⟩
  · show Cells (fun g => ((t.umountFrom m f).fileSystem g).next) ((t.umountFrom m f).nodes d).head
      (update mounts m (mounts m).tail d)
    by_cases hd : d = m
    · have hhead' : ((t.umountFrom m f).nodes m).head = (t.fileSystem f).next := by simp [Tree.umountFrom]
      rw [hd, update_self, hm, List.tail_cons, hhead']
      exact hrest.congr fun g _ => hnext g
    · have hhead' : ((t.umountFrom m f).nodes d).head = (t.nodes d).head := by simp [Tree.umountFrom, hd]
      rw [update_of_ne hd, hhead']
      exact (h.listed d).congr fun g _ => hnext g
  · show ((t.umountFrom m f).fileSystem g).valid = true
    obtain ⟨hg, hne⟩ := hmem d g hg
    rw [hslot g hne]
    exact h.valid d g hg
  · show ((t.umountFrom m f).fileSystem t.rootFileSystem).valid = true
    rw [hslot _ (Ne.symm hroot)]
    exact h.root

end Step

variable {w : World}

/-- After boot. -/
theorem Booted.lined (h : w.Booted) : w.Lined := by
  obtain ⟨⟨n, c, script, d, hboot⟩, hmounts⟩ := h
  obtain ⟨v, hhead, hroot, hvalid, hnext⟩ := Tree.initRootFileSystem_mounts hboot
  have hlist : ∀ d, w.mounts d = if d = v then [0] else [] := fun d => by
    rw [hmounts, hhead]
    split <;> rfl
  have hmem : ∀ d f, f ∈ w.mounts d → d = v ∧ f = 0 := fun d f hf => by
    rw [hlist] at hf
    split at hf
    · exact ⟨‹_›, List.mem_singleton.mp hf⟩
    · cases hf
  refine ⟨fun d => ?_, fun d f hf => ?_, fun d e f hd he => ?_, ?_⟩
  · rw [hhead, hlist]
    split
    · refine .cons ?_
      rw [hnext]
      exact .nil
    · exact .nil
  · rw [(hmem d f hf).2]
    exact hvalid
  · rw [(hmem d f hd).1, (hmem e f he).1]
  · rw [hroot]
    exact hvalid

/-- One call keeps the lists in line. -/
theorem Lined.exec {n : Nat} {w w' : World} {call : Call} (h : w.Lined) (hm : w.Meets n call) (hr : w.exec n call = .ok w') :
    w'.Lined := by
  obtain ⟨t, mounts⟩ := w
  cases call with
  | mount c a =>
    obtain ⟨⟨r, t'⟩, hmount, rfl⟩ := Loop.map_ok hr
    rcases Tree.syscallMount_cases hmount with ⟨rfl, hs⟩ | ⟨m, f, t₀, t₁, t₂, t₃, rfl, hs, hpoint, halloc, hfat, rfl⟩
    · exact h.held hs.held
    · have hh := hs.held.trans (Tree.still_fetchName hpoint).held
      -- the element it takes is the one that was first before the lookups
      have hroot : (t₁.nodes (rootOf f)).head = none := by
        have hfirst := hh.fsAlloc
        rw [halloc] at hfirst
        obtain ⟨⟨g, t₀⟩, hg, hgf⟩ := Option.map_eq_some_iff.mp hfirst.symm
        rw [hh.head]
        exact hm f t₀ (by rw [hg]; exact congrArg (fun x => some (x, t₀)) hgf)
      obtain ⟨h₂, hfresh, hroot₂, hvalid⟩ := (h.held hh).fsAlloc halloc hroot
      have hinit := (Tree.held_setNode t₂ (rootOf f) { Tree.zeroNode with filename := [slash], fileSystem := f } hroot₂.symm).trans
        (Tree.fatInit_held hfat)
      exact (h₂.held hinit).mountOn hfresh ((hinit.slot f).1.trans hvalid)
  | umount c path flag =>
    obtain ⟨⟨r, t'⟩, humount, rfl⟩ := Loop.map_ok hr
    rcases Tree.syscallUmount_cases humount with ⟨rfl, hh⟩ | ⟨m, f, t₁, rfl, hname, hhead, rfl⟩
    · exact h.held hh
    · have hh := (Tree.still_fetchName hname).held
      refine (h.held hh).umountFrom hhead fun hroot => ?_
      apply hm m t₁ hname
      rw [← hh.head, hhead, hroot, hh.rootFileSystem]

theorem Reached.lined (h : Reached Meets w) : w.Lined :=
  h.invariant (fun _ hb => hb.lined) fun _ _ hi ⟨_, _, hm, hr⟩ => hi.exec hm hr

/-- **Mounts are stacks**, as long as no call unmounts the root file system or takes an element with something
mounted on its root. -/
theorem stacked_of_reached (w : World) (h : Reached Meets w) : w.Stacked := h.lined.stacked

/-! ## Mounting on `/tmp` -/

def tmpPath : List Byte := bytes "/tmp"

/-- An empty volume from the image `/auto.sh`, on `/tmp`. -/
def mountTmp : Call :=
  .mount Tree.atBoot ⟨some (bytes "vfat"), some (bytes "/auto.sh"), some tmpPath, none, 0, true, smallDisk 4⟩

def umountTmp : Call := .umount Tree.atBoot (some tmpPath) 0

def umountVda2 : Call := .umount Tree.atBoot (some (bytes "/dev/vda2")) 0

/-- A tree with what boot counts as mounted. -/
def atStart (t : Tree) : World := ⟨t, fun d => (t.nodes d).head.toList⟩

def booted : Except Halt World := Tree.booted.map atStart

theorem booted_of_eq (h : booted = .ok w) : w.Booted := by
  obtain ⟨t, ht, rfl⟩ := Loop.map_ok h
  exact ⟨⟨1, Tree.atBoot, [], smallDisk 40, Tree.initRootFileSystem_small.trans ht⟩, fun _ => rfl⟩

/-- Mounting on `/tmp` twice and unmounting once, with the states in between. -/
def tmpRun : Except Halt (World × World × World × World) := do
  let w₀ ← booted
  let w₁ ← w₀.exec 1 mountTmp
  let w₂ ← w₁.exec 1 mountTmp
  let w₃ ← w₂.exec 1 umountTmp
  return (w₀, w₁, w₂, w₃)

/-- The root unmounted from `/dev/vda2`. -/
def rootUnmounted : Except Halt World := do
  let w ← booted
  w.exec 1 umountVda2

/-- What is mounted on the root of the element `fsAlloc` finds. -/
def onNext (w : World) : Option (Option Nat) := w.tree.fsAlloc.map fun p => (w.tree.nodes (rootOf p.1)).head

/-- What is mounted last on the directory of a path. -/
def onPath (w : World) (path : List Byte) : Option (Option (Option Nat)) :=
  (w.tree.fetchName 1 Tree.atBoot (some path)).toOption.map fun p => p.1.map fun m => (w.tree.nodes m).head

theorem meets_mountTmp (h : w.onNext = some none) : w.Meets 1 mountTmp := by
  intro f t hf
  unfold onNext at h
  rw [hf] at h
  exact Option.some.inj h

theorem tmpRun_mounts : (tmpRun.toOption.map fun r =>
    ((r.1.onNext, r.2.1.onNext), r.2.2.1.onPath tmpPath, r.2.2.1.tree.rootFileSystem, r.2.2.2.onPath tmpPath)) =
      some ((some none, some none), some (some (some 2)), 0, some (some (some 1))) := by
  decide +kernel

theorem rootUnmounted_valid : (rootUnmounted.toOption.map fun w => (w.tree.fileSystem w.tree.rootFileSystem).valid) = some false := by
  decide +kernel

/-- Two volumes mounted on `/tmp` and the second unmounted. -/
theorem stacked_unmounted : ∃ w, Reached Meets w ∧ w.onPath tmpPath = some (some (some 1)) ∧ w.Stacked := by
  obtain ⟨⟨w₀, w₁, w₂, w₃⟩, hrun, hmounts⟩ := Loop.exists_of_toOption tmpRun_mounts
  obtain ⟨v₀, h₀, hrun⟩ := Loop.bind_ok hrun
  obtain ⟨v₁, hmount₁, hrun⟩ := Loop.bind_ok hrun
  obtain ⟨v₂, hmount₂, hrun⟩ := Loop.bind_ok hrun
  obtain ⟨v₃, humount, hrun⟩ := Loop.bind_ok hrun
  cases hrun
  simp only [Prod.mk.injEq] at hmounts
  obtain ⟨⟨hnext₀, hnext₁⟩, hpath₂, hroot, htmp⟩ := hmounts
  have hm : w₂.Meets 1 umountTmp := by
    intro m t hm
    unfold onPath at hpath₂
    rw [show w₂.tree.fetchName 1 Tree.atBoot (some tmpPath) = .ok (some m, t) from hm] at hpath₂
    have hhead : (w₂.tree.nodes m).head = some 2 := Option.some.inj (Option.some.inj hpath₂)
    rw [hhead, hroot]
    decide
  have hr₀ : Reached Meets w₀ := .init (booted_of_eq h₀)
  have hr₂ : Reached Meets w₂ :=
    (hr₀.step ⟨1, mountTmp, meets_mountTmp hnext₀, hmount₁⟩).step ⟨1, mountTmp, meets_mountTmp hnext₁, hmount₂⟩
  have hr : Reached Meets w₃ := hr₂.step ⟨1, umountTmp, hm, humount⟩
  exact ⟨w₃, hr, htmp, stacked_of_reached w₃ hr⟩

/-- Unmounting `/dev/vda2` invalidates the root file system. -/
theorem not_stacked_rootUnmounted : ¬ ∀ w : World, Reached (fun _ _ _ => True) w → w.Stacked := by
  intro hall
  obtain ⟨w, hw, hvalid⟩ := Loop.exists_of_toOption rootUnmounted_valid
  obtain ⟨w₀, h₀, humount⟩ := Loop.bind_ok hw
  have hr : Reached (fun _ _ _ => True) w := .step (.init (booted_of_eq h₀)) ⟨1, umountVda2, trivial, humount⟩
  have hroot := (hall w hr).root
  rw [hvalid] at hroot
  cases hroot

end World

end Exaros.Dir
