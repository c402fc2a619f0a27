import Exaros.Dir.Lookup

/-!
# Creating and removing entries

`metaAlloc` adds one child to a directory and `metaRemove` takes one out. `Inv` is what they keep: the
lists of the tree, siblings with different names, and what lookups need of the file systems.
-/

namespace Exaros.Dir.Tree

open Fat Linked
open Function (update update_self update_of_ne)

/-- Siblings have different names. -/
def Distinct (t : Tree) (kids : Nat → List Nat) : Prop := ∀ d, ((kids d).map fun i => (t.nodes i).filename).Nodup

/-- The lists and the file systems are in order. -/
structure Sound (t : Tree) (free : List Nat) (kids : Nat → List Nat) : Prop where
  shape : Shape t free kids none
  mounted : Mounted t

structure Good (t : Tree) (free : List Nat) (kids : Nat → List Nat) : Prop extends Sound t free kids where
  names : Distinct t kids

def Inv (t : Tree) : Prop := ∃ free kids, Good t free kids

/-- No directory lists two entries of one name. -/
def NamesDiffer (t : Tree) : Prop :=
  ∀ d i j, t.Lists d i → t.Lists d j → (t.nodes i).filename = (t.nodes j).filename → i = j

/-- What an operation leaves of the tree: what was in it still is, but for `gone`. -/
structure Leaves (t t' : Tree) (gone : Nat → Prop) : Prop where
  sound : ∃ free kids, Sound t' free kids
  names : t.NamesDiffer → t'.NamesDiffer
  inTree : ∀ d, t.InTree d → ¬ gone d → t'.InTree d

section Edits

variable {t t' : Tree} {free : List Nat} {kids : Nat → List Nat} {held : Option Nat} {d p : Nat}

theorem Sound.still (h : Sound t free kids) (hs : Still t t') : Sound t' free kids := ⟨h.shape.still hs, h.mounted.still hs⟩

theorem Distinct.still (h : Distinct t kids) (hs : Still t t') : Distinct t' kids := by
  intro d
  rw [hs.nodes]
  exact h d

/-- A change of one entry that no list depends on. -/
theorem Sound.setMeta (h : Sound t free kids) {dm : DirMeta} (hattr : dm.attr = (t.dirMetas d).attr) :
    Sound (t.setMeta d dm) free kids where
  shape := h.shape.congr (fun _ => ⟨rfl, rfl, rfl⟩) rfl (fun _ hr => hr) fun x _ => by
    unfold Tree.isDir Tree.setMeta
    by_cases hx : x = d
    · subst hx
      simp [hattr]
    · simp [hx]
  mounted := ⟨h.mounted.root, h.mounted.head, h.mounted.parent, h.mounted.self⟩

theorem Shape.namesDiffer_iff (h : Shape t free kids held) : t.NamesDiffer ↔ Distinct t kids := by
  constructor
  · intro hn d
    refine (h.kidCells d).nodup.map_on fun i hi j hj heq => ?_
    exact hn d i j ((h.lists_iff d i).mpr hi) ((h.lists_iff d j).mpr hj) heq
  · intro hn d i j hi hj heq
    exact List.inj_on_of_nodup_map (hn d) ((h.lists_iff d i).mp hi) ((h.lists_iff d j).mp hj) heq

theorem Sound.inv (h : Sound t free kids) (hn : t.NamesDiffer) : t.Inv := ⟨free, kids, h, h.shape.namesDiffer_iff.mp hn⟩

theorem Inv.namesDiffer (h : t.Inv) : t.NamesDiffer := by
  obtain ⟨free, kids, h⟩ := h
  exact h.shape.namesDiffer_iff.mpr h.names

/-- What is in the tree is not free. -/
theorem Sound.not_free (h : Sound t free kids) (hd : t.InTree d) : ¬ t.Free d := by
  intro hf
  have hf := (h.shape.free_iff d).mp hf
  cases (h.shape.inTree_iff d).mp hd with
  | root hr =>
    obtain ⟨f, -, hr⟩ := hr
    have := h.shape.free_lt d hf
    unfold rootOf at hr
    omega
  | child _ hi => exact h.shape.apart _ _ hi hf

section Leaves

variable {t'' : Tree} {gone gone' : Nat → Prop}

/-- An operation after one that takes nothing out. -/
theorem Leaves.after (h : Leaves t t' fun _ => False) (h' : Leaves t' t'' gone) : Leaves t t'' gone where
  sound := h'.sound
  names hn := h'.names (h.names hn)
  inTree d hd hno := h'.inTree d (h.inTree d hd id) hno

theorem Leaves.mono (h : Leaves t t' gone) (hg : ∀ d, t.InTree d → gone d → gone' d) : Leaves t t' gone' :=
  ⟨h.sound, h.names, fun d hd hno => h.inTree d hd fun hgd => hno (hg d hd hgd)⟩

theorem Leaves.inv (h : Leaves t t' gone) (hi : t.Inv) : t'.Inv := by
  obtain ⟨free, kids, hs⟩ := h.sound
  exact hs.inv (h.names hi.namesDiffer)

theorem Sound.leaves_still (h : Sound t free kids) (hs : Still t t') : Leaves t t' fun _ => False := by
  refine ⟨⟨free, kids, h.still hs⟩, fun hn => ?_, fun d hd _ => (hs.inTree d).mpr hd⟩
  rw [(h.still hs).shape.namesDiffer_iff]
  exact (h.shape.namesDiffer_iff.mp hn).still hs

/-- A change of one entry's file. -/
theorem Sound.leaves_setMeta (h : Sound t free kids) {dm : DirMeta} (hattr : dm.attr = (t.dirMetas d).attr) :
    Leaves t (t.setMeta d dm) fun _ => False := by
  have h' : Sound (t.setMeta d dm) free kids := h.setMeta hattr
  refine ⟨⟨free, kids, h'⟩, fun hn => ?_, fun x hx _ => ?_⟩
  · rw [h'.shape.namesDiffer_iff]
    exact h.shape.namesDiffer_iff.mp hn
  · exact (h'.shape.inTree_iff x).mpr ((h.shape.inTree_iff x).mp hx)

end Leaves

/-! ## Removing -/

/-- Only lists change. -/
structure Relinked (t t' : Tree) : Prop where
  dirMetas : t'.dirMetas = t.dirMetas
  fileSystem : t'.fileSystem = t.fileSystem
  rootFileSystem : t'.rootFileSystem = t.rootFileSystem
  inodes : t'.inodes = t.inodes ∧ t'.inodeBitmap = t.inodeBitmap
  node : ∀ x, (t'.nodes x).filename = (t.nodes x).filename ∧ (t'.nodes x).fileSystem = (t.nodes x).fileSystem ∧
    (t'.nodes x).head = (t.nodes x).head ∧ (t'.nodes x).parent = (t.nodes x).parent

theorem Relinked.trans {t'' : Tree} (h : Relinked t t') (h' : Relinked t' t'') : Relinked t t'' where
  dirMetas := h'.dirMetas.trans h.dirMetas
  fileSystem := h'.fileSystem.trans h.fileSystem
  rootFileSystem := h'.rootFileSystem.trans h.rootFileSystem
  inodes := ⟨h'.inodes.1.trans h.inodes.1, h'.inodes.2.trans h.inodes.2⟩
  node x := ⟨(h'.node x).1.trans (h.node x).1, (h'.node x).2.1.trans (h.node x).2.1, (h'.node x).2.2.1.trans (h.node x).2.2.1,
    (h'.node x).2.2.2.trans (h.node x).2.2.2⟩

theorem relinked_setNode (t : Tree) (x : Nat) (node : Node) (hname : node.filename = (t.nodes x).filename)
    (hfs : node.fileSystem = (t.nodes x).fileSystem) (hhead : node.head = (t.nodes x).head)
    (hparent : node.parent = (t.nodes x).parent) : Relinked t (t.setNode x node) where
  dirMetas := rfl
  fileSystem := rfl
  rootFileSystem := rfl
  inodes := ⟨rfl, rfl⟩
  node y := by
    by_cases hy : y = x
    · subst hy
      simp [Tree.setNode, hname, hfs, hhead, hparent]
    · simp [Tree.setNode, hy]

theorem relinked_dirMetaFree (t : Tree) (x : Nat) : Relinked t (t.dirMetaFree x) := by
  have h := relinked_setNode t x { t.nodes x with nextBrother := t.dirMetaHead } rfl rfl rfl rfl
  exact ⟨h.dirMetas, h.fileSystem, h.rootFileSystem, h.inodes, h.node⟩

theorem Relinked.liveRoot (h : Relinked t t') (x : Nat) : t'.LiveRoot x ↔ t.LiveRoot x := by
  unfold LiveRoot
  rw [h.fileSystem]

theorem Relinked.isDir (h : Relinked t t') (x : Nat) : t'.isDir x = t.isDir x := by
  unfold Tree.isDir
  rw [h.dirMetas]

theorem Relinked.mounted (h : Relinked t t') (hm : Mounted t) : Mounted t' where
  root := by
    rw [h.rootFileSystem, h.fileSystem]
    exact hm.root
  head x f hx := by
    rw [(h.node x).2.2.1] at hx
    rw [h.fileSystem]
    exact hm.head x f hx
  parent f hf := by
    rw [h.fileSystem] at hf
    rw [(h.node _).2.2.2]
    exact hm.parent f hf
  self f hf := by
    rw [h.fileSystem] at hf
    unfold fsOf
    rw [(h.node _).2.1]
    exact hm.self f hf

/-- `metaRemove` before it frees the entry: it takes it out of the list of its parent. -/
theorem metaRemove_cells {l : List Nat} (hcells : Cells t.next (t.nodes p).firstChild l) (hlen : l.length ≤ DIRMETA_NUM)
    (hd : d ∈ l) (hparent : (t.nodes d).parent = some p) :
    ∃ t₁, t.metaRemove d = .ok (t₁.dirMetaFree d) ∧ Relinked t t₁ ∧ t₁.dirMetaHead = t.dirMetaHead ∧
      (∀ x, x ≠ p → (t₁.nodes x).firstChild = (t.nodes x).firstChild) ∧ (∀ x, x ∉ l → t₁.next x = t.next x) ∧
      Cells t₁.next (t₁.nodes p).firstChild (l.erase d) := by
  have hnodup := hcells.nodup
  obtain ⟨l₁, l₂, hl⟩ := List.append_of_mem hd
  have hnot : d ∉ l₁ := by
    intro hm
    rw [hl] at hnodup
    exact (List.nodup_append.mp hnodup).2.2 d hm d (List.mem_cons_self ..) rfl
  have herase : l.erase d = l₁ ++ l₂ := by
    rw [hl, List.erase_append_right _ hnot, List.erase_cons_head]
  rw [hl] at hcells
  rcases List.eq_nil_or_concat l₁ with rfl | ⟨l₀, b, rfl⟩
  · -- the first child
    have hfirst : (t.nodes p).firstChild = some d := by
      cases hf : (t.nodes p).firstChild with
      | none =>
        rw [hf] at hcells
        cases hcells
      | some x =>
        rw [hf] at hcells
        cases hcells
        rfl
    rw [hfirst] at hcells
    have hre := relinked_setNode t p { t.nodes p with firstChild := (t.nodes d).nextBrother } rfl rfl rfl rfl
    have hnext : ∀ x, (t.setNode p { t.nodes p with firstChild := (t.nodes d).nextBrother }).next x = t.next x := fun x => by
      unfold Tree.next Tree.setNode
      by_cases hx : x = p
      · simp [hx]
      · simp [hx]
    refine ⟨_, ?_, hre, rfl, fun x hx => ?_, fun x _ => hnext x, ?_⟩
    · unfold Tree.metaRemove
      rw [hparent]
      dsimp only
      rw [hfirst]
      dsimp only
      rw [if_pos rfl]
    · simp [Tree.setNode, hx]
    · rw [herase]
      have hself : ((t.setNode p { t.nodes p with firstChild := (t.nodes d).nextBrother }).nodes p).firstChild = t.next d := by
        simp [Tree.setNode, Tree.next]
      rw [hself]
      exact hcells.pop.congr fun x _ => hnext x
  · -- behind `b`
    rw [List.concat_eq_append, List.append_assoc] at hl herase hcells
    simp only [List.cons_append, List.nil_append] at hl herase hcells
    have hbd : b ≠ d := fun hbd => hnot (by simp [hbd])
    obtain ⟨i, hi⟩ : ∃ i, (t.nodes p).firstChild = some i := by
      cases hf : (t.nodes p).firstChild with
      | none =>
        rw [hf] at hcells
        cases hc : l₀ with
        | nil =>
          rw [hc] at hcells
          cases hcells
        | cons y l =>
          rw [hc] at hcells
          cases hcells
      | some i => exact ⟨i, rfl⟩
    have hid : i ≠ d := by
      intro hid
      rw [hi, hid] at hcells
      cases hc : l₀ with
      | nil =>
        rw [hc] at hcells
        cases hcells
        exact hbd rfl
      | cons y l =>
        rw [hc] at hcells
        cases hcells
        exact hnot (by simp [hc])
    have hfind : Linked.find t.next (fun i => decide (t.next i = some d)) (DIRMETA_NUM + 1) (some i) = some (some b) := by
      rw [← hi]
      have hlen : (l₀ ++ b :: d :: l₂).length < DIRMETA_NUM + 1 := by
        rw [← hl]
        exact Nat.lt_succ_of_le hlen
      rw [hcells.find _ hlen, hcells.find_pred]
    have hre := relinked_setNode t b { t.nodes b with nextBrother := (t.nodes d).nextBrother } rfl rfl rfl rfl
    have hnext : ∀ x, x ≠ b → (t.setNode b { t.nodes b with nextBrother := (t.nodes d).nextBrother }).next x = t.next x :=
      fun x hx => by simp [Tree.next, Tree.setNode, hx]
    have hfirst : ∀ x, ((t.setNode b { t.nodes b with nextBrother := (t.nodes d).nextBrother }).nodes x).firstChild =
        (t.nodes x).firstChild := fun x => by
      by_cases hx : x = b
      · simp [Tree.setNode, hx]
      · simp [Tree.setNode, hx]
    refine ⟨_, ?_, hre, rfl, fun x _ => hfirst x, fun x hx => hnext x fun hxb => hx ?_, ?_⟩
    · unfold Tree.metaRemove
      rw [hparent]
      dsimp only
      rw [hi]
      dsimp only
      rw [if_neg hid]
      unfold Tree.next at hfind
      rw [hfind]
    · rw [hl, hxb]
      simp
    · rw [hfirst, herase]
      refine hcells.remove ?_ fun x _ hx => hnext x hx
      simp [Tree.next, Tree.setNode]

theorem Shape.unlinked (h : Shape t free kids none) (hd : d ∈ kids p) (hleaf : kids d = []) :
    ∃ t₁, t.metaRemove d = .ok (t₁.dirMetaFree d) ∧ Relinked t t₁ ∧
      Shape t₁ free (update kids p ((kids p).erase d)) (some d) := by
  obtain ⟨t₁, hr, hre, hhead, hfirst, hnext, hlist⟩ := metaRemove_cells (h.kidCells p) (h.length_le p) hd (h.parent p d hd)
  exact ⟨t₁, hr, hre, h.detach hd hleaf hhead (fun x hx => (hre.liveRoot x).mpr hx) hre.isDir hfirst hnext
    (fun x => (hre.node x).2.2.2) hlist⟩

theorem Distinct.remove (hn : Distinct t kids) (hre : Relinked t t') (p d : Nat) :
    Distinct t' (update kids p ((kids p).erase d)) := by
  intro x
  have hnames : (fun i => (t'.nodes i).filename) = fun i => (t.nodes i).filename := funext fun i => (hre.node i).1
  rw [hnames]
  by_cases hx : x = p
  · rw [hx, update_self]
    exact (hn p).sublist (List.Sublist.map _ List.erase_sublist)
  · rw [update_of_ne hx]
    exact hn x

/-- **`metaRemove`** of an entry without children takes it out of the tree; the root has no parent, and
the kernel stops. -/
theorem Sound.metaRemove (h : Sound t free kids) (hd : t.InTree d) (hleaf : (t.nodes d).firstChild = none)
    (hr : t.metaRemove d = .ok t') : Leaves t t' (· = d) := by
  have hkids : kids d = [] := (h.shape.kids_nil_iff d).mpr hleaf
  cases (h.shape.inTree_iff d).mp hd with
  | root hroot =>
    obtain ⟨f, hf, rfl⟩ := hroot
    unfold Tree.metaRemove at hr
    rw [h.mounted.parent f hf] at hr
    cases hr
  | @child p _ _ hi =>
    obtain ⟨t₁, ht₁, hre, hs⟩ := h.shape.unlinked hi hkids
    rw [hr] at ht₁
    cases ht₁
    have hre' := hre.trans (relinked_dirMetaFree t₁ d)
    have h' : Sound (t₁.dirMetaFree d) (d :: free) (update kids p ((kids p).erase d)) :=
      ⟨hs.dirMetaFree, hre'.mounted h.mounted⟩
    refine ⟨⟨_, _, h'⟩, fun hn => ?_, fun x hx hxd => ?_⟩
    · rw [h'.shape.namesDiffer_iff]
      exact (h.shape.namesDiffer_iff.mp hn).remove hre' p d
    · refine (h'.shape.inTree_iff x).mpr ?_
      have hkept : ∀ y, ∀ i ∈ kids y, i ≠ d → i ∈ update kids p ((kids p).erase d) y := fun y i hi' hid => by
        by_cases hy : y = p
        · subst hy
          rw [update_self]
          exact (List.mem_erase_of_ne hid).mpr hi'
        · rwa [update_of_ne hy]
      exact (((h.shape.inTree_iff x).mp hx).remove hxd hkids hkept).mono (fun y hy => (hre'.liveRoot y).mpr hy) fun _ _ hi => hi

/-! ## Creating -/

theorem link_self (t : Tree) (name : List Byte) (hpd : p ≠ d) : (t.link d p name).nodes d = { t.nodes d with
    parent := some p
    nextBrother := (t.nodes p).firstChild
    fileSystem := (t.nodes p).fileSystem
    filename := name.take FAT32_MAX_FILENAME } := by
  simp [Tree.link, Tree.setNode, Ne.symm hpd]

theorem link_parent (t : Tree) (name : List Byte) (hpd : p ≠ d) :
    (t.link d p name).nodes p = { t.nodes p with firstChild := some d } := by
  simp [Tree.link, Tree.setNode, hpd]

theorem link_of_ne (t : Tree) (name : List Byte) {x : Nat} (hd : x ≠ d) (hp : x ≠ p) :
    (t.link d p name).nodes x = t.nodes x := by
  simp [Tree.link, Tree.setNode, hd, hp]

/-- The tree after `metaAlloc` has made entry `d`, given what the cluster layer leaves of its file. -/
def added (t : Tree) (d p : Nat) (name : List Byte) (fs : FileSystem) (dm : DirMeta) : Tree :=
  ({ t with dirMetaHead := t.next d }.link d p name).setFile d fs dm

theorem liveRoot_setFile (t : Tree) (d : Nat) (fs : FileSystem) (dm : DirMeta) (x : Nat) :
    (t.setFile d fs dm).LiveRoot x ↔ t.LiveRoot x := by
  have hvalid : ∀ f, ((t.setFile d fs dm).fileSystem f).valid = (t.fileSystem f).valid := fun f => by
    show ((update t.fileSystem _ _) f).valid = _
    by_cases hf : f = t.fsOf d
    · subst hf
      simp
    · simp [hf]
  unfold LiveRoot
  simp only [hvalid]

theorem isDir_setFile (t : Tree) {d x : Nat} (fs : FileSystem) (dm : DirMeta) (hx : x ≠ d) :
    (t.setFile d fs dm).isDir x = t.isDir x := by
  simp [Tree.isDir, Tree.setFile, Tree.setMeta, Tree.setVolume, hx]

/-- The lists after `metaAlloc` has made an entry. -/
theorem Shape.added {rest : List Nat} {name : List Byte} {fs : FileSystem} {dm : DirMeta}
    (h : Shape { t with dirMetaHead := t.next d } rest kids (some d)) (hp : Rooted t.LiveRoot kids p) (hdir : t.isDir p = true) :
    Shape (t.added d p name fs dm) rest (update kids p (d :: kids p)) none := by
  have hpd := h.not_held_of_rooted hp
  have hself := link_self { t with dirMetaHead := t.next d } name hpd
  have hpar := link_parent { t with dirMetaHead := t.next d } name hpd
  have hnode : ∀ x, (t.added d p name fs dm).nodes x = ({ t with dirMetaHead := t.next d }.link d p name).nodes x := fun _ => rfl
  refine h.attach hp hdir rfl (fun x hx => (liveRoot_setFile _ d fs dm x).mpr hx) (fun x hx => isDir_setFile _ fs dm hx)
    (fun x hx => ?_) ?_ (fun x hx => ?_) ?_ (fun x hx => ?_) ?_
  · rw [hnode]
    by_cases hxd : x = d
    · rw [hxd, hself]
    · rw [link_of_ne _ _ hxd hx]
  · rw [hnode, hpar]
  · show ((t.added d p name fs dm).nodes x).nextBrother = _
    rw [hnode]
    by_cases hxp : x = p
    · rw [hxp, hpar]
      rfl
    · rw [link_of_ne _ _ hx hxp]
      rfl
  · show ((t.added d p name fs dm).nodes d).nextBrother = _
    rw [hnode, hself]
  · rw [hnode]
    by_cases hxp : x = p
    · rw [hxp, hpar]
    · rw [link_of_ne _ _ hx hxp]
  · rw [hnode, hself]

/-- A name that no sibling has keeps the names apart. -/
theorem Distinct.added (hn : Distinct t kids) (name : List Byte) (hpd : p ≠ d) (hd : ∀ x, d ∉ kids x)
    (hp : ∀ i ∈ kids p, sameName (t.nodes i).filename name = false) (fs : FileSystem) (dm : DirMeta) :
    Distinct (t.added d p name fs dm) (update kids p (d :: kids p)) := by
  have hname : ∀ i, i ≠ d → ((t.added d p name fs dm).nodes i).filename = (t.nodes i).filename := fun i hi => by
    show (({ t with dirMetaHead := t.next d }.link d p name).nodes i).filename = _
    by_cases hip : i = p
    · rw [hip, link_parent _ _ hpd]
    · rw [link_of_ne _ _ hi hip]
  have hself : ((t.added d p name fs dm).nodes d).filename = name.take FAT32_MAX_FILENAME := by
    show (({ t with dirMetaHead := t.next d }.link d p name).nodes d).filename = _
    rw [link_self _ _ hpd]
  intro x
  have hold : ∀ y, (kids y).map (fun i => ((t.added d p name fs dm).nodes i).filename) =
      (kids y).map fun i => (t.nodes i).filename := fun y =>
    List.map_congr_left fun i hi => hname i fun hid => hd y (hid ▸ hi)
  by_cases hx : x = p
  · rw [hx, update_self, List.map_cons, hold, hself]
    refine List.nodup_cons.mpr ⟨fun hmem => ?_, hn p⟩
    obtain ⟨i, hi, heq⟩ := List.mem_map.mp hmem
    have hno := hp i hi
    rw [heq] at hno
    simp [sameName, List.take_take] at hno
  · rw [update_of_ne hx, hold]
    exact hn x

/-- A new entry mounts nothing. -/
theorem Mounted.added (hm : Mounted t) (name : List Byte) (hpd : p ≠ d) (hd : d < DIRMETA_NUM) (fs : FileSystem) (dm : DirMeta) :
    Mounted (t.added d p name fs dm) := by
  have hvalid : ∀ f, ((t.added d p name fs dm).fileSystem f).valid = (t.fileSystem f).valid := fun f => by
    show ((update t.fileSystem _ _) f).valid = _
    by_cases hf : f = ({ t with dirMetaHead := t.next d }.link d p name).fsOf d
    · rw [hf]
      simp only [update_self]
      rfl
    · simp only [update_of_ne hf]
  have hroot : ∀ f, rootOf f ≠ d := fun f hfd => by
    unfold rootOf at hfd
    omega
  have hnode : ∀ x, ((t.added d p name fs dm).nodes x).head = (t.nodes x).head ∧
      (x ≠ d → ((t.added d p name fs dm).nodes x).parent = (t.nodes x).parent ∧
        ((t.added d p name fs dm).nodes x).fileSystem = (t.nodes x).fileSystem) := fun x => by
    show (({ t with dirMetaHead := t.next d }.link d p name).nodes x).head = _ ∧ (_ →
      (({ t with dirMetaHead := t.next d }.link d p name).nodes x).parent = _ ∧
        (({ t with dirMetaHead := t.next d }.link d p name).nodes x).fileSystem = _)
    by_cases hxd : x = d
    · rw [hxd, link_self _ _ hpd]
      exact ⟨rfl, fun hne => absurd rfl hne⟩
    · by_cases hxp : x = p
      · rw [hxp, link_parent _ _ hpd]
        exact ⟨rfl, fun _ => ⟨rfl, rfl⟩⟩
      · rw [link_of_ne _ _ hxd hxp]
        exact ⟨rfl, fun _ => ⟨rfl, rfl⟩⟩
  refine ⟨?_, fun x f hx => ?_, fun f hf => ?_, fun f hf => ?_⟩
  · show ((t.added d p name fs dm).fileSystem t.rootFileSystem).valid = true
    rw [hvalid]
    exact hm.root
  · rw [(hnode x).1] at hx
    rw [hvalid]
    exact hm.head x f hx
  · rw [hvalid] at hf
    rw [((hnode _).2 (hroot f)).1]
    exact hm.parent f hf
  · rw [hvalid] at hf
    unfold fsOf
    rw [((hnode _).2 (hroot f)).2]
    exact hm.self f hf

/-- **`metaAlloc`**: the entry of that name, or a new one. -/
theorem Sound.metaAlloc (h : Sound t free kids) (hp : t.InTree p) {name : List Byte} {attr : Nat}
    (hr : t.metaAlloc p name attr = .ok (d, t')) :
    (t.dirlookup p name = .ok (some d) ∧ t' = t) ∨
    ∃ rest fs dm, t.dirlookup p name = .ok none ∧ free = d :: rest ∧
      Fat.metaAlloc (t.volume (t.fsOf p)) (t.dirMetas d) attr = .ok (fs, dm) ∧ t' = t.added d p name fs dm ∧ p ≠ d ∧
      Sound t' rest (update kids p (d :: kids p)) ∧
      (Distinct t kids → Distinct t' (update kids p (d :: kids p))) := by
  have hp := (h.shape.inTree_iff p).mp hp
  obtain ⟨-, hfound | ⟨t₁, fs, dm, hlook, ha, hfat, rfl⟩⟩ := metaAlloc_cases hr
  · exact .inl hfound
  · obtain ⟨hdir, -, hnames⟩ := h.shape.dirlookup_none h.mounted hp hlook
    obtain ⟨rest, hfree, hs, rfl⟩ := h.shape.dirMetaAlloc ha
    have hpd := hs.not_held_of_rooted hp
    obtain ⟨hlt, -, -, hno⟩ := hs.spare d rfl
    exact .inr ⟨rest, fs, dm, hlook, hfree, hfat, rfl, hpd, ⟨hs.added hp hdir, h.mounted.added name hpd hlt fs dm⟩,
      fun hn => hn.added name hpd hno hnames fs dm⟩

/-- `metaCreate` finds an entry or makes one, which has no children. -/
theorem Sound.metaCreate (h : Sound t free kids) {c : Caller} {n : Nat} {fd : Int} {path : List Byte} {type : FileType}
    {mode : Nat} {r : Option Nat} (hc : t.Stands c fd path) (hr : metaCreate n t c fd path type mode = .ok (r, t')) :
    Leaves t t' (fun _ => False) ∧ ∀ d, r = some d → t'.InTree d ∧
      ((∃ p name t₁, metaNameDir n t c fd path = .ok (some p, name, t₁) ∧ t₁.dirlookup p name = .ok (some d) ∧ Still t t') ∨
        ((t'.nodes d).firstChild = none ∧ t.Free d)) := by
  rcases metaCreate_cases hr with ⟨name, hdir, rfl⟩ | ⟨p, name, t₁, d, hdir, hal, rfl⟩
  · obtain ⟨hs, -⟩ := lookupPath_rooted h.shape h.mounted hc hdir
    exact ⟨h.leaves_still hs, fun d hd => by cases hd⟩
  obtain ⟨hs, hp⟩ := lookupPath_rooted h.shape h.mounted hc hdir
  have h₁ := h.still hs
  have hl₁ := h.leaves_still hs
  have hp₁ : t₁.InTree p := (hs.inTree p).mpr (hp p rfl)
  rcases h₁.metaAlloc hp₁ hal with ⟨hlook, rfl⟩ | ⟨rest, fs, dm, hlook, hfree, -, ht₂, hpd, h₂, hn₂⟩
  · refine ⟨hl₁, fun e he => ?_⟩
    cases he
    have hd := h₁.shape.dirlookup_rooted h₁.mounted ((h₁.shape.inTree_iff p).mp hp₁) hlook
    exact ⟨(h₁.shape.inTree_iff d).mpr hd, .inl ⟨p, name, t', hdir, hlook, hs⟩⟩
  · have hl₂ : Leaves t₁ t' fun _ => False := by
      refine ⟨⟨_, _, h₂⟩, fun hn => ?_, fun x hx _ => ?_⟩
      · rw [h₂.shape.namesDiffer_iff]
        exact hn₂ (h₁.shape.namesDiffer_iff.mp hn)
      · refine (h₂.shape.inTree_iff x).mpr (((h₁.shape.inTree_iff x).mp hx).mono (fun y hy => ?_) fun y i hi => ?_)
        · rw [ht₂]
          exact (liveRoot_setFile _ d fs dm y).mpr hy
        · by_cases hy : y = p
          · rw [hy, update_self]
            exact List.mem_cons_of_mem _ (hy ▸ hi)
          · rwa [update_of_ne hy]
    refine ⟨hl₁.after hl₂, fun e he => ?_⟩
    cases he
    have hmem : d ∈ update kids p (d :: kids p) p := by
      rw [update_self]
      exact List.mem_cons_self ..
    have hne : update kids p (d :: kids p) p ≠ [] := List.ne_nil_of_mem hmem
    refine ⟨(h₂.shape.inTree_iff d).mpr (.child (h₂.shape.rooted p hne) hmem), .inr ⟨?_, ?_⟩⟩
    · rw [← h₂.shape.kids_nil_iff, update_of_ne (Ne.symm hpd)]
      exact h₁.shape.leaf d (hfree ▸ List.mem_cons_self ..)
    · rw [h.shape.free_iff, hfree]
      exact List.mem_cons_self ..

end Edits

end Exaros.Dir.Tree
