import Exaros.Dir.Edits

/-!
# What loading a volume builds

`loadDirMetas` puts every entry it reads into the list of its directory, and returns with its spare back in
the pool: whatever the disk holds, the tree it leaves has the shape of one.
-/

namespace Exaros.Dir

open Fat Linked
open Function (update update_self update_of_ne update_eq_self)

/-- Reading a directory leaves what kind of file it is. -/
theorem kind_nextLoop (n : Nat) {fs fs' : FileSystem} {dm dm' : DirMeta} {off cnt : Nat} {buf buf' : List Byte}
    {last : Option Nat} {r : Next} (h : nextLoop n fs dm off buf cnt last = .ok (r, buf', fs', dm')) : dm'.kind = dm.kind := by
  induction n generalizing fs dm off buf cnt last with
  | zero => cases h
  | succ n ih =>
    rw [nextLoop] at h
    cases hreloc : relocClus fs dm off false with
    | error e =>
      rw [hreloc] at h
      cases h
    | ok p =>
      obtain ⟨off2, fs₁, dm₁⟩ := p
      have hk := kind_relocClus hreloc
      rw [hreloc] at h
      dsimp only at h
      split at h
      · cases h
        exact hk
      · cases hrw : rwClusRead fs₁ dm₁.curClus off2.toNat 32 with
        | error e =>
          rw [hrw] at h
          cases h
        | ok p =>
          obtain ⟨m, entry⟩ := p
          rw [hrw] at h
          dsimp only at h
          split at h
          · cases h
            exact hk
          · split at h
            · exact (ih h).trans hk
            · split at h
              · split at h
                · cases h
                · cases h
                  exact hk
              · split at h
                · split at h
                  · cases h
                  · split at h
                    · cases h
                    · exact (ih h).trans hk
                · split at h
                  · cases h
                    exact hk
                  · cases h
                    exact hk

namespace Tree

section Load

variable {t t' t'' : Tree} {free : List Nat} {kids kids' kids'' : Nat → List Nat} {held : Option Nat} {f parent child off : Nat}

/-- What is in the tree stays in it, and stays what it is. -/
structure Grows (t : Tree) (kids : Nat → List Nat) (t' : Tree) (kids' : Nat → List Nat) : Prop where
  rooted : ∀ x, Rooted t.LiveRoot kids x → Rooted t'.LiveRoot kids' x
  isDir : ∀ x, Rooted t.LiveRoot kids x → t'.isDir x = t.isDir x

theorem Grows.trans (h : Grows t kids t' kids') (h' : Grows t' kids' t'' kids'') : Grows t kids t'' kids'' :=
  ⟨fun x hx => h'.rooted x (h.rooted x hx), fun x hx => (h'.isDir x (h.rooted x hx)).trans (h.isDir x hx)⟩

theorem Still.grows (hs : Still t t') (kids : Nat → List Nat) : Grows t kids t' kids :=
  ⟨fun _ hx => hx.mono (fun y hy => (hs.liveRoot y).mpr hy) fun _ _ hi => hi, fun x _ => hs.isDir x⟩

/-- What `dirMetaNext` leaves: its spare may be another entry than before. -/
structure Decoded (t : Tree) (child : Nat) (t' : Tree) : Prop where
  pointer : ∀ x, t'.next x = t.next x ∧ (t'.nodes x).firstChild = (t.nodes x).firstChild ∧ (t'.nodes x).parent = (t.nodes x).parent
  node : ∀ x, (t'.nodes x).head = (t.nodes x).head ∧ (t'.nodes x).fileSystem = (t.nodes x).fileSystem
  dirMetaHead : t'.dirMetaHead = t.dirMetaHead
  rootFileSystem : t'.rootFileSystem = t.rootFileSystem
  slot : ∀ f, (t'.fileSystem f).valid = (t.fileSystem f).valid ∧ (t'.fileSystem f).next = (t.fileSystem f).next
  kind : ∀ x, x ≠ child → (t'.dirMetas x).kind = (t.dirMetas x).kind

/-- What `dirMetaNext` changes in the tree. -/
theorem decoded_dirMetaNext {r : Next} (hr : t.dirMetaNext parent child off = .ok (r, t')) : Decoded t child t' := by
  unfold Tree.dirMetaNext at hr
  split at hr
  · cases hr
  · cases hnext : nextLoop (dirTurns (t.volume (t.fsOf parent)).superBlock) (t.volume (t.fsOf parent)) (t.dirMetas parent) off
      (List.replicate 260 0) 0 none with
    | error e =>
      rw [hnext] at hr
      cases hr
    | ok p =>
      obtain ⟨r₁, buf, fs, dm⟩ := p
      rw [hnext] at hr
      have hs := still_setFile t parent fs (kind_nextLoop _ hnext)
      let t₁ := t.setFile parent fs dm
      let t₂ := t₁.setNode child { t₁.nodes child with filename := cstr (buf.take (FAT32_MAX_FILENAME + 1)) }
      have hnodes : ∀ x, (t₂.nodes x).nextBrother = (t₁.nodes x).nextBrother ∧ (t₂.nodes x).firstChild = (t₁.nodes x).firstChild ∧
          (t₂.nodes x).parent = (t₁.nodes x).parent ∧ (t₂.nodes x).head = (t₁.nodes x).head ∧
          (t₂.nodes x).fileSystem = (t₁.nodes x).fileSystem := fun x => by
        by_cases hx : x = child
        · simp [t₂, Tree.setNode, hx]
        · simp [t₂, Tree.setNode, hx]
      have hd : Decoded t child t₂ := by
        refine ⟨fun x => ?_, fun x => ?_, hs.dirMetaHead, hs.rootFileSystem, hs.slot, fun x _ => hs.kind x⟩
        · obtain ⟨h1, h2, h3, -, -⟩ := hnodes x
          exact ⟨h1, h2, h3⟩
        · obtain ⟨-, -, -, h4, h5⟩ := hnodes x
          exact ⟨h4, h5⟩
      cases r₁ with
      | none =>
        cases hr
        exact hd
      | empty count =>
        cases hr
        exact hd
      | entry count e =>
        cases hr
        refine ⟨hd.pointer, hd.node, hd.dirMetaHead, hd.rootFileSystem, hd.slot, fun x hx => ?_⟩
        rw [← hd.kind x hx]
        show (update t₂.dirMetas child _ x).kind = _
        rw [update_of_ne hx]

theorem Decoded.liveRoot (h : Decoded t child t') (x : Nat) : t'.LiveRoot x ↔ t.LiveRoot x := by
  unfold LiveRoot
  simp only [(h.slot _).1]

theorem Decoded.isDir (h : Decoded t child t') {x : Nat} (hx : x ≠ child) : t'.isDir x = t.isDir x := by
  unfold Tree.isDir
  rw [attr_of_kind (h.kind x hx)]

theorem Decoded.shape (h : Decoded t child t') (hs : Shape t free kids (some child)) : Shape t' free kids (some child) :=
  hs.congr h.pointer h.dirMetaHead (fun x hx => (h.liveRoot x).mpr hx) fun _ hx =>
    h.isDir fun hxc => hx (hxc ▸ (hs.spare child rfl).2.2.1)

theorem Decoded.mounted (h : Decoded t child t') (hm : Mounted t) : Mounted t' where
  root := by
    rw [h.rootFileSystem, (h.slot _).1]
    exact hm.root
  head d f hd := by
    rw [(h.node d).1] at hd
    rw [(h.slot _).1]
    exact hm.head d f hd
  parent f hf := by
    rw [(h.slot _).1] at hf
    rw [(h.pointer _).2.2]
    exact hm.parent f hf
  self f hf := by
    rw [(h.slot _).1] at hf
    unfold fsOf
    rw [(h.node _).2]
    exact hm.self f hf

theorem Decoded.grows (h : Decoded t child t') (hs : Shape t free kids (some child)) : Grows t kids t' kids :=
  ⟨fun _ hx => hx.mono (fun y hy => (h.liveRoot y).mpr hy) fun _ _ hi => hi,
    fun _ hx => h.isDir (hs.not_held_of_rooted hx)⟩

/-- The entry read goes into the list of its directory. -/
theorem Shape.adopt (h : Shape t free kids (some child)) (f off : Nat) (hm : Mounted t) (hp : Rooted t.LiveRoot kids parent)
    (hdir : t.isDir parent = true) :
    Shape (t.adopt f parent child off) free (update kids parent (child :: kids parent)) none ∧
      Mounted (t.adopt f parent child off) ∧
      Grows t kids (t.adopt f parent child off) (update kids parent (child :: kids parent)) := by
  have hpc := h.not_held_of_rooted hp
  have hlt := (h.spare child rfl).1
  have hself : (t.adopt f parent child off).nodes child = { t.nodes child with
      parent := some parent, off, fileSystem := f, nextBrother := (t.nodes parent).firstChild } := by
    simp [Tree.adopt, Tree.setNode, Ne.symm hpc]
  have hpar : (t.adopt f parent child off).nodes parent = { t.nodes parent with firstChild := some child } := by
    simp [Tree.adopt, Tree.setNode, hpc]
  have hne : ∀ x, x ≠ child → x ≠ parent → (t.adopt f parent child off).nodes x = t.nodes x := fun x h1 h2 => by
    simp [Tree.adopt, Tree.setNode, h1, h2]
  have hshape : Shape (t.adopt f parent child off) free (update kids parent (child :: kids parent)) none := by
    refine h.attach hp hdir rfl (fun _ hr => hr) (fun _ _ => rfl) (fun x hx => ?_) (by rw [hpar]) (fun x hx => ?_)
      (by unfold Tree.next; rw [hself]) (fun x hx => ?_) (by rw [hself])
    · by_cases hxc : x = child
      · rw [hxc, hself]
      · rw [hne x hxc hx]
    · unfold Tree.next
      by_cases hxp : x = parent
      · rw [hxp, hpar]
      · rw [hne x hx hxp]
    · by_cases hxp : x = parent
      · rw [hxp, hpar]
      · rw [hne x hx hxp]
  have hroot : ∀ g, rootOf g ≠ child := fun g hgc => by
    unfold rootOf at hgc
    omega
  refine ⟨hshape, ⟨hm.root, fun x g hx => ?_, fun g hg => ?_, fun g hg => ?_⟩, fun x hx => ?_, fun _ _ => rfl⟩
  · by_cases hxc : x = child
    · rw [hxc, hself] at hx
      exact hm.head child g hx
    · by_cases hxp : x = parent
      · rw [hxp, hpar] at hx
        exact hm.head parent g hx
      · rw [hne x hxc hxp] at hx
        exact hm.head x g hx
  · have hs := hm.parent g hg
    by_cases hgp : rootOf g = parent
    · rw [hgp] at hs
      rw [hgp, hpar]
      exact hs
    · rw [hne _ (hroot g) hgp]
      exact hs
  · have hs := hm.self g hg
    unfold fsOf at hs ⊢
    by_cases hgp : rootOf g = parent
    · rw [hgp] at hs
      rw [hgp, hpar]
      exact hs
    · rw [hne _ (hroot g) hgp]
      exact hs
  · refine hx.mono (fun _ hr => hr) fun y i hi => ?_
    by_cases hy : y = parent
    · rw [hy, update_self]
      rw [hy] at hi
      exact List.mem_cons_of_mem _ hi
    · rwa [update_of_ne hy]

theorem still_relocStart {d : Nat} (h : t.relocStart d = .ok t') : Still t t' := by
  unfold Tree.relocStart at h
  cases hr : relocClus (t.volume (t.fsOf d)) (t.dirMetas d) 0 false with
  | error e =>
    rw [hr] at h
    cases h
  | ok p =>
    obtain ⟨r, fs, dm⟩ := p
    rw [hr] at h
    cases h
    exact still_setFile t d fs (kind_relocClus hr)

/-- A spare taken from the pool. -/
theorem Shape.take (h : Shape t free kids none) (hm : Mounted t) {d : Nat} (ha : t.dirMetaAlloc = .ok (d, t')) :
    ∃ rest, Shape t' rest kids (some d) ∧ Mounted t' ∧ Grows t kids t' kids := by
  obtain ⟨rest, -, hs, rfl⟩ := h.dirMetaAlloc ha
  exact ⟨rest, hs, ⟨hm.root, hm.head, hm.parent, hm.self⟩, fun _ hx => hx, fun _ _ => rfl⟩

/-- **A turn of `loadLoop`**: either there was no entry left, and the spare goes back, or it is linked, gone into
if it is a directory, and the next spare is taken. -/
theorem loadLoop_ok {n child off : Nat} (hr : loadLoop (n + 1) t f parent child off = .ok t') :
    ∃ r t₁, t.dirMetaNext parent child off = .ok (r, t₁) ∧ (t' = t₁.dirMetaFree child ∨
      ∃ count t₃ spare t₆, ((((t₁.adopt f parent child off).isDir child = true ∧ (32 < off ∨ parent = rootOf f)) ∧
          ∃ t₄ first t₅, (t₁.adopt f parent child off).relocStart child = .ok t₄ ∧ t₄.dirMetaAlloc = .ok (first, t₅) ∧
            loadLoop n t₅ f child first 0 = .ok t₃) ∨ t₃ = t₁.adopt f parent child off) ∧
        t₃.dirMetaAlloc = .ok (spare, t₆) ∧ loadLoop n t₆ f parent spare (Fat.u32 (off + count <<< 5)) = .ok t') := by
  rw [loadLoop] at hr
  obtain ⟨⟨r, t₁⟩, hnext, hr⟩ := Loop.bind_ok hr
  refine ⟨r, t₁, hnext, ?_⟩
  cases r with
  | none =>
    cases hr
    exact .inl rfl
  | empty count | entry count e =>
    obtain ⟨t₃, hsub, hr⟩ := Loop.bind_ok hr
    obtain ⟨⟨spare, t₆⟩, halloc, hr⟩ := Loop.bind_ok hr
    refine .inr ⟨count, t₃, spare, t₆, ?_, halloc, hr⟩
    split at hsub
    · rename_i hcond
      obtain ⟨t₄, hreloc, hsub⟩ := Loop.bind_ok hsub
      obtain ⟨⟨first, t₅⟩, hfirst, hsub⟩ := Loop.bind_ok hsub
      exact .inl ⟨hcond, t₄, first, t₅, hreloc, hfirst, hsub⟩
    · cases hsub
      exact .inr rfl

/-- **The loop of `loadDirMetas`.** The tree grows by the entries of the directory, and the spare goes back. -/
theorem shape_loadLoop (n : Nat) (h : Shape t free kids (some child)) (hm : Mounted t) (hp : Rooted t.LiveRoot kids parent)
    (hdir : t.isDir parent = true) (hr : loadLoop n t f parent child off = .ok t') :
    ∃ free' kids', Shape t' free' kids' none ∧ Mounted t' ∧ Grows t kids t' kids' := by
  induction n generalizing t free kids parent child off t' with
  | zero => cases hr
  | succ n ih =>
    obtain ⟨r, t₁, hnext, hr⟩ := loadLoop_ok hr
    have hd := decoded_dirMetaNext hnext
    have hs₁ := hd.shape h
    have hm₁ := hd.mounted hm
    have hg₁ := hd.grows h
    rcases hr with rfl | ⟨count, t₃, spare, t₆, hsub, halloc, hr⟩
    · have hre := relinked_dirMetaFree t₁ child
      refine ⟨_, kids, hs₁.dirMetaFree, hre.mounted hm₁, hg₁.trans ⟨fun _ hx => ?_, fun x _ => hre.isDir x⟩⟩
      exact hx.mono (fun y hy => (hre.liveRoot y).mpr hy) fun _ _ hi => hi
    · obtain ⟨hs₂, hm₂, hg₂⟩ := hs₁.adopt f off hm₁ (hg₁.rooted _ hp) (by rw [hg₁.isDir _ hp]; exact hdir)
      have hchild : Rooted (t₁.adopt f parent child off).LiveRoot (update kids parent (child :: kids parent)) child := by
        refine .child ((hg₁.trans hg₂).rooted _ hp) ?_
        rw [update_self]
        exact List.mem_cons_self ..
      -- the subdirectory, if it is one that is gone into
      have h₃ : ∃ free₃ kids₃, Shape t₃ free₃ kids₃ none ∧ Mounted t₃ ∧
          Grows (t₁.adopt f parent child off) (update kids parent (child :: kids parent)) t₃ kids₃ := by
        rcases hsub with ⟨hcond, t₄, first, t₅, hreloc, hfirst, hsub⟩ | rfl
        · have hst := still_relocStart hreloc
          obtain ⟨rest, hs₅, hm₅, hg₅⟩ := (hs₂.still hst).take (hm₂.still hst) hfirst
          have hg := (hst.grows _).trans hg₅
          obtain ⟨free₃, kids₃, hs₃, hm₃, hg₃⟩ := ih hs₅ hm₅ (hg.rooted _ hchild) (by rw [hg.isDir _ hchild]; exact hcond.1) hsub
          exact ⟨free₃, kids₃, hs₃, hm₃, hg.trans hg₃⟩
        · exact ⟨_, _, hs₂, hm₂, fun _ hx => hx, fun _ _ => rfl⟩
      obtain ⟨free₃, kids₃, hs₃, hm₃, hg₃⟩ := h₃
      obtain ⟨rest, hs₆, hm₆, hg₆⟩ := hs₃.take hm₃ halloc
      have hg := ((hg₁.trans hg₂).trans hg₃).trans hg₆
      obtain ⟨free', kids', hs', hm', hg'⟩ := ih hs₆ hm₆ (hg.rooted _ hp) (by rw [hg.isDir _ hp]; exact hdir) hr
      exact ⟨free', kids', hs', hm', hg.trans hg'⟩

theorem shape_loadDirMetas (h : Shape t free kids none) (hm : Mounted t) (hp : Rooted t.LiveRoot kids parent)
    (hdir : t.isDir parent = true) (hr : t.loadDirMetas f parent = .ok t') :
    ∃ free' kids', Shape t' free' kids' none ∧ Mounted t' ∧ Grows t kids t' kids' := by
  obtain ⟨t₁, hreloc, hr⟩ := Loop.bind_ok hr
  obtain ⟨⟨spare, t₂⟩, halloc, hr⟩ := Loop.bind_ok hr
  have hst := still_relocStart hreloc
  obtain ⟨rest, hs₂, hm₂, hg₂⟩ := (h.still hst).take (hm.still hst) halloc
  have hg := (hst.grows kids).trans hg₂
  obtain ⟨free', kids', hs', hm', hg'⟩ :=
    shape_loadLoop _ hs₂ hm₂ (hg.rooted _ hp) (by rw [hg.isDir _ hp]; exact hdir) hr
  exact ⟨free', kids', hs', hm', hg.trans hg'⟩

end Load

/-! ## The pool at the start -/

/-- `dirMetaInit` chains the pool from its last element down. -/
theorem dirMetaInit_eq (t : Tree) (n : Nat) : t.dirMetaInit n = { t with
    nodes := fun x => if x < n then { t.nodes x with nextBrother := if x = 0 then t.dirMetaHead else some (x - 1) } else t.nodes x
    dirMetaHead := if n = 0 then t.dirMetaHead else some (n - 1) } := by
  induction n with
  | zero => simp [Tree.dirMetaInit]
  | succ n ih =>
    rw [Tree.dirMetaInit, ih]
    simp only [Tree.dirMetaFree, Tree.setNode, Tree.mk.injEq, true_and, and_true]
    refine ⟨funext fun x => ?_, by simp⟩
    by_cases hx : x = n
    · subst hx
      simp
    · rw [update_of_ne hx]
      have : x < n + 1 ↔ x < n := by omega
      simp only [this]

theorem cells_pool {next : Nat → Option Nat} (n : Nat) (h : ∀ x < n, next x = if x = 0 then none else some (x - 1)) :
    Cells next (if n = 0 then none else some (n - 1)) (List.range n).reverse := by
  induction n with
  | zero => exact .nil
  | succ n ih =>
    rw [List.range_succ, List.reverse_append]
    refine .cons ?_
    rw [show n + 1 - 1 = n from rfl, h n (Nat.lt_succ_self n)]
    exact ih fun x hx => h x (Nat.lt_succ_of_lt hx)

/-- The tree before the root is loaded: the whole pool is free. -/
theorem shape_pool {t : Tree} (hnode : ∀ x, (t.nodes x).firstChild = none)
    (hnext : ∀ x < DIRMETA_NUM, t.next x = if x = 0 then none else some (x - 1))
    (hhead : t.dirMetaHead = some (DIRMETA_NUM - 1)) : Shape t (List.range DIRMETA_NUM).reverse (fun _ => []) none where
  freeCells := by
    rw [hhead]
    exact cells_pool DIRMETA_NUM hnext
  kidCells d := by
    rw [hnode d]
    exact .nil
  placed i hi := .inl (List.mem_reverse.mpr (List.mem_range.mpr hi))
  free_lt i hi := List.mem_range.mp (List.mem_reverse.mp hi)
  kids_lt d i hi := by cases hi
  spare i hi := by cases hi
  parent d i hi := by cases hi
  apart d i hi := by cases hi
  leaf i hi := rfl
  dirs d hd := absurd rfl hd
  rooted d hd := absurd rfl hd

/-- The kernel's data when `fatInit` is called for the root. -/
def pooled : Tree :=
  { zero with
    nodes := fun x => if x < DIRMETA_NUM then { zeroNode with nextBrother := if x = 0 then none else some (x - 1) } else zeroNode
    dirMetaHead := some (DIRMETA_NUM - 1)
    fileSystem := update zero.fileSystem 0 ⟨true, zeroVolume, none⟩ }

theorem bootRoot_eq (d : Disk) : bootRoot d = pooled.fatInit 0 d := by
  have halloc : zero.fsAlloc = some (0, { zero with fileSystem := update zero.fileSystem 0 ⟨true, zeroVolume, none⟩ }) := by
    have hfind : ((List.range FILE_SYSTEMS).find? fun i => !(zero.fileSystem i).valid) = some 0 := rfl
    unfold Tree.fsAlloc
    rw [hfind]
    simp [Tree.setNode, Tree.setMeta, zero]
  unfold bootRoot
  rw [halloc]
  dsimp only
  rw [dirMetaInit_eq]
  rfl

/-- The tree when `fatInit` has set up the root of the volume `fs` and goes on to load it. -/
def rootSet (fs : FileSystem) : Tree :=
  ((pooled.setVolume 0 fs).setNode (rootOf 0) { zeroNode with filename := [slash], fileSystem := 0 }).setMeta (rootOf 0)
    (rootMeta fs.superBlock.rootClus)

theorem rootSet_root (fs : FileSystem) : (rootSet fs).nodes (rootOf 0) = { zeroNode with filename := [slash], fileSystem := 0 } := by
  simp [rootSet, Tree.setMeta, Tree.setNode]

theorem rootSet_node (fs : FileSystem) {x : Nat} (hx : x ≠ rootOf 0) : (rootSet fs).nodes x = pooled.nodes x :=
  update_of_ne hx _ _

theorem rootSet_fileSystem (fs : FileSystem) (f : Nat) :
    (rootSet fs).fileSystem f = if f = 0 then ⟨true, fs, none⟩ else ⟨false, zeroVolume, none⟩ := by
  by_cases hf : f = 0
  · simp [rootSet, Tree.setMeta, Tree.setNode, Tree.setVolume, pooled, hf]
  · simp [rootSet, Tree.setMeta, Tree.setNode, Tree.setVolume, pooled, zero, hf]

theorem rootSet_volume (fs : FileSystem) : (rootSet fs).volume ((rootSet fs).fsOf (rootOf 0)) = fs := by
  have hfs : (rootSet fs).fsOf (rootOf 0) = 0 := by
    unfold Tree.fsOf
    rw [rootSet_root]
  have hslot : (rootSet fs).fileSystem 0 = ⟨true, fs, none⟩ := by rw [rootSet_fileSystem, if_pos rfl]
  unfold Tree.volume
  rw [hfs, hslot]
  rfl

theorem rootSet_valid {fs : FileSystem} {f : Nat} (hf : ((rootSet fs).fileSystem f).valid = true) : f = 0 := by
  rw [rootSet_fileSystem] at hf
  by_contra hne
  rw [if_neg hne] at hf
  cases hf

theorem shape_rootSet (fs : FileSystem) : Shape (rootSet fs) (List.range DIRMETA_NUM).reverse (fun _ => []) none := by
  refine shape_pool (fun x => ?_) (fun x hx => ?_) rfl
  · by_cases hx : x = rootOf 0
    · rw [hx, rootSet_root]
      rfl
    · rw [rootSet_node fs hx]
      simp only [pooled]
      split <;> rfl
  · have hne : x ≠ rootOf 0 := fun hx0 => by
      unfold rootOf at hx0
      omega
    unfold Tree.next
    rw [rootSet_node fs hne]
    simp only [pooled, if_pos hx]

theorem rootSet_head (fs : FileSystem) (x : Nat) : ((rootSet fs).nodes x).head = none := by
  by_cases hx : x = rootOf 0
  · rw [hx, rootSet_root]
    rfl
  · rw [rootSet_node fs hx]
    simp only [pooled]
    split <;> rfl

theorem mounted_rootSet (fs : FileSystem) : Mounted (rootSet fs) := by
  refine ⟨?_, fun x f hx => ?_, fun f hf => ?_, fun f hf => ?_⟩
  · rw [rootSet_fileSystem]
    rfl
  · rw [rootSet_head] at hx
    cases hx
  · rw [rootSet_valid hf, rootSet_root]
    rfl
  · unfold fsOf
    rw [rootSet_valid hf, rootSet_root]

theorem bootRoot_cases {d : Disk} {t : Tree} (h : bootRoot d = .ok t) :
    ∃ fs, Fat.fatInit d (fun _ _ => 0) (fun _ => 0) = .ok fs ∧ (rootSet fs).loadDirMetas 0 (rootOf 0) = .ok t := by
  rw [bootRoot_eq] at h
  unfold Tree.fatInit at h
  have hpool : Fat.fatInit d pooled.inodes pooled.inodeBitmap = Fat.fatInit d (fun _ _ => 0) (fun _ => 0) := rfl
  rw [hpool] at h
  cases hfat : Fat.fatInit d (fun _ _ => 0) (fun _ => 0) with
  | error e =>
    rw [hfat] at h
    cases h
  | ok fs =>
    rw [hfat] at h
    exact ⟨fs, rfl, h⟩

/-! ### An empty root -/

theorem relocClus_root (fs : FileSystem) {c : Nat} (hc : c ≠ 0) :
    relocClus fs (rootMeta c) 0 false = .ok (0, fs, rootMeta c) := by
  have hfind : metaFindInode fs (rootMeta c) 0 = .ok (rootMeta c) := by
    unfold metaFindInode
    rw [if_pos ⟨Nat.lt_succ_self 0, by decide⟩]
    rfl
  have hlt : 0 < (rootMeta c).inodeMaxCluster := Nat.lt_succ_self 0
  unfold relocClus
  rw [if_neg (by simp [rootMeta, hc])]
  simp only [Nat.zero_div, Nat.zero_mod]
  rw [if_pos hlt, hfind]
  rfl

theorem rootSet_meta (fs : FileSystem) : (rootSet fs).dirMetas (rootOf 0) = rootMeta fs.superBlock.rootClus := by
  simp [rootSet, Tree.setMeta]

theorem rootSet_setFile (fs : FileSystem) :
    (rootSet fs).setFile (rootOf 0) fs (rootMeta fs.superBlock.rootClus) = rootSet fs := by
  have hfs : (rootSet fs).fsOf (rootOf 0) = 0 := by
    unfold fsOf
    rw [rootSet_root]
  unfold Tree.setFile Tree.setVolume Tree.setMeta
  rw [hfs]
  have hmeta : update (rootSet fs).dirMetas (rootOf 0) (rootMeta fs.superBlock.rootClus) = (rootSet fs).dirMetas := by
    rw [← rootSet_meta]
    exact update_eq_self _ _
  have hslot : update (rootSet fs).fileSystem 0 { (rootSet fs).fileSystem 0 with volume := fs } = (rootSet fs).fileSystem := by
    have hself : { (rootSet fs).fileSystem 0 with volume := fs } = (rootSet fs).fileSystem 0 := by
      rw [rootSet_fileSystem]
      rfl
    rw [hself]
    exact update_eq_self _ _
  rw [hmeta, hslot]
  rfl

/-- A volume whose root directory is empty. -/
theorem load_empty {fs : FileSystem} (hc : fs.superBlock.rootClus ≠ 0) {e : Dentry}
    (hread : rwClusRead fs fs.superBlock.rootClus 0 32 = .ok (32, e)) (he : e.order = END_OF_ENTRY) :
    (rootSet fs).loadDirMetas 0 (rootOf 0) = .ok (rootSet fs) := by
  have hvol : (rootSet fs).volume ((rootSet fs).fsOf (rootOf 0)) = fs := by
    unfold fsOf
    rw [rootSet_root]
    unfold Tree.volume
    rw [rootSet_fileSystem]
    rfl
  have hreloc := relocClus_root fs hc
  have hstart : (rootSet fs).relocStart (rootOf 0) = .ok (rootSet fs) := by
    unfold Tree.relocStart
    rw [hvol, rootSet_meta, hreloc]
    dsimp only
    rw [rootSet_setFile]
  let t₁ : Tree := { rootSet fs with dirMetaHead := (rootSet fs).next (DIRMETA_NUM - 1) }
  have halloc : (rootSet fs).dirMetaAlloc = .ok (DIRMETA_NUM - 1, t₁) := rfl
  have hnext : nextLoop (dirTurns fs.superBlock) fs (rootMeta fs.superBlock.rootClus) 0 (List.replicate 260 0) 0 none =
      .ok (.none, List.replicate 260 0, fs, rootMeta fs.superBlock.rootClus) := by
    unfold dirTurns
    rw [nextLoop, hreloc]
    dsimp only
    rw [if_neg (by decide)]
    have hcur : (rootMeta fs.superBlock.rootClus).curClus = fs.superBlock.rootClus := rfl
    rw [hcur]
    have h0 : Int.toNat 0 = 0 := rfl
    rw [h0, hread]
    dsimp only
    rw [if_pos (.inr he)]
  have hvol₁ : t₁.volume (t₁.fsOf (rootOf 0)) = fs := hvol
  have hmeta₁ : t₁.dirMetas (rootOf 0) = rootMeta fs.superBlock.rootClus := rootSet_meta fs
  have hset₁ : t₁.setFile (rootOf 0) fs (rootMeta fs.superBlock.rootClus) = t₁ := by
    have hset := rootSet_setFile fs
    calc t₁.setFile (rootOf 0) fs (rootMeta fs.superBlock.rootClus)
        = { (rootSet fs).setFile (rootOf 0) fs (rootMeta fs.superBlock.rootClus) with
            dirMetaHead := (rootSet fs).next (DIRMETA_NUM - 1) } := rfl
      _ = t₁ := by rw [hset]
  have hnode : (rootSet fs).nodes (DIRMETA_NUM - 1) = { zeroNode with nextBrother := some (DIRMETA_NUM - 2) } := by
    rw [rootSet_node fs (by decide)]
    rfl
  have hspare : t₁.setNode (DIRMETA_NUM - 1) { t₁.nodes (DIRMETA_NUM - 1) with
      filename := cstr ((List.replicate 260 0).take (FAT32_MAX_FILENAME + 1)) } = t₁ := by
    have hname : { t₁.nodes (DIRMETA_NUM - 1) with filename := cstr ((List.replicate 260 0).take (FAT32_MAX_FILENAME + 1)) } =
        t₁.nodes (DIRMETA_NUM - 1) := by
      have hnode₁ : t₁.nodes (DIRMETA_NUM - 1) = { zeroNode with nextBrother := some (DIRMETA_NUM - 2) } := hnode
      rw [hnode₁]
      rfl
    rw [hname]
    unfold Tree.setNode
    rw [update_eq_self]
  have hdecode : t₁.dirMetaNext (rootOf 0) (DIRMETA_NUM - 1) 0 = .ok (.none, t₁) := by
    have hdir : t₁.isDir (rootOf 0) = true := by
      unfold Tree.isDir
      rw [hmeta₁]
      show decide ((ATTR_DIRECTORY ||| ATTR_SYSTEM) &&& ATTR_DIRECTORY ≠ 0) = true
      decide
    unfold Tree.dirMetaNext
    rw [if_neg (by simp [hdir]), hvol₁, hmeta₁, hnext]
    dsimp only
    rw [hset₁, hspare]
  have hfree : t₁.dirMetaFree (DIRMETA_NUM - 1) = rootSet fs := by
    have hback : { t₁.nodes (DIRMETA_NUM - 1) with nextBrother := t₁.dirMetaHead } = (rootSet fs).nodes (DIRMETA_NUM - 1) := rfl
    unfold Tree.dirMetaFree Tree.setNode
    rw [hback]
    show ({ rootSet fs with
      nodes := update (rootSet fs).nodes (DIRMETA_NUM - 1) ((rootSet fs).nodes (DIRMETA_NUM - 1)) } : Tree) = rootSet fs
    rw [update_eq_self]
  unfold Tree.loadDirMetas
  rw [hstart, Loop.ok_bind, halloc, Loop.ok_bind]
  dsimp only
  rw [loadLoop, hdecode, Loop.ok_bind]
  dsimp only
  rw [hfree]
  rfl

/-! ### Any root -/

/-- **What boot loads is a tree**, whatever the disk holds. -/
theorem shape_bootRoot {d : Disk} {t : Tree} (h : bootRoot d = .ok t) : ∃ free kids, Shape t free kids none ∧ Mounted t := by
  obtain ⟨fs, -, hload⟩ := bootRoot_cases h
  have hp : Rooted (rootSet fs).LiveRoot (fun _ => []) (rootOf 0) := by
    refine .root ⟨0, ?_, rfl⟩
    rw [rootSet_fileSystem]
    rfl
  have hdir : (rootSet fs).isDir (rootOf 0) = true := by
    unfold Tree.isDir
    rw [rootSet_meta]
    show decide ((ATTR_DIRECTORY ||| ATTR_SYSTEM) &&& ATTR_DIRECTORY ≠ 0) = true
    decide
  obtain ⟨free', kids', hs', hm', -⟩ := shape_loadDirMetas (shape_rootSet fs) (mounted_rootSet fs) hp hdir hload
  exact ⟨free', kids', hs', hm'⟩

/-! ## After boot -/

section Boot

variable {t t' : Tree} {free : List Nat} {kids : Nat → List Nat} {c : Caller} {n : Nat}

/-- Without a working directory every path of a process stands. -/
theorem Sound.stands_cwd (h : Sound t free kids) (hc : ∀ d, c.cwd = some d → t.InTree d) (path : List Byte) :
    t.Stands c AT_FDCWD path := by
  refine ⟨hc, fun d hd => (h.shape.inTree_iff d).mpr (anchored_cwd h.mounted (fun e he => ?_) path d hd)⟩
  exact (h.shape.inTree_iff e).mp (hc e he)

theorem Sound.bootEntry (h : Sound t free kids) (hc : c.cwd = none) {e : BootEntry} (hr : bootEntry n c t e = .ok t') :
    ∃ free' kids', Sound t' free' kids' := by
  obtain ⟨path, type, r, t₁, hcreate, hrest⟩ := bootEntry_cases hr
  have hstands : t.Stands c AT_FDCWD path := h.stands_cwd (fun d hd => by rw [hc] at hd; cases hd) path
  obtain ⟨free₁, kids₁, h₁⟩ := (h.metaCreate hstands hcreate).1.sound
  rcases hrest with rfl | ⟨d, -, ⟨dev, rfl⟩ | ⟨text, x, hw⟩⟩
  · exact ⟨_, _, h₁⟩
  · exact ⟨_, _, h₁.setMeta rfl⟩
  · exact ⟨_, _, h₁.still (still_metaWrite hw)⟩

theorem Sound.bootEntries (es : List BootEntry) (h : Sound t free kids) (hc : c.cwd = none)
    (hr : es.foldlM (Tree.bootEntry n c) t = .ok t') : ∃ free' kids', Sound t' free' kids' := by
  refine @Loop.foldlM_inv _ _ _ _ (fun t => ∃ free kids, Sound t free kids) _ _ _ hr ⟨free, kids, h⟩ fun t e t' h he => ?_
  obtain ⟨free₁, kids₁, h₁⟩ := h
  exact h₁.bootEntry hc he

/-- A file system in use becomes the first one mounted on an entry. -/
theorem Sound.setHead (h : Sound t free kids) {d f : Nat} (hf : (t.fileSystem f).valid = true) :
    Sound (t.setNode d { t.nodes d with head := some f }) free kids := by
  have hnode : ∀ x, ((t.setNode d { t.nodes d with head := some f }).nodes x).parent = (t.nodes x).parent ∧
      ((t.setNode d { t.nodes d with head := some f }).nodes x).fileSystem = (t.nodes x).fileSystem ∧
      ((t.setNode d { t.nodes d with head := some f }).nodes x).firstChild = (t.nodes x).firstChild ∧
      (t.setNode d { t.nodes d with head := some f }).next x = t.next x := fun x => by
    by_cases hx : x = d
    · simp [Tree.setNode, Tree.next, hx]
    · simp [Tree.setNode, Tree.next, hx]
  refine ⟨h.shape.congr (fun x => ⟨(hnode x).2.2.2, (hnode x).2.2.1, (hnode x).1⟩) rfl (fun _ hr => hr) fun _ _ => rfl,
    h.mounted.root, fun x g hx => ?_, fun g hg => (hnode _).1.trans (h.mounted.parent g hg),
    fun g hg => (hnode _).2.1.trans (h.mounted.self g hg)⟩
  by_cases hxd : x = d
  · simp only [Tree.setNode, hxd, update_self, Option.some.injEq] at hx
    exact hx ▸ hf
  · simp only [Tree.setNode, update_of_ne hxd] at hx
    exact h.mounted.head x g hx

/-- **What boot builds is a tree.** -/
theorem sound_initRootFileSystem {script : List Byte} {d : Disk} (hc : c.cwd = none)
    (h : initRootFileSystem n c script d = .ok t) : ∃ free kids, Sound t free kids := by
  obtain ⟨t₀, hroot, h⟩ := Loop.bind_ok h
  obtain ⟨t₁, hfirst, h⟩ := Loop.bind_ok h
  obtain ⟨t₂, hvda2, hrest⟩ := Loop.bind_ok h
  obtain ⟨free₀, kids₀, hs₀, hm₀⟩ := shape_bootRoot hroot
  obtain ⟨free₁, kids₁, h₁⟩ := Sound.bootEntries _ ⟨hs₀, hm₀⟩ hc hfirst
  obtain ⟨v, t₃, hcreate, rfl⟩ := bootVda2_cases hvda2
  have hstands : t₁.Stands c AT_FDCWD (bytes "/dev/vda2") := h₁.stands_cwd (fun d hd => by rw [hc] at hd; cases hd) _
  obtain ⟨free₃, kids₃, h₃⟩ := (h₁.metaCreate hstands hcreate).1.sound
  exact Sound.bootEntries _ (h₃.setHead h₃.mounted.root) hc hrest

end Boot

end Tree

end Exaros.Dir
