import Exaros.Dir.Dirent

/-!
# A directory read while it changes

One open directory, and the calls that read it and that create or remove entries in it, in any order and by any
process. `trees` are the trees since it was opened: an entry that is a child in all of them should be returned once.
The cursor is neither moved nor counted when an entry is removed, so a run in which the entry at the cursor stays and
every buffer has room for the next record is a complete listing, and others need not be.

**What it does not establish.** Whether an entry that comes or goes meanwhile is returned.
-/

namespace Exaros.Dir

open Fat Linked

/-- A file that stands for a directory, and what has been read from it. -/
structure Listing where
  tree : Tree
  curChild : Option Nat
  /-- the trees since it was opened -/
  trees : List Tree
  /-- all records returned -/
  records : List linux_dirent64
  /-- whether a call has returned 0 -/
  ended : Bool

inductive ListOp where
  /-- `syscallGetDirent` with a buffer of `n` bytes -/
  | getdents (n : Int)
  | edit (depth : Nat) (op : Op)

namespace Tree

/-- The call comes to `metaRemove` of the entry. -/
def Removes (n : Nat) (t : Tree) : Op → Nat → Prop
  | .create .., _ => False
  | .linkat c oldDirFd oldPath newDirFd newPath, d => ∃ e t₁ t₂, metaName n t c oldDirFd oldPath true = .ok (some e, t₁) ∧
      metaCreate n t₁ c newDirFd newPath .file 2 = .ok (some d, t₂) ∧
      (t₂.getAbsolutePath e FAT32_MAX_PATH = none ∨ ∃ buf r t₃, t₂.getAbsolutePath e FAT32_MAX_PATH = some buf ∧
        t₂.metaWrite d (buf ++ [0]) 0 (buf.length + 1) = .ok (r, t₃) ∧ r ≠ buf.length + 1)
  | .unlinkat c fd path, d => ∃ t₁, metaName n t c fd path true = .ok (some d, t₁)

/-- The path names an entry of `dir`: one to create, one that a link is written to, or one to remove. -/
def Within (n : Nat) (t : Tree) (dir : Nat) : Op → Prop
  | .create c fd path _ _ => ∀ p name t₁, metaNameDir n t c fd path = .ok (some p, name, t₁) → p = dir
  | .linkat c oldDirFd oldPath newDirFd newPath => ∀ e t₁ p name t₂, metaName n t c oldDirFd oldPath true = .ok (some e, t₁) →
      metaNameDir n t₁ c newDirFd newPath = .ok (some p, name, t₂) →
        p = dir ∧ ∀ d, t₂.dirlookup dir name = .ok (some d) → t₂.Lists dir d
  | .unlinkat c fd path => ∀ d t₁, metaName n t c fd path true = .ok (some d, t₁) → t.Lists dir d

section Edit

variable {t t' : Tree} {dir n : Nat} {free kids : List Nat} {c : Caller}

/-- `do_linkat` to a path in `dir`. -/
theorem Ordered.do_linkat (h : Ordered t dir free kids) {oldDirFd newDirFd : Int} {oldPath newPath : List Byte} {r : Int}
    (hin : t.Within n dir (.linkat c oldDirFd oldPath newDirFd newPath))
    (hr : do_linkat n t c oldDirFd oldPath newDirFd newPath = .ok (r, t')) :
    Passes t t' dir kids (t.Removes n (.linkat c oldDirFd oldPath newDirFd newPath)) := by
  rcases do_linkat_cases hr with ⟨-, hmiss⟩ | ⟨e, t₁, target, t₂, hold, hcreate, hlink⟩
  · exact ⟨free, [], kids, h.unmoved hmiss.still.nodes hmiss.still.dirMetaHead _⟩
  · have hs : Still t t₁ := still_metaName hold
    obtain ⟨free', new, hpass, htarget⟩ :=
      (h.still hs).metaCreate (fun p name t₂ hp => (hin e t₁ p name t₂ hold hp).1) hcreate
    have hpass : Passage t t₂ dir kids (fun _ => False) free' new kids := hpass.congr hs.nodes rfl rfl
    have hmem : target ∈ new ++ kids := by
      rcases htarget target rfl with hnew | ⟨name, t₃, hdir, hlook⟩
      · exact List.mem_append_left _ hnew
      · have hlists := (hin e t₁ dir name t₃ hold hdir).2 target hlook
        have hs₃ : Still t₁ t₃ := still_lookupPath hdir
        exact List.mem_append_right _ (((h.still hs).still hs₃).lists_iff target |>.mp hlists)
    rcases hlink with ⟨habs, -, hrem⟩ | ⟨buf, k, t₃, habs, hw, hlink⟩
    · refine hpass.after (hpass.ordered.metaRemove hmem hrem) fun i _ hi => ?_
      subst hi
      exact ⟨e, t₁, t₂, hold, hcreate, .inl habs⟩
    · have hs₃ := still_metaWrite hw
      rcases hlink with ⟨hshort, -, hrem⟩ | ⟨-, -, rfl⟩
      · have hfail := (hpass.ordered.still hs₃).metaRemove hmem hrem
        refine hpass.after (hfail.congr hs₃.nodes rfl rfl) fun i _ hi => ?_
        subst hi
        exact ⟨e, t₁, t₂, hold, hcreate, .inr ⟨buf, k, t₃, habs, hw, hshort⟩⟩
      · exact ⟨free', new, kids, hpass.ordered.congr hs₃.nodes hs₃.dirMetaHead, hpass.sublist, fun i hi _ => hpass.stays i hi id,
          hpass.fresh, (hpass.congr rfl hs₃.nodes hs₃.dirMetaHead).filename⟩

/-- **A call that creates or removes in `dir`** keeps the list in order, and all entries but those it removes. -/
theorem Ordered.exec (h : Ordered t dir free kids) {op : Op} (hin : t.Within n dir op) (hr : t.exec n op = .ok t') :
    Passes t t' dir kids (t.Removes n op) := by
  cases op with
  | create c fd path type mode =>
    obtain ⟨⟨r, t₁⟩, hc, rfl⟩ := Loop.map_ok hr
    obtain ⟨free', new, hpass, -⟩ := h.metaCreate hin hc
    exact ⟨free', new, kids, hpass⟩
  | linkat c oldDirFd oldPath newDirFd newPath =>
    obtain ⟨⟨r, t₁⟩, hc, rfl⟩ := Loop.map_ok hr
    exact h.do_linkat hin hc
  | unlinkat c fd path =>
    obtain ⟨⟨r, t₁⟩, hc, rfl⟩ := Loop.map_ok hr
    exact h.do_unlinkat hin hc

end Edit

end Tree

namespace Listing

/-- A directory that has just been opened. -/
def opened (t : Tree) (dir : Nat) : Listing := ⟨t, t.openChild dir, [t], [], false⟩

/-- What `syscallGetDirent` on the file does. -/
def read (s : Listing) (n : Int) : Read := s.tree.syscallGetDirent (some .entry) s.curChild n

def exec (s : Listing) : ListOp → Except Halt Listing
  | .getdents n => .ok { s with
      curChild := (s.read n).curChild
      records := s.records ++ (s.read n).dirents
      ended := s.ended || decide ((s.read n).nread = 0) }
  | .edit depth op => (s.tree.exec depth op).map fun t => { s with tree := t, trees := t :: s.trees }

/-- The entry has been a child of `dir` since it was opened. -/
def Lasting (s : Listing) (dir i : Nat) : Prop := ∀ t ∈ s.trees, t.Lists dir i

/-- How many records of its name there are. -/
def count (s : Listing) (i : Nat) : Nat := (s.records.map linux_dirent64.d_name).count (s.tree.nodes i).filename

structure Complete (s : Listing) (dir : Nat) : Prop where
  /-- each record of the next call is that of an entry the directory lists -/
  sound : ∀ n, ∀ r ∈ (s.read n).dirents, ∃ i, s.tree.Lists dir i ∧ r = s.tree.dirent i
  once : ∀ i, s.Lasting dir i → s.count i ≤ 1
  all : s.ended = true → ∀ i, s.Lasting dir i → s.count i = 1

/-- Creations and removals in `dir`, by anyone. -/
def Within (s : Listing) (dir : Nat) : ListOp → Prop
  | .getdents _ => True
  | .edit depth op => s.tree.Within depth dir op

/-- There is room for the next record, and the entry at the cursor stays. -/
def Meets (s : Listing) : ListOp → Prop
  | .getdents n => ∀ x, s.curChild = some x → s.tree.direntSize x ≤ n
  | .edit depth op => ∀ x, s.curChild = some x → ¬ s.tree.Removes depth op x

/-- The states that steps of `P` reach once `dir`, whose list is in order, has been opened. -/
def Reached (P : Listing → ListOp → Prop) (dir : Nat) : Listing → Prop :=
  Run.Reach (fun s => ∃ t free kids, t.isDir dir = true ∧ t.Ordered dir free kids ∧ s = opened t dir)
    fun s s' => ∃ op, s.Within dir op ∧ P s op ∧ s.exec op = .ok s'

/-- The list is what has been returned and what the cursor leads to. -/
structure Split (s : Listing) (dir : Nat) (free done rest : List Nat) : Prop where
  ordered : s.tree.Ordered dir free (done ++ rest)
  cursor : Cells s.tree.next s.curChild rest
  current : s.tree ∈ s.trees
  returned : ∀ i ∈ done, s.Lasting dir i → s.count i = 1
  ahead : ∀ i ∈ rest, s.Lasting dir i → s.count i = 0
  ended : s.ended = true → rest = []

def Inv (s : Listing) (dir : Nat) : Prop := ∃ free done rest, s.Split dir free done rest

section Inv

variable {s s' : Listing} {dir : Nat} {free done rest : List Nat}

theorem Split.lasting_mem (h : s.Split dir free done rest) {i : Nat} (hi : s.Lasting dir i) : i ∈ done ++ rest :=
  (h.ordered.lists_iff i).mp (hi s.tree h.current)

theorem Split.read (h : s.Split dir free done rest) (n : Int) : ∃ l₁ l₂, rest = l₁ ++ l₂ ∧
    (s.read n).dirents = l₁.map s.tree.dirent ∧ Cells s.tree.next (s.read n).curChild l₂ := Tree.direntLoop_cells h.cursor

theorem Split.complete (h : s.Split dir free done rest) : s.Complete dir where
  sound n r hr := by
    obtain ⟨l₁, l₂, rfl, hmap, -⟩ := h.read n
    rw [hmap] at hr
    obtain ⟨i, hi, rfl⟩ := List.mem_map.mp hr
    exact ⟨i, (h.ordered.lists_iff i).mpr (List.mem_append_right _ (List.mem_append_left _ hi)), rfl⟩
  once i hi := by
    rcases List.mem_append.mp (h.lasting_mem hi) with hdone | hrest
    · exact (h.returned i hdone hi).le
    · exact (h.ahead i hrest hi).le.trans (Nat.zero_le 1)
  all hend i hi := by
    have hmem := h.lasting_mem hi
    rw [h.ended hend, List.append_nil] at hmem
    exact h.returned i hmem hi

/-- What a call on the list of `dir` leaves: new entries are in front of the cursor, and nothing has been read. -/
theorem Split.edit (h : s.Split dir free done rest) {gone : Nat → Prop} {t : Tree}
    (hpass : Tree.Passes s.tree t dir (done ++ rest) gone) (hstays : ∀ x, s.curChild = some x → ¬ gone x) :
    Inv { s with tree := t, trees := t :: s.trees } dir := by
  obtain ⟨free', new, kept, hpass⟩ := hpass
  have hnodup := h.ordered.kidCells.nodup
  have hcur : ∀ x, s.curChild = some x → x ∈ kept := fun x hx => by
    refine hpass.stays x (List.mem_append_right _ ?_) (hstays x hx)
    have hcells := h.cursor
    rw [hx] at hcells
    cases hcells with
    | cons _ => exact List.mem_cons_self ..
  obtain ⟨k₁, k₂, rfl, hk₁, hk₂, hcursor⟩ := h.cursor.cursor hnodup hpass.sublist hcur hpass.ordered.kidCells
  have hlast : ∀ i, Lasting { s with tree := t, trees := t :: s.trees } dir i → s.Lasting dir i := fun i hi t' ht' =>
    hi t' (List.mem_cons_of_mem _ ht')
  have hcount : ∀ i ∈ k₁ ++ k₂, count { s with tree := t, trees := t :: s.trees } i = s.count i := fun i hi => by
    unfold count
    rw [hpass.filename i hi]
  refine ⟨free', new ++ k₁, k₂, ?_, hcursor, List.mem_cons_self .., fun i hi hlasting => ?_, fun i hi hlasting => ?_, fun hend => ?_⟩
  · rw [List.append_assoc]
    exact hpass.ordered
  · rcases List.mem_append.mp hi with hnew | hi
    · exact absurd (h.lasting_mem (hlast i hlasting)) (hpass.fresh i hnew)
    · rw [hcount i (List.mem_append_left _ hi)]
      exact h.returned i (hk₁.subset hi) (hlast i hlasting)
  · rw [hcount i (List.mem_append_right _ hi)]
    exact h.ahead i (hk₂.subset hi) (hlast i hlasting)
  · have hnil := h.ended hend
    rw [hnil] at hk₂
    exact List.sublist_nil.mp hk₂

/-- The records of entries of the list: each name once, and of no others. -/
theorem count_dirents {t : Tree} {l₁ l₂ : List Nat} (hnames : ((l₁ ++ l₂).map fun i => (t.nodes i).filename).Nodup) {i : Nat} :
    (i ∈ l₁ → ((l₁.map t.dirent).map linux_dirent64.d_name).count (t.nodes i).filename = 1) ∧
      (i ∈ l₂ → ((l₁.map t.dirent).map linux_dirent64.d_name).count (t.nodes i).filename = 0) := by
  have hmap : (l₁.map t.dirent).map linux_dirent64.d_name = l₁.map fun i => (t.nodes i).filename := by
    rw [List.map_map]
    rfl
  rw [hmap]
  rw [List.map_append] at hnames
  obtain ⟨h₁, -, hdisj⟩ := List.nodup_append.mp hnames
  constructor
  · intro hi
    exact List.count_eq_one_of_mem h₁ (List.mem_map.mpr ⟨i, hi, rfl⟩)
  · intro hi
    refine List.count_eq_zero.mpr fun hmem => ?_
    exact hdisj _ hmem _ (List.mem_map.mpr ⟨i, hi, rfl⟩) rfl

/-- What a call of `syscallGetDirent` leaves: the records it returns are those of the entries the cursor has passed. -/
theorem Split.getdents (h : s.Split dir free done rest) {n : Int} (hroom : ∀ x, s.curChild = some x → s.tree.direntSize x ≤ n) :
    Inv { s with
      curChild := (s.read n).curChild
      records := s.records ++ (s.read n).dirents
      ended := s.ended || decide ((s.read n).nread = 0) } dir := by
  have hread : (s.read n).nread = 0 → s.curChild = none := fun hzero => by
    cases hc : s.curChild with
    | none => rfl
    | some x =>
      have hpos : 0 < (s.tree.direntLoop (n.toNat + 1) n (some x)).nread := Tree.direntLoop_pos (hroom x hc)
      have hzero : (s.tree.direntLoop (n.toNat + 1) n s.curChild).nread = 0 := hzero
      rw [hc] at hzero
      omega
  obtain ⟨l₁, l₂, rfl, hmap, hcursor⟩ := h.read n
  have hnames := h.ordered.names
  have hafter : ((l₁ ++ l₂).map fun i => (s.tree.nodes i).filename).Nodup := by
    rw [List.map_append] at hnames
    exact (List.nodup_append.mp hnames).2.1
  have hbefore : ((l₁ ++ done).map fun i => (s.tree.nodes i).filename).Nodup := by
    have hsub : (done ++ l₁).Sublist (done ++ (l₁ ++ l₂)) := List.Sublist.append (List.Sublist.refl _) (List.sublist_append_left ..)
    exact (List.Perm.nodup_iff (List.Perm.map _ List.perm_append_comm)).mp (hnames.sublist (List.Sublist.map _ hsub))
  have hcount : ∀ i, count { s with
      curChild := (s.read n).curChild
      records := s.records ++ (s.read n).dirents
      ended := s.ended || decide ((s.read n).nread = 0) } i =
        s.count i + ((l₁.map s.tree.dirent).map linux_dirent64.d_name).count (s.tree.nodes i).filename := fun i => by
    show ((s.records ++ (s.read n).dirents).map linux_dirent64.d_name).count _ = _
    rw [List.map_append, List.count_append, hmap]
    rfl
  refine ⟨free, done ++ l₁, l₂, ?_, hcursor, h.current, fun i hi hlasting => ?_, fun i hi hlasting => ?_, fun hend => ?_⟩
  · rw [List.append_assoc]
    exact h.ordered
  · rw [hcount]
    rcases List.mem_append.mp hi with hi | hi
    · rw [h.returned i hi hlasting, (count_dirents hbefore).2 hi]
    · rw [h.ahead i (List.mem_append_left _ hi) hlasting, (count_dirents hafter).1 hi]
  · rw [hcount, h.ahead i (List.mem_append_right _ hi) hlasting, (count_dirents hafter).2 hi]
  · have hnil : l₁ ++ l₂ = [] := by
      rcases Bool.or_eq_true_iff.mp hend with hend | hzero
      · exact h.ended hend
      · have hnone := hread (of_decide_eq_true hzero)
        have hcur : Cells s.tree.next none (l₁ ++ l₂) := hnone ▸ h.cursor
        exact hcur.unique .nil
    exact (List.append_eq_nil_iff.mp hnil).2

theorem Inv.exec (h : s.Inv dir) {op : ListOp} (hin : s.Within dir op) (hm : s.Meets op) (hr : s.exec op = .ok s') : s'.Inv dir := by
  obtain ⟨free, done, rest, h⟩ := h
  cases op with
  | getdents n =>
    cases hr
    exact h.getdents hm
  | edit depth op =>
    obtain ⟨t, ht, rfl⟩ := Loop.map_ok hr
    exact h.edit (h.ordered.exec hin ht) hm

theorem inv_opened {t : Tree} {kids : List Nat} (hdir : t.isDir dir = true) (h : t.Ordered dir free kids) : (opened t dir).Inv dir := by
  refine ⟨free, [], kids, h, ?_, List.mem_singleton.mpr rfl, fun i hi => absurd hi List.not_mem_nil, fun i _ _ => rfl,
    fun hend => by cases hend⟩
  show Cells t.next (t.openChild dir) kids
  unfold Tree.openChild
  rw [if_pos hdir]
  exact h.kidCells

end Inv

/-- **A directory is listed completely and soundly**, whatever is created and removed in it meanwhile, as long as the
entry at the cursor stays and each buffer has room for the next record. -/
theorem complete_of_reached (dir : Nat) (s : Listing) (h : Reached Meets dir s) : s.Complete dir := by
  have hinit : ∀ s : Listing, (∃ t free kids, t.isDir dir = true ∧ t.Ordered dir free kids ∧ s = opened t dir) → s.Inv dir := by
    rintro s ⟨t, free, kids, hdir, hord, rfl⟩
    exact inv_opened hdir hord
  have hstep : ∀ s s' : Listing, s.Inv dir → (∃ op, s.Within dir op ∧ s.Meets op ∧ s.exec op = .ok s') → s'.Inv dir := by
    rintro s s' hi ⟨op, hin, hm, hr⟩
    exact hi.exec hin hm hr
  have hinv : s.Inv dir := h.invariant hinit hstep
  obtain ⟨free, done, rest, hsplit⟩ := hinv
  exact hsplit.complete

/-! ## The root with two directories -/

open Tree

/-- The record of `/a`. -/
def direntA : linux_dirent64 := ⟨0, 0, 21, DT_DIR, [0x61]⟩

theorem made_root : (((rootSet (smallFs 4)).exec 1 mkdirA).toOption.map fun t =>
    (t.isDir (rootOf 0), (t.fileSystem 0).valid, t.openChild (rootOf 0))) = some (true, true, some (DIRMETA_NUM - 1)) := by
  decide +kernel

theorem made_lists : (((rootSet (smallFs 4)).exec 1 mkdirA).toOption.map fun t =>
    ((metaName 1 t atBoot AT_FDCWD pathA true).toOption.map Prod.fst, (t.nodes (rootOf 0)).firstChild,
      (t.nodes (DIRMETA_NUM - 1)).nextBrother)) = some (some (some (DIRMETA_NUM - 1)), some (DIRMETA_NUM - 1), none) := by
  decide +kernel

/-- The directory made and removed again. -/
def removed : Except Halt Tree := do
  let t ← (rootSet (smallFs 4)).exec 1 mkdirA
  t.exec 1 unlinkA

theorem removed_root : (removed.toOption.map fun t =>
    ((t.nodes (rootOf 0)).firstChild, (t.syscallGetDirent (some .entry) (some (DIRMETA_NUM - 1)) 22).dirents)) =
      some (none, [direntA]) := by
  decide +kernel

theorem reached_made {t : Tree} (ht : (rootSet (smallFs 4)).exec 1 mkdirA = .ok t) : Tree.Reached Tree.Meets t := by
  have hr₀ := reached_small Tree.Meets
  exact hr₀.step ⟨1, mkdirA, stands_atBoot hr₀.inv pathA, ht⟩

/-- The root, once it has been opened. -/
theorem reached_opened {t : Tree} (hr : Tree.Reached Tree.Meets t) (hdir : t.isDir (rootOf 0) = true)
    (hvalid : (t.fileSystem 0).valid = true) (P : Listing → ListOp → Prop) : Reached P (rootOf 0) (opened t (rootOf 0)) := by
  obtain ⟨free, kids, hord⟩ := hr.inv.ordered (.root ⟨0, hvalid, rfl⟩)
  exact .init ⟨t, free, kids, hdir, hord, rfl⟩

def mkdirB : Op := .create atBoot AT_FDCWD [slash, 0x62] .dir 0
def unlinkB : Op := .unlinkat atBoot AT_FDCWD [slash, 0x62]

/-- The record of `/b`. -/
def direntB : linux_dirent64 := { direntA with d_name := [0x62] }

/-- `/b` made behind `/a`, and removed again. -/
def removedB : Except Halt (Tree × Tree × Tree) := do
  let t₁ ← (rootSet (smallFs 4)).exec 1 mkdirA
  let t₂ ← t₁.exec 1 mkdirB
  let t₃ ← t₂.exec 1 unlinkB
  return (t₁, t₂, t₃)

theorem removedB_root : (removedB.toOption.map fun r => decide (r.2.1.isDir (rootOf 0) = true ∧ (r.2.1.fileSystem 0).valid = true ∧
    (metaName 1 r.2.1 atBoot AT_FDCWD [slash, 0x62] true).toOption.map Prod.fst = some (some (DIRMETA_NUM - 2)) ∧
    (r.2.1.nodes (rootOf 0)).firstChild = some (DIRMETA_NUM - 2) ∧ r.2.1.next (DIRMETA_NUM - 2) = some (DIRMETA_NUM - 1) ∧
    r.2.1.next (DIRMETA_NUM - 1) = none ∧ r.2.1.openChild (rootOf 0) = some (DIRMETA_NUM - 2) ∧
    (opened r.2.1 (rootOf 0)).tree.direntSize (DIRMETA_NUM - 2) = 21 ∧
    (opened r.2.1 (rootOf 0)).read 21 = ⟨21, [direntB], some (DIRMETA_NUM - 1)⟩ ∧ r.2.2.direntSize (DIRMETA_NUM - 1) = 21 ∧
    read ⟨r.2.2, some (DIRMETA_NUM - 1), [], [], false⟩ 512 = ⟨21, [direntA], none⟩)) = some true := by
  decide +kernel

/-- The root is read to its end, and the entry that has been returned is removed on the way. -/
theorem complete_read : ∃ s : Listing, Reached Meets (rootOf 0) s ∧ s.ended = true ∧ s.trees.length = 2 ∧
    s.records = [direntB, direntA] ∧ s.Complete (rootOf 0) := by
  obtain ⟨⟨t₁, t₂, t₃⟩, hrun, hfacts⟩ := Loop.exists_of_toOption removedB_root
  obtain ⟨t₁', hmkdirA, hrun⟩ := Loop.bind_ok hrun
  obtain ⟨t₂', hmkdirB, hrun⟩ := Loop.bind_ok hrun
  obtain ⟨t₃', hunlink, hrun⟩ := Loop.bind_ok hrun
  cases hrun
  obtain ⟨hdir, hvalid, hname, hfirst, hnext, hlast, hopen, hsizeB, hreadB, hsizeA, hreadA⟩ := of_decide_eq_true hfacts
  have hmade := reached_made hmkdirA
  have hmade₂ : Tree.Reached Tree.Meets t₂ := hmade.step ⟨1, mkdirB, stands_atBoot hmade.inv _, hmkdirB⟩
  have hr₀ := reached_opened hmade₂ hdir hvalid Meets
  have hr₁ : Reached Meets (rootOf 0) ⟨t₂, some (DIRMETA_NUM - 1), [t₂], [direntB], false⟩ := by
    refine hr₀.step ⟨.getdents 21, trivial, fun x hx => ?_, ?_⟩
    · cases hopen.symm.trans hx
      rw [hsizeB]
      decide
    · unfold exec
      dsimp only
      rw [hreadB]
      rfl
  have hlists : t₂.Lists (rootOf 0) (DIRMETA_NUM - 2) := by
    refine ⟨[DIRMETA_NUM - 2, DIRMETA_NUM - 1], ?_, List.mem_cons_self ..⟩
    rw [hfirst]
    refine .cons ?_
    rw [hnext]
    refine .cons ?_
    rw [hlast]
    exact .nil
  have hnamed : ∀ d t', metaName 1 t₂ atBoot AT_FDCWD [slash, 0x62] true = .ok (some d, t') → d = DIRMETA_NUM - 2 := fun d t' hd => by
    rw [hd] at hname
    exact Option.some.inj (Option.some.inj hname)
  have hr₂ : Reached Meets (rootOf 0) ⟨t₃, some (DIRMETA_NUM - 1), [t₃, t₂], [direntB], false⟩ := by
    refine hr₁.step ⟨.edit 1 unlinkB, fun d t' hd => hnamed d t' hd ▸ hlists, fun x hx => ?_, ?_⟩
    · -- the cursor is at `/a`
      rintro ⟨t', hd⟩
      cases hx
      exact absurd (hnamed _ t' hd) (by decide)
    · unfold exec
      dsimp only
      rw [hunlink]
      rfl
  have hr₃ : Reached Meets (rootOf 0) ⟨t₃, none, [t₃, t₂], [direntB, direntA], false⟩ := by
    refine hr₂.step ⟨.getdents 512, trivial, fun x hx => ?_, ?_⟩
    · cases hx
      rw [hsizeA]
      decide
    · unfold exec
      dsimp only
      rw [show read ⟨t₃, some (DIRMETA_NUM - 1), [t₃, t₂], [direntB], false⟩ 512 = _ from hreadA]
      rfl
  have hr₄ : Reached Meets (rootOf 0) ⟨t₃, none, [t₃, t₂], [direntB, direntA], true⟩ :=
    hr₃.step ⟨.getdents 512, trivial, fun x hx => (by cases hx), rfl⟩
  exact ⟨_, hr₄, rfl, rfl, rfl, complete_of_reached (rootOf 0) _ hr₄⟩

/-- The entry at the cursor removed: the next call returns it. -/
theorem not_complete_removed : ¬ ∀ (dir : Nat) (s : Listing), Reached (fun _ _ => True) dir s → s.Complete dir := by
  intro hall
  obtain ⟨t, ht, hfacts⟩ := Loop.exists_of_toOption made_root
  obtain ⟨hdir, hfacts⟩ := Prod.mk.inj hfacts
  obtain ⟨hvalid, hopen⟩ := Prod.mk.inj hfacts
  obtain ⟨t₁, ht₁, hlists⟩ := Loop.exists_of_toOption made_lists
  rw [ht] at ht₁
  cases ht₁
  obtain ⟨hname, hlists⟩ := Prod.mk.inj hlists
  obtain ⟨hfirst, hnext⟩ := Prod.mk.inj hlists
  obtain ⟨t₂, ht₂, hgone⟩ := Loop.exists_of_toOption removed_root
  obtain ⟨hnone, hread⟩ := Prod.mk.inj hgone
  have hunlink : t.exec 1 unlinkA = .ok t₂ := by
    obtain ⟨t₁, ht₁, hunlink⟩ := Loop.bind_ok ht₂
    rw [ht] at ht₁
    cases ht₁
    exact hunlink
  have hmem : t.Lists (rootOf 0) (DIRMETA_NUM - 1) := by
    refine ⟨[DIRMETA_NUM - 1], ?_, List.mem_cons_self ..⟩
    rw [hfirst]
    refine .cons ?_
    show Cells t.next (t.nodes (DIRMETA_NUM - 1)).nextBrother []
    rw [hnext]
    exact .nil
  have hin : t.Within 1 (rootOf 0) unlinkA := by
    intro d t₁ hd
    rw [hd] at hname
    obtain rfl : d = DIRMETA_NUM - 1 := Option.some.inj (Option.some.inj hname)
    exact hmem
  have hr : Reached (fun _ _ => True) (rootOf 0) ⟨t₂, some (DIRMETA_NUM - 1), [t₂, t], [], false⟩ := by
    refine (reached_opened (reached_made ht) hdir hvalid _).step ⟨.edit 1 unlinkA, hin, trivial, ?_⟩
    unfold exec opened
    dsimp only
    rw [hunlink, hopen]
    rfl
  have hdirents : direntA ∈ (read ⟨t₂, some (DIRMETA_NUM - 1), [t₂, t], [], false⟩ 22).dirents := by
    have hread : (read ⟨t₂, some (DIRMETA_NUM - 1), [t₂, t], [], false⟩ 22).dirents = [direntA] := hread
    rw [hread]
    exact List.mem_cons_self ..
  obtain ⟨i, ⟨l, hl, hi⟩, -⟩ := (hall _ _ hr).sound 22 direntA hdirents
  have hl : Cells t₂.next (t₂.nodes (rootOf 0)).firstChild l := hl
  rw [hnone] at hl
  cases hl
  cases hi

end Listing

end Exaros.Dir
