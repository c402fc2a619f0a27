import Exaros.Dir.Runs
import Exaros.Files.Table

/-!
# Reading a directory

`syscallGetDirent` and what creating and removing entries does to the list it reads. A file that stands for a
directory keeps its place in it as a plain pointer, `curChild`, to the entry that comes next. `Ordered` is what
the reading of one directory needs: its children in one list, apart from the free list. It is kept by every call
that creates or removes an entry in this directory, whatever becomes of the rest of the tree.

The records are what a call has put into the buffer of the user; a call that panics while it copies them is left
out, `copyout` has no other way to fail.
-/

namespace Exaros.Dir

open Fat Linked

def DT_DIR : Nat := 4
def DT_REG : Nat := 8

/-- `dir64->d_name - dir64` -/
def D_NAME : Nat := 19

structure linux_dirent64 where
  d_ino : Nat
  d_off : Nat
  d_reclen : Nat
  d_type : Nat
  d_name : List Byte
deriving DecidableEq, Repr

/-- What `syscallGetDirent` returns, has put into the buffer and leaves in the file. -/
structure Read where
  nread : Int
  dirents : List linux_dirent64
  curChild : Option Nat
deriving DecidableEq, Repr

namespace Tree

/-- `prefix + len + 1` -/
def direntSize (t : Tree) (cur : Nat) : Nat := D_NAME + (t.nodes cur).filename.length + 1

def dirent (t : Tree) (cur : Nat) : linux_dirent64 where
  d_ino := 0
  d_off := 0
  d_reclen := t.direntSize cur % 2 ^ 16
  d_type := if t.isDir cur then DT_DIR else DT_REG
  d_name := (t.nodes cur).filename

/-- The loop of `syscallGetDirent`, for at most `fuel` entries. -/
def direntLoop (t : Tree) : Nat → Int → Option Nat → Read
  | 0, _, curChild => ⟨0, [], curChild⟩
  | _ + 1, _, none => ⟨0, [], none⟩
  | fuel + 1, n, some cur =>
    if n < t.direntSize cur then ⟨0, [], some cur⟩
    else
      let r := direntLoop t fuel (n - t.direntSize cur) (t.nodes cur).nextBrother
      ⟨t.direntSize cur + r.nread, t.dirent cur :: r.dirents, r.curChild⟩

/-- `syscallGetDirent` with a buffer of `n` bytes; `type` is the type of the file, if there is one. Each entry uses
a byte of the buffer at least. -/
def syscallGetDirent (t : Tree) (type : Option Files.FdType) (curChild : Option Nat) (n : Int) : Read :=
  match type with
  | none => ⟨-2, [], curChild⟩
  | some .entry => t.direntLoop (n.toNat + 1) n curChild
  | some _ => ⟨-5, [], curChild⟩

/-- `file->curChild` of a file `syscallOpenAt` opens. -/
def openChild (t : Tree) (entryPoint : Nat) : Option Nat :=
  if t.isDir entryPoint then (t.nodes entryPoint).firstChild else none

section Loop

variable {t : Tree} {fuel : Nat} {n : Int} {cur : Option Nat} {l : List Nat}

theorem direntSize_pos (t : Tree) (i : Nat) : 0 < t.direntSize i := Nat.succ_pos _

/-- The loop goes along the list from the cursor on. -/
theorem direntLoop_cells (h : Cells t.next cur l) : ∃ l₁ l₂, l = l₁ ++ l₂ ∧ (t.direntLoop fuel n cur).dirents = l₁.map t.dirent ∧
    Cells t.next (t.direntLoop fuel n cur).curChild l₂ := by
  induction fuel generalizing n cur l with
  | zero => exact ⟨[], l, rfl, rfl, h⟩
  | succ fuel ih =>
    cases h with
    | nil => exact ⟨[], [], rfl, rfl, .nil⟩
    | @cons x l h =>
      unfold direntLoop
      split
      · exact ⟨[], x :: l, rfl, rfl, .cons h⟩
      · obtain ⟨l₁, l₂, rfl, hmap, hrest⟩ := @ih (n - t.direntSize x) _ _ h
        refine ⟨x :: l₁, l₂, rfl, ?_, hrest⟩
        rw [List.map_cons]
        exact congrArg _ hmap

theorem direntLoop_nonneg : 0 ≤ (t.direntLoop fuel n cur).nread := by
  induction fuel generalizing n cur with
  | zero => exact le_rfl
  | succ fuel ih =>
    cases cur with
    | none => exact le_rfl
    | some x =>
      unfold direntLoop
      split
      · exact le_rfl
      · have hrest := @ih (n - t.direntSize x) (t.nodes x).nextBrother
        show 0 ≤ (t.direntSize x : Int) + _
        omega

/-- A buffer with room for the next entry is used. -/
theorem direntLoop_pos {x : Nat} (hroom : t.direntSize x ≤ n) : 0 < (t.direntLoop (fuel + 1) n (some x)).nread := by
  unfold direntLoop
  rw [if_neg (Int.not_lt.mpr hroom)]
  have hsize := t.direntSize_pos x
  have hrest := @direntLoop_nonneg t fuel (n - t.direntSize x) (t.nodes x).nextBrother
  show 0 < (t.direntSize x : Int) + _
  omega

end Loop

/-! ## One directory -/

/-- The children of `dir` in one list, apart from the free list. -/
structure Ordered (t : Tree) (dir : Nat) (free kids : List Nat) : Prop where
  freeCells : Cells t.next t.dirMetaHead free
  kidCells : Cells t.next (t.nodes dir).firstChild kids
  free_lt : ∀ i ∈ free, i < DIRMETA_NUM
  kids_lt : ∀ i ∈ kids, i < DIRMETA_NUM
  apart : ∀ i ∈ kids, i ∉ free
  not_free : dir ∉ free
  not_self : dir ∉ kids
  parent : ∀ i ∈ kids, (t.nodes i).parent = some dir
  up : dir = rootOf (t.fsOf dir) ∨ (t.nodes dir).parent ≠ none
  names : (kids.map fun i => (t.nodes i).filename).Nodup

/-- What a call leaves of the children `kids` of `dir`: `kept`, behind the `new` ones. `gone` are those it may remove. -/
structure Passage (t t' : Tree) (dir : Nat) (kids : List Nat) (gone : Nat → Prop) (free new kept : List Nat) : Prop where
  ordered : Ordered t' dir free (new ++ kept)
  sublist : kept.Sublist kids
  stays : ∀ i ∈ kids, ¬ gone i → i ∈ kept
  fresh : ∀ i ∈ new, i ∉ kids
  filename : ∀ i ∈ kept, (t'.nodes i).filename = (t.nodes i).filename

def Passes (t t' : Tree) (dir : Nat) (kids : List Nat) (gone : Nat → Prop) : Prop :=
  ∃ free new kept, Passage t t' dir kids gone free new kept

section Ordered

variable {t t' t'' : Tree} {dir d : Nat} {free kids new kept : List Nat} {gone gone' : Nat → Prop} {name : List Byte}

theorem Ordered.lists_iff (h : Ordered t dir free kids) (i : Nat) : t.Lists dir i ↔ i ∈ kids := by
  constructor
  · rintro ⟨l, hl, hi⟩
    rwa [hl.unique h.kidCells] at hi
  · intro hi
    exact ⟨kids, h.kidCells, hi⟩

theorem Ordered.length_le (h : Ordered t dir free kids) : kids.length ≤ DIRMETA_NUM := by
  have hsub : kids ⊆ List.range DIRMETA_NUM := fun i hi => List.mem_range.mpr (h.kids_lt i hi)
  have hle := (List.subperm_of_subset h.kidCells.nodup hsub).length_le
  rwa [List.length_range] at hle

/-- Only the pointers count. -/
theorem Ordered.congr (h : Ordered t dir free kids) (hnodes : t'.nodes = t.nodes) (hhead : t'.dirMetaHead = t.dirMetaHead) :
    Ordered t' dir free kids := by
  have hnext : t'.next = t.next := by
    unfold Tree.next
    rw [hnodes]
  have hfs : t'.fsOf dir = t.fsOf dir := by
    unfold Tree.fsOf
    rw [hnodes]
  refine ⟨?_, ?_, h.free_lt, h.kids_lt, h.apart, h.not_free, h.not_self, ?_, ?_, ?_⟩
  · rw [hnext, hhead]
    exact h.freeCells
  · rw [hnext, hnodes]
    exact h.kidCells
  · rw [hnodes]
    exact h.parent
  · rw [hfs, hnodes]
    exact h.up
  · rw [hnodes]
    exact h.names

theorem Ordered.still (h : Ordered t dir free kids) (hs : Still t t') : Ordered t' dir free kids := h.congr hs.nodes hs.dirMetaHead

theorem Ordered.unmoved (h : Ordered t dir free kids) (hnodes : t'.nodes = t.nodes) (hhead : t'.dirMetaHead = t.dirMetaHead)
    (gone : Nat → Prop) : Passage t t' dir kids gone free [] kids :=
  ⟨h.congr hnodes hhead, List.Sublist.refl _, fun _ hi _ => hi, fun _ hi => absurd hi List.not_mem_nil, fun i _ => by rw [hnodes]⟩

/-- Only the pointers count, before the call and after it. -/
theorem Passage.congr {s s' : Tree} (h : Passage s s' dir kids gone free new kept) (hbefore : s.nodes = t.nodes)
    (hnodes : t'.nodes = s'.nodes) (hhead : t'.dirMetaHead = s'.dirMetaHead) : Passage t t' dir kids gone free new kept :=
  ⟨h.ordered.congr hnodes hhead, h.sublist, h.stays, h.fresh, fun i hi => by rw [hnodes, h.filename i hi, hbefore]⟩

/-- A call after one that removes nothing. -/
theorem Passage.after {free' new' kept' : List Nat} (h : Passage t t' dir kids (fun _ => False) free new kept)
    (h' : Passage t' t'' dir (new ++ kept) gone free' new' kept') (hgone : ∀ i ∈ kids, gone i → gone' i) :
    Passes t t'' dir kids gone' := by
  obtain ⟨k₁, k₂, rfl, hk₁, hk₂⟩ := List.sublist_append_iff.mp h'.sublist
  have hkids : ∀ i ∈ kids, i ∈ kept := fun i hi => h.stays i hi id
  refine ⟨free', new' ++ k₁, k₂, ?_, hk₂.trans h.sublist, fun i hi hno => ?_, fun i hi => ?_, fun i hi => ?_⟩
  · rw [List.append_assoc]
    exact h'.ordered
  · have hmem := h'.stays i (List.mem_append_right _ (hkids i hi)) fun hg => hno (hgone i hi hg)
    refine (List.mem_append.mp hmem).resolve_left fun hi₁ => ?_
    exact h.fresh i (hk₁.subset hi₁) hi
  · intro hmem
    rcases List.mem_append.mp hi with hi | hi
    · exact h'.fresh i hi (List.mem_append_right _ (hkids i hmem))
    · exact h.fresh i (hk₁.subset hi) hmem
  · rw [h'.filename i (List.mem_append_right _ hi)]
    exact h.filename i (hk₂.subset hi)

/-- **`metaRemove`** of a child, whatever it holds. -/
theorem Ordered.metaRemove (h : Ordered t dir free kids) (hd : d ∈ kids) (hr : t.metaRemove d = .ok t') :
    Passage t t' dir kids (· = d) (d :: free) [] (kids.erase d) := by
  obtain ⟨t₁, hr₁, hre, hhead, -, hnext, hlist⟩ := metaRemove_cells h.kidCells h.length_le hd (h.parent d hd)
  rw [hr] at hr₁
  cases hr₁
  have hre' := hre.trans (relinked_dirMetaFree t₁ d)
  have hnodup := h.kidCells.nodup
  have hnot : d ∉ kids.erase d := hnodup.not_mem_erase
  have hdfree : d ∉ free := h.apart d hd
  have hdir : d ≠ dir := fun heq => h.not_self (heq ▸ hd)
  have hnode : ∀ x, x ≠ d → (t₁.dirMetaFree d).nodes x = t₁.nodes x := fun x hx => Function.update_of_ne hx _ _
  have hself : (t₁.dirMetaFree d).nodes d = { t₁.nodes d with nextBrother := t₁.dirMetaHead } := Function.update_self ..
  have hnext' : ∀ x, x ≠ d → (t₁.dirMetaFree d).next x = t₁.next x := fun x hx => by
    unfold Tree.next
    rw [hnode x hx]
  have hfirst : (t₁.dirMetaFree d).next d = t.dirMetaHead := by
    unfold Tree.next
    rw [hself, hhead]
  have hmem : ∀ i ∈ kids.erase d, i ∈ kids := fun i hi => List.mem_of_mem_erase hi
  refine ⟨⟨?_, ?_, ?_, fun i hi => h.kids_lt i (hmem i hi), ?_, ?_, fun hi => h.not_self (hmem _ hi), ?_, ?_, ?_⟩,
    List.erase_sublist, ?_, fun i hi => absurd hi List.not_mem_nil, fun i _ => (hre'.node i).1⟩
  · refine h.freeCells.push (fun b hb => ?_) hfirst
    have hbd : b ≠ d := fun heq => hdfree (heq ▸ hb)
    rw [hnext' b hbd]
    exact hnext b fun hbk => h.apart b hbk hb
  · rw [hnode dir (Ne.symm hdir)]
    exact hlist.congr fun b hb => hnext' b fun heq => hnot (heq ▸ hb)
  · intro i hi
    rcases List.mem_cons.mp hi with rfl | hi
    · exact h.kids_lt i hd
    · exact h.free_lt i hi
  · intro i hi hf
    rcases List.mem_cons.mp hf with rfl | hf
    · exact hnot hi
    · exact h.apart i (hmem i hi) hf
  · intro hf
    rcases List.mem_cons.mp hf with heq | hf
    · exact hdir heq.symm
    · exact h.not_free hf
  · intro i hi
    rw [(hre'.node i).2.2.2]
    exact h.parent i (hmem i hi)
  · unfold Tree.fsOf
    rw [(hre'.node dir).2.1, (hre'.node dir).2.2.2]
    exact h.up
  · have hnames : (fun i => ((t₁.dirMetaFree d).nodes i).filename) = fun i => (t.nodes i).filename := funext fun i => (hre'.node i).1
    rw [hnames]
    exact h.names.sublist (List.Sublist.map _ List.erase_sublist)
  · intro i hi hid
    exact (List.mem_erase_of_ne hid).mpr hi

/-- A name that is not found is no child's name. -/
theorem Ordered.dirlookup_none (h : Ordered t dir free kids) (hdir : t.isDir dir = true)
    (hr : t.dirlookup dir name = .ok none) : ∀ i ∈ kids, sameName (t.nodes i).filename name = false := by
  rw [dirlookup_cells h.kidCells h.length_le hdir] at hr
  have hr := Except.ok.inj hr
  split at hr
  · cases hr
  · split at hr
    · split at hr
      · cases hr
      · rename_i hne
        exact absurd hr (h.up.resolve_left hne)
    · intro i hi
      have hfind := List.find?_eq_none.mp hr i hi
      simpa using hfind

/-- The list after `metaAlloc` has made entry `d`. -/
theorem Ordered.added {rest : List Nat} (h : Ordered t dir (d :: rest) kids)
    (hnames : ∀ i ∈ kids, sameName (t.nodes i).filename name = false) (fs : FileSystem) (dm : DirMeta) :
    Passage t (t.added d dir name fs dm) dir kids (fun _ => False) rest [d] kids := by
  have hmem : d ∈ d :: rest := List.mem_cons_self ..
  have hpd : dir ≠ d := fun heq => h.not_free (heq ▸ hmem)
  have hdk : d ∉ kids := fun hd => h.apart d hd hmem
  have hdr : d ∉ rest := (List.nodup_cons.mp h.freeCells.nodup).1
  have hfree : Cells t.next (t.next d) rest := by
    have hcells := h.freeCells
    cases hh : t.dirMetaHead with
    | none =>
      rw [hh] at hcells
      cases hcells
    | some x =>
      rw [hh] at hcells
      cases hcells with
      | cons hrest => exact hrest
  have hself : (t.added d dir name fs dm).nodes d = { t.nodes d with
      parent := some dir
      nextBrother := (t.nodes dir).firstChild
      fileSystem := (t.nodes dir).fileSystem
      filename := name.take FAT32_MAX_FILENAME } := link_self { t with dirMetaHead := t.next d } name hpd
  have hpar : (t.added d dir name fs dm).nodes dir = { t.nodes dir with firstChild := some d } :=
    link_parent { t with dirMetaHead := t.next d } name hpd
  have hother : ∀ x, x ≠ d → x ≠ dir → (t.added d dir name fs dm).nodes x = t.nodes x := fun x hx hxd =>
    link_of_ne { t with dirMetaHead := t.next d } name hx hxd
  have hnext : ∀ x, x ≠ d → (t.added d dir name fs dm).next x = t.next x := fun x hx => by
    unfold Tree.next
    by_cases hxd : x = dir
    · rw [hxd, hpar]
    · rw [hother x hx hxd]
  have hkid : ∀ i ∈ kids, (t.added d dir name fs dm).nodes i = t.nodes i := fun i hi =>
    hother i (fun heq => hdk (heq ▸ hi)) fun heq => h.not_self (heq ▸ hi)
  refine ⟨⟨?_, ?_, fun i hi => h.free_lt i (List.mem_cons_of_mem _ hi), ?_, ?_, fun hi => h.not_free (List.mem_cons_of_mem _ hi), ?_,
    ?_, ?_, ?_⟩, List.Sublist.refl _, fun _ hi _ => hi, ?_, fun i hi => by rw [hkid i hi]⟩
  · exact hfree.congr fun b hb => hnext b fun heq => hdr (heq ▸ hb)
  · rw [hpar]
    refine h.kidCells.push (fun b hb => hnext b fun heq => hdk (heq ▸ hb)) ?_
    unfold Tree.next
    rw [hself]
  · intro i hi
    rcases List.mem_cons.mp hi with rfl | hi
    · exact h.free_lt i hmem
    · exact h.kids_lt i hi
  · intro i hi hf
    rcases List.mem_cons.mp hi with rfl | hi
    · exact hdr hf
    · exact h.apart i hi (List.mem_cons_of_mem _ hf)
  · intro hi
    rcases List.mem_cons.mp hi with heq | hi
    · exact hpd heq
    · exact h.not_self hi
  · intro i hi
    rcases List.mem_cons.mp hi with rfl | hi
    · rw [hself]
    · rw [hkid i hi]
      exact h.parent i hi
  · unfold Tree.fsOf
    rw [hpar]
    exact h.up
  · have hmap : kids.map (fun i => ((t.added d dir name fs dm).nodes i).filename) = kids.map fun i => (t.nodes i).filename :=
      List.map_congr_left fun i hi => by rw [hkid i hi]
    rw [List.singleton_append, List.map_cons, hmap, hself]
    refine List.nodup_cons.mpr ⟨fun hin => ?_, h.names⟩
    obtain ⟨i, hi, heq⟩ := List.mem_map.mp hin
    have hno := hnames i hi
    rw [heq] at hno
    simp [sameName, List.take_take] at hno
  · intro i hi
    obtain rfl := List.mem_singleton.mp hi
    exact hdk

/-- **`metaAlloc`**: the entry of that name, or a new one in front of the others. -/
theorem Ordered.metaAlloc (h : Ordered t dir free kids) {attr : Nat} (hr : t.metaAlloc dir name attr = .ok (d, t')) :
    (t.dirlookup dir name = .ok (some d) ∧ t' = t) ∨ ∃ rest, Passage t t' dir kids (fun _ => False) rest [d] kids := by
  obtain ⟨hdir, hfound | ⟨t₁, fs, dm, hlook, ha, -, rfl⟩⟩ := metaAlloc_cases hr
  · exact .inl hfound
  · have hnames := h.dirlookup_none hdir hlook
    have hfree := h.freeCells
    unfold Tree.dirMetaAlloc at ha
    cases hh : t.dirMetaHead with
    | none =>
      rw [hh] at ha
      cases ha
    | some x =>
      rw [hh] at ha hfree
      cases ha
      cases hfree with
      | @cons _ rest hrest => exact .inr ⟨rest, h.added hnames fs dm⟩

/-- No entry is its own child. -/
theorem Shape.not_self {kids : Nat → List Nat} {held : Option Nat} (h : Shape t free kids held) (hm : Mounted t) (hd : Rooted t.LiveRoot kids d) :
    d ∉ kids d := by
  induction hd with
  | root hr =>
    obtain ⟨f, hf, rfl⟩ := hr
    intro hmem
    have hp := h.parent _ _ hmem
    rw [hm.parent f hf] at hp
    cases hp
  | @child p i _ hi ih =>
    intro hmem
    have hp := h.parent i i hmem
    rw [h.parent p i hi] at hp
    obtain rfl := Option.some.inj hp
    exact ih hi

/-- In a tree that is in order every directory is. -/
theorem Inv.ordered (h : t.Inv) (hd : t.InTree dir) : ∃ free kids, t.Ordered dir free kids := by
  obtain ⟨free, kids, hg⟩ := h
  have hs := hg.shape
  have hr := (hs.inTree_iff dir).mp hd
  refine ⟨free, kids dir, hs.freeCells, hs.kidCells dir, hs.free_lt, hs.kids_lt dir, hs.apart dir, fun hf => ?_,
    hs.not_self hg.mounted hr, hs.parent dir, ?_, hg.names dir⟩
  · exact hg.toSound.not_free hd ((hs.free_iff dir).mpr hf)
  · cases hr with
    | root hr =>
      obtain ⟨f, hf, rfl⟩ := hr
      left
      rw [hg.mounted.self f hf]
    | child _ hi =>
      right
      rw [hs.parent _ dir hi]
      exact Option.some_ne_none _

section Calls

variable {c : Caller} {n : Nat}

/-- `metaCreate` in `dir`. -/
theorem Ordered.metaCreate (h : Ordered t dir free kids) {fd : Int} {path : List Byte} {type : FileType} {mode : Nat} {r : Option Nat}
    (hin : ∀ p name t₁, metaNameDir n t c fd path = .ok (some p, name, t₁) → p = dir)
    (hr : metaCreate n t c fd path type mode = .ok (r, t')) :
    ∃ free' new, Passage t t' dir kids (fun _ => False) free' new kids ∧ ∀ d, r = some d → d ∈ new ∨
      ∃ name t₁, metaNameDir n t c fd path = .ok (some dir, name, t₁) ∧ t₁.dirlookup dir name = .ok (some d) := by
  rcases metaCreate_cases hr with ⟨name, hdir, rfl⟩ | ⟨p, name, t₁, d, hdir, hal, rfl⟩
  · have hs : Still t t' := still_lookupPath hdir
    exact ⟨free, [], h.unmoved hs.nodes hs.dirMetaHead _, fun d hd => by cases hd⟩
  · have hs : Still t t₁ := still_lookupPath hdir
    obtain rfl := hin p name t₁ hdir
    rcases (h.still hs).metaAlloc hal with ⟨hlook, rfl⟩ | ⟨rest, hpass⟩
    · refine ⟨free, [], h.unmoved hs.nodes hs.dirMetaHead _, fun e he => .inr ⟨name, t', hdir, ?_⟩⟩
      cases he
      exact hlook
    · refine ⟨rest, [d], hpass.congr hs.nodes rfl rfl, fun e he => .inl ?_⟩
      cases he
      exact List.mem_singleton.mpr rfl

/-- `do_unlinkat` of an entry of `dir`. -/
theorem Ordered.do_unlinkat (h : Ordered t dir free kids) {fd : Int} {path : List Byte} {r : Int}
    (hin : ∀ d t₁, metaName n t c fd path true = .ok (some d, t₁) → t.Lists dir d)
    (hr : do_unlinkat n t c fd path = .ok (r, t')) :
    Passes t t' dir kids fun d => ∃ t₁, metaName n t c fd path true = .ok (some d, t₁) := by
  rcases do_unlinkat_cases hr with ⟨-, hname⟩ | ⟨d, t₁, t₂, -, hname, htrunc, hrem⟩
  · have hs : Still t t' := still_metaName hname
    exact ⟨free, [], kids, h.unmoved hs.nodes hs.dirMetaHead _⟩
  · have hs : Still t t₂ := (still_metaName hname).trans (still_metaTrunc htrunc)
    have hd : d ∈ kids := (h.lists_iff d).mp (hin d t₁ hname)
    have hpass : Passage t t' dir kids (· = d) (d :: free) [] (kids.erase d) := by
      refine Passage.congr ((h.congr ?_ ?_).metaRemove hd hrem) ?_ rfl rfl
      · exact hs.nodes
      · exact hs.dirMetaHead
      · exact hs.nodes
    refine ⟨_, _, _, hpass.ordered, hpass.sublist, fun i hi hno => hpass.stays i hi fun hid => hno ⟨t₁, ?_⟩, hpass.fresh,
      hpass.filename⟩
    rw [hid]
    exact hname

end Calls

end Ordered

end Tree

end Exaros.Dir
