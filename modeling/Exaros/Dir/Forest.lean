import Exaros.Dir.Load
import Exaros.Fat.Kind

/-!
# The tree as lists

`Shape` reads the pointers of the tree as Lean lists: the free list and the children of every `DirMeta`. It
says that each `DirMeta` of the pool is in one of them, with an exception for the one that an operation
has taken and not yet put anywhere (`held`). One lemma for each of the four edits of the pointers: taking
from the free list, giving back, adding a child and taking a child out.
-/

namespace Exaros.Dir

open Fat Linked
open Function (update update_self update_of_ne)

/-- Reached from a root through lists of children. -/
inductive Rooted (root : Nat → Prop) (kids : Nat → List Nat) : Nat → Prop
  | root {d : Nat} (h : root d) : Rooted root kids d
  | child {d i : Nat} (h : Rooted root kids d) (hi : i ∈ kids d) : Rooted root kids i

section Rooted

variable {root root' : Nat → Prop} {kids kids' : Nat → List Nat} {d i : Nat}

theorem Rooted.mono (h : Rooted root kids d) (hr : ∀ d, root d → root' d) (hk : ∀ d, ∀ i ∈ kids d, i ∈ kids' d) :
    Rooted root' kids' d := by
  induction h with
  | root h => exact .root (hr _ h)
  | child _ hi ih => exact .child ih (hk _ _ hi)

/-- A childless child can go. -/
theorem Rooted.remove (h : Rooted root kids d) (hne : d ≠ i) (hleaf : kids i = [])
    (hk : ∀ d, ∀ j ∈ kids d, j ≠ i → j ∈ kids' d) : Rooted root kids' d := by
  induction h with
  | root h => exact .root h
  | @child d j _ hj ih =>
    have hd : d ≠ i := by
      intro hdi
      rw [hdi, hleaf] at hj
      cases hj
    exact .child (ih hd) (hk _ _ hj hne)

end Rooted

namespace Tree

def next (t : Tree) (d : Nat) : Option Nat := (t.nodes d).nextBrother

/-- The root of a file system in use. -/
def LiveRoot (t : Tree) (d : Nat) : Prop := ∃ f, (t.fileSystem f).valid = true ∧ d = rootOf f

/-- Entry `i` is in the free list. -/
def Free (t : Tree) (i : Nat) : Prop := ∃ l, Cells t.next t.dirMetaHead l ∧ i ∈ l

/-- Entry `i` is in the list of children of `d`. -/
def Lists (t : Tree) (d i : Nat) : Prop := ∃ l, Cells t.next (t.nodes d).firstChild l ∧ i ∈ l

/-- Reached from the root of a file system in use. -/
inductive InTree (t : Tree) : Nat → Prop
  | root {d : Nat} (h : t.LiveRoot d) : InTree t d
  | child {d i : Nat} (h : InTree t d) (hi : t.Lists d i) : InTree t i

structure Shape (t : Tree) (free : List Nat) (kids : Nat → List Nat) (held : Option Nat) : Prop where
  freeCells : Cells t.next t.dirMetaHead free
  kidCells : ∀ d, Cells t.next (t.nodes d).firstChild (kids d)
  placed : ∀ i < DIRMETA_NUM, i ∈ free ∨ held = some i ∨ ∃ d, i ∈ kids d
  free_lt : ∀ i ∈ free, i < DIRMETA_NUM
  kids_lt : ∀ d, ∀ i ∈ kids d, i < DIRMETA_NUM
  spare : ∀ i, held = some i → i < DIRMETA_NUM ∧ i ∉ free ∧ kids i = [] ∧ ∀ d, i ∉ kids d
  parent : ∀ d, ∀ i ∈ kids d, (t.nodes i).parent = some d
  apart : ∀ d, ∀ i ∈ kids d, i ∉ free
  leaf : ∀ i ∈ free, kids i = []
  dirs : ∀ d, kids d ≠ [] → t.isDir d = true
  rooted : ∀ d, kids d ≠ [] → Rooted t.LiveRoot kids d

/-- The pointers of the tree stay; files may change, but not what kind of entry each is. -/
structure Still (t t' : Tree) : Prop where
  nodes : t'.nodes = t.nodes
  dirMetaHead : t'.dirMetaHead = t.dirMetaHead
  rootFileSystem : t'.rootFileSystem = t.rootFileSystem
  slot : ∀ f, (t'.fileSystem f).valid = (t.fileSystem f).valid ∧ (t'.fileSystem f).next = (t.fileSystem f).next
  kind : ∀ d, (t'.dirMetas d).kind = (t.dirMetas d).kind

section Still

variable {t t' t'' : Tree}

theorem Still.refl (t : Tree) : Still t t := ⟨rfl, rfl, rfl, fun _ => ⟨rfl, rfl⟩, fun _ => rfl⟩

theorem Still.trans (h : Still t t') (h' : Still t' t'') : Still t t'' where
  nodes := h'.nodes.trans h.nodes
  dirMetaHead := h'.dirMetaHead.trans h.dirMetaHead
  rootFileSystem := h'.rootFileSystem.trans h.rootFileSystem
  slot f := ⟨(h'.slot f).1.trans (h.slot f).1, (h'.slot f).2.trans (h.slot f).2⟩
  kind d := (h'.kind d).trans (h.kind d)

theorem attr_of_kind {dm dm' : DirMeta} (h : dm'.kind = dm.kind) : dm'.attr = dm.attr := congrArg Prod.fst h

theorem Still.isDir (h : Still t t') (d : Nat) : t'.isDir d = t.isDir d := by
  unfold Tree.isDir
  rw [attr_of_kind (h.kind d)]

theorem Still.isLink (h : Still t t') (d : Nat) : t'.isLink d = t.isLink d := by
  have hres : (t'.dirMetas d).reserve = (t.dirMetas d).reserve := congrArg (fun k => k.2.1) (h.kind d)
  unfold Tree.isLink
  rw [hres]

theorem Still.liveRoot (h : Still t t') (d : Nat) : t'.LiveRoot d ↔ t.LiveRoot d := by
  unfold LiveRoot
  simp only [(h.slot _).1]

/-- An operation on one file. -/
theorem still_setFile (t : Tree) (d : Nat) (fs : FileSystem) {dm : DirMeta} (hk : dm.kind = (t.dirMetas d).kind) :
    Still t (t.setFile d fs dm) := by
  refine ⟨rfl, rfl, rfl, fun f => ?_, fun x => ?_⟩
  · show ((update t.fileSystem _ _) f).valid = _ ∧ ((update t.fileSystem _ _) f).next = _
    by_cases hf : f = t.fsOf d
    · subst hf
      simp
    · simp [hf]
  · show (update t.dirMetas d dm x).kind = _
    by_cases hx : x = d
    · subst hx
      simp [hk]
    · simp [hx]

theorem still_metaRead {d off n : Nat} {bytes : List Byte} (h : t.metaRead d off n = .ok (bytes, t')) : Still t t' := by
  unfold Tree.metaRead at h
  cases hr : Fat.metaRead (t.volume (t.fsOf d)) (t.dirMetas d) off n with
  | error e =>
    rw [hr] at h
    cases h
  | ok r =>
    obtain ⟨x, dst, fs, dm⟩ := r
    rw [hr] at h
    cases h
    exact still_setFile t d fs (kind_metaRead hr)

theorem still_metaWrite {d off n : Nat} {src : List Byte} {r : Int} (h : t.metaWrite d src off n = .ok (r, t')) :
    Still t t' := by
  unfold Tree.metaWrite at h
  cases hr : Fat.metaWrite (t.volume (t.fsOf d)) (t.dirMetas d) (fun i => src.getD i 0) off n with
  | error e =>
    rw [hr] at h
    cases h
  | ok r =>
    obtain ⟨x, fs, dm⟩ := r
    rw [hr] at h
    cases h
    exact still_setFile t d fs (kind_metaWrite hr)

theorem still_metaTrunc {d : Nat} (h : t.metaTrunc d = .ok t') : Still t t' := by
  unfold Tree.metaTrunc at h
  cases hr : Fat.metaTrunc (t.volume (t.fsOf d)) (t.dirMetas d) with
  | error e =>
    rw [hr] at h
    cases h
  | ok r =>
    obtain ⟨fs, dm⟩ := r
    rw [hr] at h
    cases h
    exact still_setFile t d fs (kind_metaTrunc hr)

end Still

/-! ## The edits -/

section Edits

variable {t t' : Tree} {free : List Nat} {kids : Nat → List Nat} {held : Option Nat} {d p : Nat}

/-- The shape depends on the pointers, on the file systems in use and on which entries are directories. -/
theorem Shape.congr (h : Shape t free kids held)
    (hn : ∀ x, t'.next x = t.next x ∧ (t'.nodes x).firstChild = (t.nodes x).firstChild ∧ (t'.nodes x).parent = (t.nodes x).parent)
    (hh : t'.dirMetaHead = t.dirMetaHead) (hv : ∀ d, t.LiveRoot d → t'.LiveRoot d)
    (hd : ∀ d, kids d ≠ [] → t'.isDir d = t.isDir d) : Shape t' free kids held where
  freeCells := by
    rw [hh]
    exact h.freeCells.congr fun a _ => (hn a).1
  kidCells d := by
    rw [(hn d).2.1]
    exact (h.kidCells d).congr fun a _ => (hn a).1
  placed := h.placed
  free_lt := h.free_lt
  kids_lt := h.kids_lt
  spare := h.spare
  parent d i hi := by
    rw [(hn i).2.2]
    exact h.parent d i hi
  apart := h.apart
  leaf := h.leaf
  dirs d hk := by
    rw [hd d hk]
    exact h.dirs d hk
  rooted d hk := (h.rooted d hk).mono hv fun _ _ hi => hi

theorem Shape.still (h : Shape t free kids held) (hs : Still t t') : Shape t' free kids held :=
  h.congr (fun x => by unfold Tree.next; rw [hs.nodes]; exact ⟨rfl, rfl, rfl⟩) hs.dirMetaHead
    (fun d hd => (hs.liveRoot d).mpr hd) fun d _ => hs.isDir d

theorem Shape.free_iff (h : Shape t free kids held) (i : Nat) : t.Free i ↔ i ∈ free := by
  constructor
  · rintro ⟨l, hl, hi⟩
    rwa [hl.unique h.freeCells] at hi
  · intro hi
    exact ⟨free, h.freeCells, hi⟩

theorem Shape.lists_iff (h : Shape t free kids held) (d i : Nat) : t.Lists d i ↔ i ∈ kids d := by
  constructor
  · rintro ⟨l, hl, hi⟩
    rwa [hl.unique (h.kidCells d)] at hi
  · intro hi
    exact ⟨kids d, h.kidCells d, hi⟩

theorem Shape.inTree_iff (h : Shape t free kids held) (d : Nat) : t.InTree d ↔ Rooted t.LiveRoot kids d := by
  constructor
  · intro hd
    induction hd with
    | root hr => exact .root hr
    | @child d i _ hi ih => exact .child ih ((h.lists_iff d i).mp hi)
  · intro hd
    induction hd with
    | root hr => exact .root hr
    | @child d i _ hi ih => exact .child ih ((h.lists_iff d i).mpr hi)

theorem Shape.kids_nil_iff (h : Shape t free kids held) (d : Nat) : kids d = [] ↔ (t.nodes d).firstChild = none := by
  have hk := h.kidCells d
  constructor
  · intro hnil
    rw [hnil] at hk
    cases hf : (t.nodes d).firstChild with
    | none => rfl
    | some x =>
      rw [hf] at hk
      cases hk
  · intro hf
    rw [hf] at hk
    exact hk.unique .nil

/-- A list of children is shorter than the pool. -/
theorem Shape.length_le (h : Shape t free kids held) (d : Nat) : (kids d).length ≤ DIRMETA_NUM := by
  have hsub : kids d ⊆ List.range DIRMETA_NUM := fun i hi => List.mem_range.mpr (h.kids_lt d i hi)
  have hle := (List.subperm_of_subset (h.kidCells d).nodup hsub).length_le
  rwa [List.length_range] at hle

theorem Shape.not_held_of_rooted (h : Shape t free kids (some d)) (hp : Rooted t.LiveRoot kids p) : p ≠ d := by
  intro hpd
  subst hpd
  obtain ⟨hlt, -, -, hno⟩ := h.spare p rfl
  cases hp with
  | root hr =>
    obtain ⟨f, -, hf⟩ := hr
    unfold rootOf at hf
    omega
  | child _ hi => exact hno _ hi

/-- `dirMetaAlloc` takes the first of the free list. -/
theorem Shape.dirMetaAlloc (h : Shape t free kids none) (ha : t.dirMetaAlloc = .ok (d, t')) :
    ∃ rest, free = d :: rest ∧ Shape t' rest kids (some d) ∧ t' = { t with dirMetaHead := t.next d } := by
  unfold Tree.dirMetaAlloc at ha
  have hfree := h.freeCells
  cases hh : t.dirMetaHead with
  | none =>
    rw [hh] at ha
    cases ha
  | some x =>
    rw [hh] at ha hfree
    cases ha
    cases hfree with
    | @cons _ rest hrest =>
      have hnodup := h.freeCells.nodup
      refine ⟨rest, rfl, ⟨hrest, h.kidCells, fun i hi => ?_, fun i hi => h.free_lt i (List.mem_cons_of_mem _ hi), h.kids_lt,
        fun i hi => ?_, h.parent, fun d i hi hr => h.apart d i hi (List.mem_cons_of_mem _ hr),
        fun i hi => h.leaf i (List.mem_cons_of_mem _ hi), h.dirs, h.rooted⟩, rfl⟩
      · rcases h.placed i hi with hf | hf | hf
        · rcases List.mem_cons.mp hf with rfl | hf
          · exact .inr (.inl rfl)
          · exact .inl hf
        · cases hf
        · exact .inr (.inr hf)
      · cases hi
        have hmem : d ∈ d :: rest := List.mem_cons_self ..
        exact ⟨h.free_lt d hmem, (List.nodup_cons.mp hnodup).1, h.leaf d hmem, fun e he => h.apart e d he hmem⟩

/-- `dirMetaFree` of an entry that is nowhere. -/
theorem Shape.dirMetaFree (h : Shape t free kids (some d)) : Shape (t.dirMetaFree d) (d :: free) kids none := by
  obtain ⟨hlt, hnf, hkids, hno⟩ := h.spare d rfl
  have hnode : ∀ x, x ≠ d → (t.dirMetaFree d).nodes x = t.nodes x := fun x hx => update_of_ne hx _ _
  have hself : (t.dirMetaFree d).nodes d = { t.nodes d with nextBrother := t.dirMetaHead } := update_self ..
  have hnext : ∀ x, x ≠ d → (t.dirMetaFree d).next x = t.next x := fun x hx => by
    unfold Tree.next
    rw [hnode x hx]
  refine ⟨h.freeCells.push (fun b hb => hnext b fun hbd => hnf (hbd ▸ hb)) (by unfold Tree.next; rw [hself]), fun x => ?_, fun i hi => ?_,
    fun i hi => ?_, h.kids_lt, fun i hi => (by cases hi), fun x i hi => ?_, fun x i hi hf => ?_, fun i hi => ?_, h.dirs, h.rooted⟩
  · have hfirst : ((t.dirMetaFree d).nodes x).firstChild = (t.nodes x).firstChild := by
      by_cases hx : x = d
      · rw [hx, hself]
      · rw [hnode x hx]
    rw [hfirst]
    exact (h.kidCells x).congr fun b hb => hnext b fun hbd => hno x (hbd ▸ hb)
  · rcases h.placed i hi with hf | hf | hf
    · exact .inl (List.mem_cons_of_mem _ hf)
    · cases hf
      exact .inl (List.mem_cons_self ..)
    · exact .inr (.inr hf)
  · rcases List.mem_cons.mp hi with rfl | hi
    · exact hlt
    · exact h.free_lt i hi
  · rw [hnode i fun hid => hno x (hid ▸ hi)]
    exact h.parent x i hi
  · rcases List.mem_cons.mp hf with rfl | hf
    · exact hno x hi
    · exact h.apart x i hi hf
  · rcases List.mem_cons.mp hi with rfl | hi
    · exact hkids
    · exact h.leaf i hi

/-- A new first child. Of the other entries the pointers stay. -/
theorem Shape.attach (h : Shape t free kids (some d)) (hp : Rooted t.LiveRoot kids p) (hdir : t.isDir p = true)
    (hhead : t'.dirMetaHead = t.dirMetaHead) (hroot : ∀ d, t.LiveRoot d → t'.LiveRoot d)
    (hisDir : ∀ x, x ≠ d → t'.isDir x = t.isDir x)
    (hfirst : ∀ x, x ≠ p → (t'.nodes x).firstChild = (t.nodes x).firstChild) (hfirst' : (t'.nodes p).firstChild = some d)
    (hnext : ∀ x, x ≠ d → t'.next x = t.next x) (hnext' : t'.next d = (t.nodes p).firstChild)
    (hparent : ∀ x, x ≠ d → (t'.nodes x).parent = (t.nodes x).parent) (hparent' : (t'.nodes d).parent = some p) :
    Shape t' free (update kids p (d :: kids p)) none := by
  obtain ⟨hlt, hnf, hkids, hno⟩ := h.spare d rfl
  have hpd := h.not_held_of_rooted hp
  have hsub : ∀ x, ∀ i ∈ kids x, i ∈ update kids p (d :: kids p) x := fun x i hi => by
    by_cases hx : x = p
    · subst hx
      rw [update_self]
      exact List.mem_cons_of_mem _ hi
    · rwa [update_of_ne hx]
  have hcases : ∀ x, ∀ i ∈ update kids p (d :: kids p) x, i ∈ kids x ∨ x = p ∧ i = d := fun x i hi => by
    by_cases hx : x = p
    · subst hx
      rw [update_self] at hi
      rcases List.mem_cons.mp hi with hi | hi
      · exact .inr ⟨rfl, hi⟩
      · exact .inl hi
    · rw [update_of_ne hx] at hi
      exact .inl hi
  have hlist : ∀ x, Cells t'.next (t.nodes x).firstChild (kids x) := fun x =>
    (h.kidCells x).congr fun b hb => hnext b fun hbd => hno x (hbd ▸ hb)
  have hmono : ∀ x, Rooted t.LiveRoot kids x → Rooted t'.LiveRoot (update kids p (d :: kids p)) x :=
    fun x hx => hx.mono hroot hsub
  refine ⟨?_, fun x => ?_, fun i hi => ?_, h.free_lt, fun x i hi => ?_, fun i hi => (by cases hi), fun x i hi => ?_,
    fun x i hi => ?_, fun i hi => ?_, fun x hx => ?_, fun x hx => ?_⟩
  · rw [hhead]
    exact h.freeCells.congr fun b hb => hnext b fun hbd => hnf (hbd ▸ hb)
  · by_cases hx : x = p
    · subst hx
      rw [update_self, hfirst']
      refine .cons ?_
      rw [hnext']
      exact hlist x
    · rw [update_of_ne hx, hfirst x hx]
      exact hlist x
  · rcases h.placed i hi with hf | hf | ⟨x, hx⟩
    · exact .inl hf
    · cases hf
      refine .inr (.inr ⟨p, ?_⟩)
      rw [update_self]
      exact List.mem_cons_self ..
    · exact .inr (.inr ⟨x, hsub x i hx⟩)
  · rcases hcases x i hi with hi | ⟨-, rfl⟩
    · exact h.kids_lt x i hi
    · exact hlt
  · rcases hcases x i hi with hi | ⟨rfl, rfl⟩
    · rw [hparent i fun hid => hno x (hid ▸ hi)]
      exact h.parent x i hi
    · exact hparent'
  · rcases hcases x i hi with hi | ⟨-, rfl⟩
    · exact h.apart x i hi
    · exact hnf
  · have hip : i ≠ p := by
      intro hip
      subst hip
      cases hp with
      | root hr =>
        obtain ⟨f, -, hf⟩ := hr
        have := h.free_lt i hi
        unfold rootOf at hf
        omega
      | child _ hc => exact h.apart _ _ hc hi
    rw [update_of_ne hip]
    exact h.leaf i hi
  · by_cases hxp : x = p
    · rw [hxp, hisDir p hpd]
      exact hdir
    · rw [update_of_ne hxp] at hx
      rw [hisDir x fun hxd => hx (hxd ▸ hkids)]
      exact h.dirs x hx
  · by_cases hxp : x = p
    · rw [hxp]
      exact hmono p hp
    · rw [update_of_ne hxp] at hx
      exact hmono x (h.rooted x hx)

/-- A childless child taken out of its list. -/
theorem Shape.detach (h : Shape t free kids none) (hd : d ∈ kids p) (hleaf : kids d = [])
    (hhead : t'.dirMetaHead = t.dirMetaHead) (hroot : ∀ d, t.LiveRoot d → t'.LiveRoot d) (hisDir : ∀ x, t'.isDir x = t.isDir x)
    (hfirst : ∀ x, x ≠ p → (t'.nodes x).firstChild = (t.nodes x).firstChild) (hnext : ∀ x, x ∉ kids p → t'.next x = t.next x)
    (hparent : ∀ x, (t'.nodes x).parent = (t.nodes x).parent)
    (hlist : Cells t'.next (t'.nodes p).firstChild ((kids p).erase d)) :
    Shape t' free (update kids p ((kids p).erase d)) (some d) := by
  have hpd : p ≠ d := by
    intro hpd
    rw [hpd, hleaf] at hd
    cases hd
  have honly : ∀ x, d ∈ kids x → x = p := fun x hx => by
    have h1 := h.parent x d hx
    rw [h.parent p d hd] at h1
    exact (Option.some.inj h1).symm
  have hnodup : (kids p).Nodup := (h.kidCells p).nodup
  have hsub : ∀ x, ∀ i ∈ kids x, i ≠ d → i ∈ update kids p ((kids p).erase d) x := fun x i hi hid => by
    by_cases hx : x = p
    · subst hx
      rw [update_self]
      exact (List.mem_erase_of_ne hid).mpr hi
    · rwa [update_of_ne hx]
  have hcases : ∀ x, ∀ i ∈ update kids p ((kids p).erase d) x, i ∈ kids x ∧ i ≠ d := fun x i hi => by
    by_cases hx : x = p
    · subst hx
      rw [update_self] at hi
      exact ⟨List.mem_of_mem_erase hi, fun hid => hnodup.not_mem_erase (hid ▸ hi)⟩
    · rw [update_of_ne hx] at hi
      exact ⟨hi, fun hid => hx (honly x (hid ▸ hi))⟩
  have hother : ∀ x, x ≠ p → ∀ b ∈ kids x, b ∉ kids p := fun x hx b hb hbp => by
    have h1 := h.parent x b hb
    rw [h.parent p b hbp] at h1
    exact hx (Option.some.inj h1).symm
  have hne : ∀ x, update kids p ((kids p).erase d) x ≠ [] → kids x ≠ [] := fun x hx hnil => by
    obtain ⟨i, hi⟩ := List.exists_mem_of_ne_nil _ hx
    have := (hcases x i hi).1
    rw [hnil] at this
    cases this
  refine ⟨?_, fun x => ?_, fun i hi => ?_, h.free_lt, fun x i hi => h.kids_lt x i (hcases x i hi).1, fun i hi => ?_,
    fun x i hi => ?_, fun x i hi => h.apart x i (hcases x i hi).1, fun i hi => ?_, fun x hx => ?_, fun x hx => ?_⟩
  · rw [hhead]
    exact h.freeCells.congr fun b hb => hnext b fun hbp => h.apart p b hbp hb
  · by_cases hx : x = p
    · subst hx
      rw [update_self]
      exact hlist
    · rw [update_of_ne hx, hfirst x hx]
      exact (h.kidCells x).congr fun b hb => hnext b (hother x hx b hb)
  · by_cases hid : i = d
    · exact .inr (.inl (by rw [hid]))
    · rcases h.placed i hi with hf | hf | ⟨x, hx⟩
      · exact .inl hf
      · cases hf
      · exact .inr (.inr ⟨x, hsub x i hx hid⟩)
  · cases hi
    refine ⟨h.kids_lt p d hd, h.apart p d hd, ?_, fun x hx => (hcases x d hx).2 rfl⟩
    rw [update_of_ne (Ne.symm hpd)]
    exact hleaf
  · rw [hparent]
    exact h.parent x i (hcases x i hi).1
  · have hip : i ≠ p := by
      intro hip
      have hnil := h.leaf i hi
      rw [hip] at hnil
      rw [hnil] at hd
      cases hd
    rw [update_of_ne hip]
    exact h.leaf i hi
  · rw [hisDir]
    exact h.dirs x (hne x hx)
  · have hxd : x ≠ d := by
      intro hxd
      exact hne x hx (hxd ▸ hleaf)
    exact ((h.rooted x (hne x hx)).remove hxd hleaf hsub).mono hroot fun _ _ hi => hi

end Edits

end Tree

end Exaros.Dir
