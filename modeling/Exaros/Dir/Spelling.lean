import Exaros.Dir.Paths
import Exaros.Dir.Mount

/-!
# Spellings of a path

A path may be written with more separators, with `.` before an element, or through a directory and back with `..`,
and is looked up the same. The walks are compared in the directory where the spellings part: `Plain` is what the
entry there has in common with the child that is gone through, so that the element after it finds the walk where it
was. Names are compared where an entry is found; the name of a failed walk is nowhere used.
-/

namespace Exaros.Dir.Tree

open Fat

/-- A directory that is neither a link nor a mount point. -/
structure Plain (t : Tree) (d : Nat) : Prop where
  dir : t.isDir d = true
  file : t.isLink d = false
  head : (t.nodes d).head = none

/-- The root of a mounted file system is a plain directory. -/
def PlainMounts (t : Tree) : Prop := ∀ d f, (t.nodes d).head = some f → t.Plain (rootOf f)

/-- `child`, an ordinary directory, is the last element of `path`. -/
structure Ordinary (n : Nat) (t : Tree) (kids : Nat → List Nat) (c : Caller) (fd : Int) (path : List Byte) (base child : Nat) : Prop where
  parent : ∃ name t', metaNameDir n t c fd path = .ok (some base, name, t') ∧ t.dirlookup base name = .ok (some child)
  kid : child ∈ kids base
  plain : t.Plain child

/-- Where an element may begin. -/
def Boundary (path : List Byte) : Prop := path = [] ∨ ∃ a, path = a ++ [slash]

/-- The first path spelled another way: the second. -/
inductive Respelled (n : Nat) (t : Tree) (kids : Nat → List Nat) (c : Caller) (fd : Int) : List Byte → List Byte → Prop
  /-- a separator as several -/
  | slashes (a b : List Byte) (k : Nat) : Respelled n t kids c fd (a ++ slash :: b) (a ++ slash :: (List.replicate k slash ++ b))
  /-- separators at the end -/
  | trailing {path : List Byte} (k : Nat) (hpath : elements path ≠ []) : Respelled n t kids c fd path (path ++ List.replicate k slash)
  /-- `./` before an element -/
  | here {a : List Byte} {ch : Byte} (b : List Byte) (ha : Boundary a) (hch : ch ≠ slash) :
    Respelled n t kids c fd (a ++ ch :: b) (a ++ dot :: slash :: ch :: b)
  /-- `x/../` before an element -/
  | back {a x : List Byte} {ch : Byte} {base child : Nat} (b : List Byte) (ha : Boundary a) (hx : x ≠ []) (hslash : slash ∉ x)
    (hch : ch ≠ slash) (hchild : Ordinary n t kids c fd (a ++ x) base child) :
    Respelled n t kids c fd (a ++ ch :: b) (a ++ x ++ slash :: dot :: dot :: slash :: ch :: b)

/-- What a lookup says: the entry with the name, if there is one. -/
def reported (r : Except Halt (Option Nat × List Byte × Tree)) : Except Halt (Option (Nat × List Byte) × Tree) :=
  r.map fun p => (p.1.map fun d => (d, p.2.1), p.2.2)

/-- Two paths are looked up the same. -/
structure Same (n : Nat) (t : Tree) (c : Caller) (fd : Int) (path path' : List Byte) : Prop where
  metaName : ∀ jump, metaName n t c fd path' jump = metaName n t c fd path jump
  metaNameDir : reported (metaNameDir n t c fd path') = reported (metaNameDir n t c fd path)

/-- What a way to follow links does: it changes no pointer, ends at an entry that is no link, and stays at one. -/
structure Settles (link : Tree → Option Nat → Except Halt (Nat × Tree)) : Prop where
  still : ∀ {t t' cur d}, link t cur = .ok (d, t') → Still t t'
  stops : ∀ {t t' cur d}, link t cur = .ok (d, t') → t'.isLink d = false
  stays : ∀ {t t' cur d}, link t cur = .ok (d, t') → ∀ t₁ x, t₁.isLink x = false → link t₁ (some x) = .ok (x, t₁)

section Follow

variable {c : Caller}

/-- Following links ends at what is no link. -/
theorem jump_stops (n : Nat) (buf : List Byte) {t t' : Tree} {cur : Option Nat} {d : Nat}
    (hj : jumpToLinkDirMeta c n buf t cur = .ok (d, t')) : t'.isLink d = false := by
  induction n generalizing buf t cur with
  | zero => cases hj
  | succ n ih =>
    cases cur with
    | none => cases hj
    | some link =>
      rw [jumpToLinkDirMeta] at hj
      split at hj
      · rename_i hfile
        cases hj
        simpa using hfile
      · cases hread : t.metaRead link 0 FAT32_MAX_FILENAME with
        | error e =>
          rw [hread] at hj
          cases hj
        | ok p =>
          obtain ⟨bytes, t₁⟩ := p
          rw [hread] at hj
          dsimp only at hj
          cases hl : lookupWith (fun t d => jumpToLinkDirMeta c n (c.stack n) t d) t₁ c AT_FDCWD
              (cstr (bytes ++ buf.drop bytes.length)) false true with
          | error e =>
            rw [hl] at hj
            cases hj
          | ok p =>
            obtain ⟨target, name, t₂⟩ := p
            rw [hl] at hj
            exact ih _ hj

theorem jump_stays (n : Nat) (buf : List Byte) {t : Tree} {x : Nat} (hx : t.isLink x = false) :
    jumpToLinkDirMeta c (n + 1) buf t (some x) = .ok (x, t) := by
  rw [jumpToLinkDirMeta, if_pos (by simp [hx])]

theorem settles_jump (n : Nat) (buf : List Byte) : Settles fun t d => jumpToLinkDirMeta c n buf t d where
  still hj := still_jump n buf _ _ _ _ hj
  stops hj := jump_stops n buf hj
  stays hj t₁ x hx := by
    cases n with
    | zero => cases hj
    | succ n => exact jump_stays n buf hx

end Follow

section Walk

variable {link : Tree → Option Nat → Except Halt (Nat × Tree)} {parent jump : Bool} {t t' t₁ : Tree} {cur : Option Nat} {d base child : Nat}
  {name name' x y : List Byte} {l l₁ l₂ : List (List Byte)}

theorem Plain.still (h : t.Plain d) (hs : Still t t') : t'.Plain d where
  dir := (hs.isDir d).trans h.dir
  file := (hs.isLink d).trans h.file
  head := by
    rw [hs.nodes]
    exact h.head

theorem PlainMounts.still (h : t.PlainMounts) (hs : Still t t') : t'.PlainMounts := by
  intro d f hd
  rw [hs.nodes] at hd
  exact (h d f hd).still hs

/-- The directory the walk is in, after a link and a mount. -/
theorem PlainMounts.plain_below (h : t.PlainMounts) (hdir : t.isDir d = true) (hfile : t.isLink d = false) : t.Plain (t.below d) := by
  unfold Tree.below
  cases hhead : (t.nodes d).head with
  | none => exact ⟨hdir, hfile, hhead⟩
  | some f => exact h d f hhead

theorem Plain.below (h : t.Plain d) : t.below d = d := by
  unfold Tree.below
  rw [h.head]

/-- A walk that is in a plain directory stays there for its next element. -/
theorem Plain.walkElems (h : t.Plain d) (hstays : link t (some d) = .ok (d, t)) (elem : List Byte) :
    walkElems link parent jump t (some d) (elem :: l) name = enter link parent jump t d elem l := by
  rw [walkElems_dir hstays h.dir, h.below]

theorem Plain.lookup_dot (h : t.Plain d) : t.dirlookup d [dot] = .ok (some d) := by
  unfold Tree.dirlookup
  rw [if_neg (by simp [h.dir]), if_pos (by decide)]

/-- A `.` on the way. -/
theorem Settles.here (hlink : Settles link) (hm : t.PlainMounts) (l₁ l₂ : List (List Byte)) (y : List Byte) :
    reported (walkElems link parent jump t cur (l₁ ++ [dot] :: y :: l₂) name) =
      reported (walkElems link parent jump t cur (l₁ ++ y :: l₂) name) := by
  induction l₁ generalizing t cur name with
  | nil =>
    rw [List.nil_append, List.nil_append]
    cases hl : link t cur with
    | error e => rw [walkElems_error hl, walkElems_error hl]
    | ok p =>
      obtain ⟨d, t₁⟩ := p
      by_cases hdir : t₁.isDir d = true
      · have hplain : t₁.Plain (t₁.below d) := (hm.still (hlink.still hl)).plain_below hdir (hlink.stops hl)
        rw [walkElems_dir hl hdir, walkElems_dir hl hdir, enter, if_neg fun h => List.cons_ne_nil _ _ h.2, hplain.lookup_dot]
        dsimp only
        rw [hplain.walkElems (hlink.stays hl t₁ _ hplain.file)]
      · have hfile : t₁.isDir d = false := by simpa using hdir
        rw [walkElems_file hl hfile, walkElems_file hl hfile]
        rfl
  | cons elem l₁ ih =>
    rw [List.cons_append, List.cons_append]
    cases hl : link t cur with
    | error e => rw [walkElems_error hl, walkElems_error hl]
    | ok p =>
      obtain ⟨d, t₁⟩ := p
      by_cases hdir : t₁.isDir d = true
      · rw [walkElems_dir hl hdir, walkElems_dir hl hdir, enter, enter, if_neg (by simp), if_neg (by simp)]
        cases hlook : t₁.dirlookup (t₁.below d) elem with
        | error e => rfl
        | ok next =>
          cases next with
          | none => rfl
          | some next => exact ih (hm.still (hlink.still hl))
      · have hfile : t₁.isDir d = false := by simpa using hdir
        rw [walkElems_file hl hfile, walkElems_file hl hfile]

/-- The walk to the directory of an element, as the start of every walk through that directory. -/
theorem Settles.reaches (hlink : Settles link) (hm : t.PlainMounts) {jump' : Bool}
    (hw : walkElems link true jump' t cur (l₁ ++ [x]) name' = .ok (some base, y, t₁)) :
    y = x ∧ Still t t₁ ∧ t₁.Plain base ∧ (∀ t₂ d, t₂.isLink d = false → link t₂ (some d) = .ok (d, t₂)) ∧
      ∀ name elem l, walkElems link parent jump t cur (l₁ ++ elem :: l) name = enter link parent jump t₁ base elem l := by
  induction l₁ generalizing t cur name' with
  | nil =>
    rw [List.nil_append] at hw
    cases hl : link t cur with
    | error e =>
      rw [walkElems_error hl] at hw
      cases hw
    | ok p =>
      obtain ⟨d, t₂⟩ := p
      by_cases hdir : t₂.isDir d = true
      · rw [walkElems_dir hl hdir, enter, if_pos ⟨rfl, rfl⟩] at hw
        cases hw
        have hs := hlink.still hl
        exact ⟨rfl, hs, (hm.still hs).plain_below hdir (hlink.stops hl), hlink.stays hl, fun _ elem _ => walkElems_dir hl hdir elem⟩
      · have hfile : t₂.isDir d = false := by simpa using hdir
        rw [walkElems_file hl hfile] at hw
        cases hw
  | cons first l₁ ih =>
    rw [List.cons_append] at hw
    cases hl : link t cur with
    | error e =>
      rw [walkElems_error hl] at hw
      cases hw
    | ok p =>
      obtain ⟨d, t₂⟩ := p
      by_cases hdir : t₂.isDir d = true
      · have hs := hlink.still hl
        rw [walkElems_dir hl hdir, enter, if_neg (by simp)] at hw
        cases hlook : t₂.dirlookup (t₂.below d) first with
        | error e =>
          rw [hlook] at hw
          cases hw
        | ok next =>
          rw [hlook] at hw
          cases next with
          | none => cases hw
          | some next =>
            obtain ⟨hname, hs₁, hplain, hstays, hwalk⟩ := ih (hm.still hs) hw
            refine ⟨hname, hs.trans hs₁, hplain, hstays, fun name elem l => ?_⟩
            rw [List.cons_append, walkElems_dir hl hdir, enter, if_neg (by simp), hlook]
            exact hwalk first elem l
      · have hfile : t₂.isDir d = false := by simpa using hdir
        rw [walkElems_file hl hfile] at hw
        cases hw

theorem Still.dirlookup (hs : Still t t') (d : Nat) (name : List Byte) : t'.dirlookup d name = t.dirlookup d name := by
  unfold Tree.dirlookup fsOf
  rw [hs.nodes, hs.isDir]

/-- Into a child and out of it. -/
theorem Plain.enter_back (hchild : t.Plain child) (hbase : t.Plain base) (hx : t.dirlookup base x = .ok (some child))
    (hback : t.dirlookup child [dot, dot] = .ok (some base)) (hstays : ∀ d, t.isLink d = false → link t (some d) = .ok (d, t)) (y : List Byte)
    (l : List (List Byte)) : enter link parent jump t base x ([dot, dot] :: y :: l) = enter link parent jump t base y l := by
  rw [enter, if_neg (by simp), hx]
  dsimp only
  rw [hchild.walkElems (hstays child hchild.file), enter, if_neg (by simp), hback]
  exact hbase.walkElems (hstays base hbase.file) y

/-- The parent of a child that is no root. -/
theorem Shape.lookup_back {free : List Nat} {kids : Nat → List Nat} {held : Option Nat} (h : Shape t free kids held) (hchild : t.Plain child)
    (hkid : child ∈ kids base) : t.dirlookup child [dot, dot] = .ok (some base) := by
  rw [h.dirlookup hchild.dir, if_neg (by decide), if_pos (by decide)]
  have hlt : child < DIRMETA_NUM := h.kids_lt base child hkid
  have hno : child ≠ rootOf (t.fsOf child) := by
    unfold rootOf
    omega
  rw [if_neg hno, h.parent base child hkid]

end Walk

section Spelling

variable {n : Nat} {t : Tree} {kids : Nat → List Nat} {c : Caller} {fd : Int} {path path' a x : List Byte}
  {parent jump : Bool} {free : List Nat}

theorem elements_boundary (ha : Boundary a) (b : List Byte) : elements (a ++ b) = elements a ++ elements b := by
  rcases ha with rfl | ⟨a, rfl⟩
  · rfl
  · have htrail : elements (a ++ [slash]) = elements a := elements_trailing a 1
    rw [List.append_assoc, List.singleton_append, elements_append, htrail]

/-- Where the walk starts depends on the first character. -/
theorem startDir_congr (hhead : path'.head? = some slash ↔ path.head? = some slash) (hnil : path' = [] ↔ path = []) :
    t.startDir c fd path' = t.startDir c fd path := by
  have hhead : (path'.head? = some slash) = (path.head? = some slash) := propext hhead
  have hnil : (path' = []) = (path = []) := propext hnil
  unfold Tree.startDir
  simp only [hhead, hnil, ne_eq]

theorem lookupPath_elements {cur : Option Nat} (hstart : t.startDir c fd path = some cur) :
    lookupPath n t c fd path parent jump =
      walkElems (fun t d => jumpToLinkDirMeta c n (c.stack n) t d) parent jump t cur (elements path) [] := by
  unfold lookupPath lookupWith
  rw [hstart]
  exact walk_elements (Nat.lt_succ_self _)

theorem lookupPath_nowhere (hstart : t.startDir c fd path = none) :
    lookupPath n t c fd path parent jump = .ok (none, [], t) := by
  unfold lookupPath lookupWith
  rw [hstart]

/-- `metaName` reports the entry. -/
theorem metaName_reported (n : Nat) (t : Tree) (c : Caller) (fd : Int) (path : List Byte) (jump : Bool) :
    metaName n t c fd path jump =
      (reported (lookupPath n t c fd path false jump)).map fun p => (p.1.map Prod.fst, p.2) := by
  unfold metaName
  cases lookupPath n t c fd path false jump with
  | error e => rfl
  | ok p =>
    obtain ⟨r, name, t'⟩ := p
    cases r with
    | none => rfl
    | some d => rfl

/-- Two paths that start in one place, and whose walks from there say the same. -/
theorem Same.of_walk (hstart : t.startDir c fd path' = t.startDir c fd path)
    (hwalk : ∀ parent jump cur, t.startDir c fd path = some cur →
      reported (walkElems (fun t d => jumpToLinkDirMeta c n (c.stack n) t d) parent jump t cur (elements path') []) =
        reported (walkElems (fun t d => jumpToLinkDirMeta c n (c.stack n) t d) parent jump t cur (elements path) [])) :
    Same n t c fd path path' := by
  have hlook : ∀ parent jump, reported (lookupPath n t c fd path' parent jump) = reported (lookupPath n t c fd path parent jump) := by
    intro parent jump
    cases hcur : t.startDir c fd path with
    | none => rw [lookupPath_nowhere hcur, lookupPath_nowhere (hstart.trans hcur)]
    | some cur =>
      rw [lookupPath_elements hcur, lookupPath_elements (hstart.trans hcur)]
      exact hwalk parent jump cur hcur
  refine ⟨fun jump => ?_, hlook true true⟩
  rw [metaName_reported, metaName_reported, hlook]

theorem Same.of_elements (hstart : t.startDir c fd path' = t.startDir c fd path) (helems : elements path' = elements path) :
    Same n t c fd path path' :=
  .of_walk hstart fun parent jump cur _ => by rw [helems]

/-- The start stays when something is written at a boundary, before an element. -/
theorem startDir_boundary {ch ch' : Byte} (ha : Boundary a) (hch : ch ≠ slash) (hch' : ch' ≠ slash) (b b' : List Byte) :
    t.startDir c fd (a ++ ch' :: b') = t.startDir c fd (a ++ ch :: b) := by
  apply startDir_congr
  · rcases ha with rfl | ⟨a, rfl⟩
    · simp [hch, hch']
    · cases a with
      | nil => exact Iff.rfl
      | cons first a => exact Iff.rfl
  · simp

/-- The directory of the last element, as the walks through it see it. -/
theorem Ordinary.enters {base child : Nat} {ch : Byte} {cur : Option Nat}
    (h : Ordinary n t kids c fd (a ++ x) base child) (hshape : Shape t free kids none) (hm : t.PlainMounts) (ha : Boundary a) (hx : x ≠ [])
    (hslash : slash ∉ x) (hch : ch ≠ slash) (b : List Byte) (hcur : t.startDir c fd (a ++ x) = some cur) :
    walkElems (fun t d => jumpToLinkDirMeta c n (c.stack n) t d) parent jump t cur
        (elements (a ++ x ++ slash :: dot :: dot :: slash :: ch :: b)) [] =
      walkElems (fun t d => jumpToLinkDirMeta c n (c.stack n) t d) parent jump t cur (elements (a ++ ch :: b)) [] := by
  obtain ⟨⟨name, t', hdir, hlook⟩, hkid, hplain⟩ := h
  have hlink := settles_jump (c := c) n (c.stack n)
  unfold metaNameDir at hdir
  rw [lookupPath_elements hcur, elements_boundary ha, elements_single hx hslash] at hdir
  obtain ⟨hname, hs, hbase, hstays, hwalk⟩ := hlink.reaches hm hdir
  have hdots : elements (dot :: dot :: slash :: ch :: b) = [dot, dot] :: elements (ch :: b) := by
    show elements ([dot, dot] ++ slash :: ch :: b) = _
    rw [elements_append]
    rfl
  have hrest := elements_cons hch b
  rw [elements_append, elements_boundary ha, elements_boundary ha, elements_single hx hslash, hdots, hrest, List.append_assoc,
    List.singleton_append, hwalk, hwalk]
  have hback := hshape.lookup_back hplain hkid
  refine (hplain.still hs).enter_back hbase ?_ ?_ (fun d hd => hstays t' d hd) _ _
  · rw [hs.dirlookup, ← hname]
    exact hlook
  · rw [hs.dirlookup]
    exact hback

/-- One respelling. -/
theorem Respelled.same (hr : Respelled n t kids c fd path path') (hshape : Shape t free kids none) (hm : t.PlainMounts) :
    Same n t c fd path path' := by
  have hlink := settles_jump (c := c) n (c.stack n)
  cases hr with
  | slashes a b k =>
    apply Same.of_elements
    · apply startDir_congr
      · cases a with
        | nil => exact Iff.rfl
        | cons first a => exact Iff.rfl
      · simp
    · rw [elements_append, elements_append, elements_slashes]
  | trailing k hpath =>
    apply Same.of_elements
    · cases path with
      | nil => exact absurd elements_nil hpath
      | cons first path => exact startDir_congr Iff.rfl (by simp)
    · exact elements_trailing path k
  | @here a ch b ha hch =>
    have hdot : dot ≠ slash := by decide
    refine .of_walk (startDir_boundary ha hch hdot b _) fun parent jump cur _ => ?_
    have helems : elements (dot :: slash :: ch :: b) = [dot] :: elements (ch :: b) := by
      show elements ([dot] ++ slash :: ch :: b) = _
      rw [elements_append]
      rfl
    rw [elements_boundary ha, elements_boundary ha, helems, elements_cons hch b]
    exact hlink.here hm _ _ _
  | @back a x ch base child b ha hx hslash hch hchild =>
    obtain ⟨first, rest, rfl⟩ := List.exists_cons_of_ne_nil hx
    have hfirst : first ≠ slash := fun h => hslash (by rw [h]; exact List.mem_cons_self)
    have hstart : t.startDir c fd (a ++ first :: rest) = t.startDir c fd (a ++ ch :: b) := startDir_boundary ha hch hfirst b rest
    refine .of_walk ?_ fun parent jump cur hcur => ?_
    · rw [List.append_assoc]
      exact startDir_boundary ha hch hfirst b _
    · exact congrArg reported (hchild.enters hshape hm ha hx hslash hch b (hstart.trans hcur))

/-- **Spellings of a path**: however often it is respelled, a path leads to the same entry, and to the same directory
and name. -/
theorem respelled_same (hshape : Shape t free kids none) (hm : t.PlainMounts)
    (hr : Relation.EqvGen (Respelled n t kids c fd) path path') : Same n t c fd path path' := by
  induction hr with
  | rel path path' hr => exact hr.same hshape hm
  | refl path => exact ⟨fun _ => rfl, rfl⟩
  | symm path path' _ ih => exact ⟨fun jump => (ih.metaName jump).symm, ih.metaNameDir.symm⟩
  | trans path path₁ path₂ _ _ ih₁ ih₂ =>
    exact ⟨fun jump => (ih₂.metaName jump).trans (ih₁.metaName jump), ih₂.metaNameDir.trans ih₁.metaNameDir⟩

end Spelling

/-- What `/a`, made on an empty volume, is looked up as. -/
theorem madeA_facts : (((rootSet (smallFs 4)).exec 1 mkdirA).toOption.map fun t =>
    ((metaNameDir 1 t atBoot AT_FDCWD pathA).toOption.map fun p => (p.1, p.2.1), (t.dirlookup (rootOf 0) [0x61]).toOption,
      (t.nodes (rootOf 0)).firstChild, t.isDir (DIRMETA_NUM - 1), t.isLink (DIRMETA_NUM - 1))) =
        some (some (some (rootOf 0), [0x61]), some (some (DIRMETA_NUM - 1)), some (DIRMETA_NUM - 1), true, false) := by
  decide +kernel

/-- `/b` and `/a/../b`, where `/a` is a directory. -/
theorem respelled_same_madeA : ∃ t, (rootSet (smallFs 4)).exec 1 mkdirA = .ok t ∧
    Same 1 t atBoot AT_FDCWD [slash, 0x62] [slash, 0x61, slash, dot, dot, slash, 0x62] := by
  obtain ⟨t, ht, hfacts⟩ := Loop.exists_of_toOption madeA_facts
  obtain ⟨hname, hfacts⟩ := Prod.mk.inj hfacts
  obtain ⟨hlook, hfacts⟩ := Prod.mk.inj hfacts
  obtain ⟨hfirst, hfacts⟩ := Prod.mk.inj hfacts
  obtain ⟨hdir, hfile⟩ := Prod.mk.inj hfacts
  have hr₀ := reached_small Meets
  have hr₁ : Reached Meets t := hr₀.step ⟨1, mkdirA, stands_atBoot hr₀.inv pathA, ht⟩
  obtain ⟨free, kids, hgood⟩ := hr₁.inv
  have hmade : (metaCreate 1 (rootSet (smallFs 4)) atBoot AT_FDCWD pathA .dir 0).map Prod.snd = .ok t := ht
  obtain ⟨⟨r, t₁⟩, hcreate, rfl⟩ := Loop.map_ok hmade
  have hhead : ∀ x, (t₁.nodes x).head = none := fun x => ((held_metaCreate hcreate).head x).trans (rootSet_head _ x)
  have hmounts : t₁.PlainMounts := fun d f hd => by
    rw [hhead] at hd
    cases hd
  have hkid : DIRMETA_NUM - 1 ∈ kids (rootOf 0) := by
    have hcells := hgood.shape.kidCells (rootOf 0)
    rw [hfirst] at hcells
    generalize kids (rootOf 0) = l at hcells
    cases hcells with
    | cons _ => exact List.mem_cons_self
  obtain ⟨⟨d, name, t₂⟩, hname, hdn⟩ := Loop.exists_of_toOption hname
  cases hdn
  obtain ⟨child, hlook, hc⟩ : ∃ r, t₁.dirlookup (rootOf 0) [0x61] = .ok r ∧ r = some (DIRMETA_NUM - 1) := by
    cases hl : t₁.dirlookup (rootOf 0) [0x61] with
    | error e =>
      rw [hl] at hlook
      cases hlook
    | ok r =>
      rw [hl] at hlook
      exact ⟨r, rfl, Option.some.inj hlook⟩
  rw [hc] at hlook
  have hchild : Ordinary 1 t₁ kids atBoot AT_FDCWD pathA (rootOf 0) (DIRMETA_NUM - 1) :=
    ⟨⟨_, t₂, hname, hlook⟩, hkid, hdir, hfile, hhead _⟩
  have ha : Boundary [slash] := .inr ⟨[], rfl⟩
  have hx : slash ∉ ([0x61] : List Byte) := by decide
  have hch : (0x62 : Byte) ≠ slash := by decide
  exact ⟨t₁, ht, respelled_same hgood.shape hmounts (.rel _ _ (.back [] ha (List.cons_ne_nil _ _) hx hch hchild))⟩

end Exaros.Dir.Tree
