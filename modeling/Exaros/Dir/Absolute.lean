import Exaros.Dir.Spelling

/-!
# Absolute paths

`getAbsolutePath` writes the names from an entry up to the root, from the end of its buffer backwards, and a lookup
reads them forwards again. `Ancestry` is the way from the root to an entry: the writer gives its names, and the
reader follows them. `absoluteRun` is the loop of the writer with the places it stores to.
-/

namespace Exaros.Dir.Tree

open Fat

/-- A name that an element of a path stands for. -/
structure ProperName (name : List Byte) : Prop where
  nonempty : name ≠ []
  noSlash : slash ∉ name
  notDot : name ≠ [dot]
  notDots : name ≠ [dot, dot]
  length : name.length ≤ FAT32_MAX_FILENAME

/-- A directory on the way: not a link, no mount point, and its entries named apart. -/
structure OnTheWay (t : Tree) (kids : Nat → List Nat) (d : Nat) : Prop extends Plain t d where
  named : ∀ i ∈ kids d, ProperName (t.nodes i).filename
  distinct : ∀ i ∈ kids d, ∀ j ∈ kids d, (t.nodes i).filename = (t.nodes j).filename → i = j

/-- The names from the root of the root file system to an entry. -/
inductive Ancestry (t : Tree) (kids : Nat → List Nat) : Nat → List (List Byte) → Prop
  | root : Ancestry t kids (rootOf t.rootFileSystem) []
  | child {p i : Nat} {names : List (List Byte)} (hp : Ancestry t kids p names) (hway : OnTheWay t kids p) (hi : i ∈ kids p) :
    Ancestry t kids i (names ++ [(t.nodes i).filename])

/-- What a call of `getAbsolutePath` does: the indices in `path` it stores to, and the string it copies. -/
structure Absolute where
  stores : List Int
  path : Option (List Byte)

/-- The loop of `getAbsolutePath`: `s` is `s - path`, `path` what lies from there on. -/
def absoluteRun (t : Tree) (maxLen : Int) : Nat → Nat → Int → List Byte → Absolute
  | 0, _, _, _ => ⟨[], none⟩
  | n + 1, d, s, path =>
    match (t.nodes d).parent with
    | none => ⟨[], some path⟩
    | some parent =>
      let filename := (t.nodes d).filename
      let s := s - filename.length
      if s ≤ 0 ∨ s ≤ FAT32_MAX_PATH - maxLen then ⟨[], none⟩
      else
        let rest := absoluteRun t maxLen n parent (s - 1) (slash :: filename ++ path)
        -- `strncpy(s, d->filename, len)` and `*--s = '/'`
        ⟨(List.range filename.length).map (fun i : Nat => s + i) ++ (s - 1) :: rest.stores, rest.path⟩

/-- `getAbsolutePath`, with its stores. -/
def absolute (t : Tree) (d : Nat) (maxLen : Int) : Absolute :=
  match (t.nodes d).parent with
  | none => ⟨[], some [slash]⟩
  | some _ =>
    let rest := absoluteRun t maxLen (FAT32_MAX_PATH + 1) d (FAT32_MAX_PATH - 1) []
    ⟨(FAT32_MAX_PATH - 1 : Int) :: rest.stores, rest.path⟩

section Writer

variable {t : Tree} {free : List Nat} {kids : Nat → List Nat} {d maxLen : Nat} {names : List (List Byte)} {buf : List Byte}

/-- The two loops copy the same string. -/
theorem absoluteRun_path (t : Tree) (hmax : maxLen ≤ FAT32_MAX_PATH) (n d space : Nat) (path : List Byte) :
    (absoluteRun t maxLen n d space path).path = absoluteLoop t maxLen n d space path := by
  induction n generalizing d space path with
  | zero => rfl
  | succ n ih =>
    rw [absoluteRun, absoluteLoop]
    cases hp : (t.nodes d).parent with
    | none => rfl
    | some parent =>
      dsimp only
      have hguard : ((space : Int) - (t.nodes d).filename.length ≤ 0 ∨
          (space : Int) - (t.nodes d).filename.length ≤ (FAT32_MAX_PATH : Int) - maxLen) ↔
          (space ≤ (t.nodes d).filename.length ∨ space - (t.nodes d).filename.length ≤ FAT32_MAX_PATH - maxLen) := by omega
      by_cases hfull : space ≤ (t.nodes d).filename.length ∨ space - (t.nodes d).filename.length ≤ FAT32_MAX_PATH - maxLen
      · rw [if_pos (hguard.mpr hfull), if_pos hfull]
      · have hnext : (space : Int) - (t.nodes d).filename.length - 1 = ((space - (t.nodes d).filename.length - 1 : Nat) : Int) := by
          omega
        rw [if_neg (fun h => hfull (hguard.mp h)), if_neg hfull, hnext]
        exact ih parent _ _

theorem absolute_path (t : Tree) (d : Nat) (hmax : maxLen ≤ FAT32_MAX_PATH) : (t.absolute d maxLen).path = t.getAbsolutePath d maxLen := by
  unfold absolute getAbsolutePath
  cases (t.nodes d).parent with
  | none => rfl
  | some parent => exact absoluteRun_path t hmax (FAT32_MAX_PATH + 1) d (FAT32_MAX_PATH - 1) []

/-- The stores lie in the buffer, and what is copied is what lies from `s` on. -/
theorem absoluteRun_bounds (t : Tree) (maxLen : Int) (n d : Nat) (s : Int) (path : List Byte) (hs : 0 ≤ s)
    (hlen : s + path.length + 1 = FAT32_MAX_PATH) (hroom : FAT32_MAX_PATH - maxLen ≤ s) :
    (∀ i ∈ (absoluteRun t maxLen n d s path).stores, 0 ≤ i ∧ i < FAT32_MAX_PATH) ∧
      ∀ buf, (absoluteRun t maxLen n d s path).path = some buf → (buf.length : Int) + 1 ≤ maxLen := by
  induction n generalizing d s path with
  | zero => exact ⟨fun i hi => absurd hi List.not_mem_nil, fun buf hbuf => by cases hbuf⟩
  | succ n ih =>
    rw [absoluteRun]
    cases hp : (t.nodes d).parent with
    | none =>
      refine ⟨fun i hi => absurd hi List.not_mem_nil, fun buf hbuf => ?_⟩
      cases hbuf
      omega
    | some parent =>
      dsimp only
      by_cases hfull : s - (t.nodes d).filename.length ≤ 0 ∨ s - (t.nodes d).filename.length ≤ FAT32_MAX_PATH - maxLen
      · rw [if_pos hfull]
        exact ⟨fun i hi => absurd hi List.not_mem_nil, fun buf hbuf => by cases hbuf⟩
      · rw [if_neg hfull]
        obtain ⟨hpos, hmore⟩ := not_or.mp hfull
        have hnext : s - (t.nodes d).filename.length - 1 + (slash :: (t.nodes d).filename ++ path : List Byte).length + 1 =
            FAT32_MAX_PATH := by
          rw [List.length_append, List.length_cons]
          omega
        obtain ⟨hstores, hcopied⟩ := ih parent _ _ (by omega) hnext (by omega)
        refine ⟨fun i hi => ?_, hcopied⟩
        rcases List.mem_append.mp hi with hi | hi
        · obtain ⟨k, hk, rfl⟩ := List.mem_map.mp hi
          have hk := List.mem_range.mp hk
          omega
        · rcases List.mem_cons.mp hi with rfl | hi
          · omega
          · exact hstores i hi

theorem absolute_bounds (t : Tree) (d : Nat) {maxLen : Int} (hlo : 2 ≤ maxLen) :
    (∀ i ∈ (t.absolute d maxLen).stores, 0 ≤ i ∧ i < FAT32_MAX_PATH) ∧
      ∀ buf, (t.absolute d maxLen).path = some buf → (buf.length : Int) + 1 ≤ maxLen := by
  unfold absolute
  cases (t.nodes d).parent with
  | none =>
    refine ⟨fun i hi => absurd hi List.not_mem_nil, fun buf hbuf => ?_⟩
    cases hbuf
    exact hlo
  | some parent =>
    have hend : (FAT32_MAX_PATH - 1 : Int) + ([] : List Byte).length + 1 = FAT32_MAX_PATH := by decide
    obtain ⟨hstores, hcopied⟩ := absoluteRun_bounds t maxLen (FAT32_MAX_PATH + 1) d (FAT32_MAX_PATH - 1) [] (by decide) hend (by omega)
    refine ⟨fun i hi => ?_, hcopied⟩
    rcases List.mem_cons.mp hi with rfl | hi
    · decide
    · exact hstores i hi

/-- The names of a path of the tree, each after a separator. -/
def joined (names : List (List Byte)) : List Byte := names.flatMap fun name => slash :: name

theorem joined_snoc (names : List (List Byte)) (name : List Byte) : joined (names ++ [name]) = joined names ++ slash :: name := by
  unfold joined
  rw [List.flatMap_append, List.flatMap_singleton]

/-- The writer gives the names on the way. -/
theorem Ancestry.written (h : Ancestry t kids d names) (hsound : Sound t free kids) (n space : Nat) (path : List Byte)
    (hloop : absoluteLoop t maxLen n d space path = some buf) : buf = joined names ++ path := by
  induction n generalizing d names space path with
  | zero => cases hloop
  | succ n ih =>
    rw [absoluteLoop] at hloop
    cases h with
    | root =>
      rw [hsound.mounted.parent _ hsound.mounted.root] at hloop
      cases hloop
      rfl
    | @child p _ names hp hway hi =>
      rw [hsound.shape.parent p d hi] at hloop
      dsimp only at hloop
      split at hloop
      · cases hloop
      · rw [ih hp _ _ hloop, joined_snoc]
        simp

theorem Ancestry.getAbsolutePath (h : Ancestry t kids d names) (hsound : Sound t free kids) (hbuf : t.getAbsolutePath d maxLen = some buf) :
    buf = [slash] ∧ names = [] ∨ buf = joined names ∧ names ≠ [] := by
  unfold Tree.getAbsolutePath at hbuf
  cases h with
  | root =>
    rw [hsound.mounted.parent _ hsound.mounted.root] at hbuf
    cases hbuf
    exact .inl ⟨rfl, rfl⟩
  | @child p _ names hp hway hi =>
    rw [hsound.shape.parent p d hi] at hbuf
    have hwritten := (Ancestry.child hp hway hi).written hsound _ _ _ hbuf
    rw [List.append_nil] at hwritten
    exact .inr ⟨hwritten, by simp⟩

end Writer

section Reader

variable {t : Tree} {free : List Nat} {kids : Nat → List Nat} {d p i : Nat} {names : List (List Byte)} {buf : List Byte}

theorem elements_joined (h : ∀ name ∈ names, ProperName name) : elements (joined names) = names := by
  induction names with
  | nil => rfl
  | cons name names ih =>
    have hname := h name List.mem_cons_self
    have hrest : joined names = [] ∨ ∃ b, joined names = slash :: b := by
      cases names with
      | nil => exact .inl rfl
      | cons next names => exact .inr ⟨_, rfl⟩
    show elements (slash :: (name ++ joined names)) = name :: names
    rw [elements_slash, elements_word hname.nonempty hname.noSlash hrest, List.take_of_length_le hname.length,
      ih fun x hx => h x (List.mem_cons_of_mem _ hx)]

theorem Ancestry.proper (h : Ancestry t kids d names) : ∀ name ∈ names, ProperName name := by
  induction h with
  | root => exact fun name hname => absurd hname List.not_mem_nil
  | @child p i names _ hway hi ih =>
    intro name hname
    rcases List.mem_append.mp hname with hname | hname
    · exact ih name hname
    · rw [List.mem_singleton.mp hname]
      exact hway.named i hi

/-- Names that fit are compared whole. -/
theorem sameName_iff {a b : List Byte} (ha : a.length ≤ FAT32_MAX_FILENAME) (hb : b.length ≤ FAT32_MAX_FILENAME) :
    sameName a b = true ↔ a = b := by
  unfold sameName
  rw [List.take_of_length_le ha, List.take_of_length_le hb]
  exact decide_eq_true_iff

/-- A child on the way is found by its name. -/
theorem OnTheWay.dirlookup (h : OnTheWay t kids p) (hshape : Shape t free kids none) (hi : i ∈ kids p) :
    t.dirlookup p (t.nodes i).filename = .ok (some i) := by
  have hname := h.named i hi
  have hdot : ¬ sameName (t.nodes i).filename [dot] = true := fun hsame =>
    hname.notDot ((sameName_iff hname.length (by decide)).mp hsame)
  have hdots : ¬ sameName (t.nodes i).filename [dot, dot] = true := fun hsame =>
    hname.notDots ((sameName_iff hname.length (by decide)).mp hsame)
  rw [hshape.dirlookup h.dir, if_neg hdot, if_neg hdots]
  cases hfind : (kids p).find? fun j => sameName (t.nodes j).filename (t.nodes i).filename with
  | none =>
    have hno := List.find?_eq_none.mp hfind i hi
    exact absurd ((sameName_iff hname.length hname.length).mpr rfl) hno
  | some j =>
    have hj : j ∈ kids p := List.mem_of_find?_eq_some hfind
    have hsame := List.find?_some hfind
    have heq := (sameName_iff (h.named j hj).length hname.length).mp hsame
    rw [h.distinct j hj i hi heq]

/-- The reader follows the names. -/
theorem Ancestry.walked {link : Tree → Option Nat → Except Halt (Nat × Tree)} {jump : Bool} (h : Ancestry t kids d names)
    (hshape : Shape t free kids none) (hstays : ∀ x, t.isLink x = false → link t (some x) = .ok (x, t)) (l : List (List Byte)) (name : List Byte) :
    ∃ name', walkElems link false jump t (some (rootOf t.rootFileSystem)) (names ++ l) name =
      walkElems link false jump t (some d) l name' := by
  induction h generalizing l with
  | root => exact ⟨name, rfl⟩
  | @child p i names _ hway hi ih =>
    obtain ⟨name', hwalk⟩ := ih ((t.nodes i).filename :: l)
    refine ⟨(t.nodes i).filename, ?_⟩
    rw [List.append_assoc, List.singleton_append, hwalk, hway.walkElems (hstays p hway.file), enter, if_neg (by simp),
      hway.dirlookup hshape hi]

/-- The absolute path of an entry leads to it. -/
theorem Ancestry.metaName (h : Ancestry t kids d names) (hsound : Sound t free kids) (hbuf : t.getAbsolutePath d FAT32_MAX_PATH = some buf)
    (c : Caller) (n : Nat) {jump : Bool} (hfile : jump = true → t.isLink d = false) :
    metaName (n + 1) t c AT_FDCWD buf jump = .ok (some d, t) := by
  have hhead : buf.head? = some slash ∧ elements buf = names := by
    rcases h.getAbsolutePath hsound hbuf with ⟨rfl, rfl⟩ | ⟨rfl, hne⟩
    · exact ⟨rfl, rfl⟩
    · refine ⟨?_, elements_joined h.proper⟩
      cases names with
      | nil => exact absurd rfl hne
      | cons name names => rfl
  obtain ⟨hhead, helems⟩ := hhead
  have hstart : t.startDir c AT_FDCWD buf = some (some (rootOf t.rootFileSystem)) := by
    unfold Tree.startDir
    rw [if_neg (fun hfd => hfd.1 hhead), if_pos hhead]
  obtain ⟨name, hwalk⟩ := h.walked hsound.shape (fun x hx => jump_stays (c := c) n (c.stack (n + 1)) hx) [] []
  rw [List.append_nil] at hwalk
  unfold Tree.metaName
  rw [lookupPath_elements hstart, helems, hwalk]
  cases jump with
  | false => rfl
  | true =>
    rw [walkElems, if_pos rfl, jump_stays n _ (hfile rfl)]
    rfl

end Reader

/-- **Absolute paths**: what `getAbsolutePath` writes for an entry below ordinary directories leads back to it, and it
stores in its buffer and copies no more than it may. -/
theorem getAbsolutePath_roundTrip :
    (∀ (t : Tree) free kids d names buf c n, Sound t free kids → Ancestry t kids d names → t.getAbsolutePath d FAT32_MAX_PATH = some buf →
      metaName (n + 1) t c AT_FDCWD buf false = .ok (some d, t)) ∧
    ∀ (t : Tree) d (maxLen : Int), 2 ≤ maxLen → maxLen ≤ FAT32_MAX_PATH →
      (∀ i ∈ (t.absolute d maxLen).stores, 0 ≤ i ∧ i < FAT32_MAX_PATH) ∧
        ∀ buf, (t.absolute d maxLen).path = some buf → ((buf ++ [0]).length : Int) ≤ maxLen := by
  refine ⟨fun t free kids d names buf c n hsound h hbuf => h.metaName hsound hbuf c n (fun hno => by cases hno), fun t d maxLen hlo _ => ?_⟩
  obtain ⟨hstores, hcopied⟩ := t.absolute_bounds d hlo
  refine ⟨hstores, fun buf hbuf => ?_⟩
  rw [List.length_append]
  exact hcopied buf hbuf

/-- What the tree of `/a` holds on the way to it. -/
theorem madeA_way : (((rootSet (smallFs 4)).exec 1 mkdirA).toOption.map fun t =>
    ((t.nodes (rootOf 0)).firstChild, (t.nodes (DIRMETA_NUM - 1)).nextBrother, (t.nodes (DIRMETA_NUM - 1)).filename,
      t.getAbsolutePath (DIRMETA_NUM - 1) FAT32_MAX_PATH)) = some (some (DIRMETA_NUM - 1), none, [0x61], some pathA) := by
  decide +kernel

theorem madeA_root : (((rootSet (smallFs 4)).exec 1 mkdirA).toOption.map fun t =>
    (t.isDir (rootOf 0), t.isLink (rootOf 0), t.rootFileSystem)) = some (true, false, 0) := by
  decide +kernel

/-- The directory `/a`, and the path of a process that stands in it. -/
theorem getAbsolutePath_roundTrip_madeA : ∃ t, (rootSet (smallFs 4)).exec 1 mkdirA = .ok t ∧
    metaName 1 t atBoot AT_FDCWD pathA false = .ok (some (DIRMETA_NUM - 1), t) ∧
    ∀ buf, (t.absolute (DIRMETA_NUM - 1) 3).path = some buf → ((buf ++ [0]).length : Int) ≤ 3 := by
  obtain ⟨t, ht, hfacts⟩ := Loop.exists_of_toOption madeA_way
  obtain ⟨hfirst, hfacts⟩ := Prod.mk.inj hfacts
  obtain ⟨hnext, hfacts⟩ := Prod.mk.inj hfacts
  obtain ⟨hname, hbuf⟩ := Prod.mk.inj hfacts
  obtain ⟨t', ht', hfacts⟩ := Loop.exists_of_toOption madeA_root
  cases ht.symm.trans ht'
  obtain ⟨hdir, hfacts⟩ := Prod.mk.inj hfacts
  obtain ⟨hfile, hroot⟩ := Prod.mk.inj hfacts
  have hr₀ := reached_small Meets
  have hr₁ : Reached Meets t := hr₀.step ⟨1, mkdirA, stands_atBoot hr₀.inv pathA, ht⟩
  obtain ⟨free, kids, hgood⟩ := hr₁.inv
  have hmade : (metaCreate 1 (rootSet (smallFs 4)) atBoot AT_FDCWD pathA .dir 0).map Prod.snd = .ok t := ht
  obtain ⟨⟨r, t₁⟩, hcreate, rfl⟩ := Loop.map_ok hmade
  have hkids : kids (rootOf 0) = [DIRMETA_NUM - 1] := by
    have hcells := hgood.shape.kidCells (rootOf 0)
    rw [hfirst] at hcells
    generalize kids (rootOf 0) = l at hcells
    cases hcells with
    | cons hrest =>
      have hrest : Linked.Cells t₁.next (t₁.nodes (DIRMETA_NUM - 1)).nextBrother _ := hrest
      rw [hnext] at hrest
      cases hrest
      rfl
  have hproper : ProperName [0x61] := ⟨by decide, by decide, by decide, by decide, by decide⟩
  have hway : OnTheWay t₁ kids (rootOf t₁.rootFileSystem) := by
    rw [hroot]
    refine ⟨⟨hdir, hfile, ((held_metaCreate hcreate).head _).trans (rootSet_head _ _)⟩, fun i hi => ?_, fun i hi j hj _ => ?_⟩
    · rw [hkids] at hi
      rw [List.mem_singleton.mp hi, hname]
      exact hproper
    · rw [hkids] at hi hj
      exact (List.mem_singleton.mp hi).trans (List.mem_singleton.mp hj).symm
  have hkid : DIRMETA_NUM - 1 ∈ kids (rootOf t₁.rootFileSystem) := by
    rw [hroot, hkids]
    exact List.mem_singleton_self _
  refine ⟨t₁, ht, getAbsolutePath_roundTrip.1 _ _ _ _ _ _ atBoot 0 hgood.toSound (.child .root hway hkid) hbuf, ?_⟩
  exact (getAbsolutePath_roundTrip.2 t₁ (DIRMETA_NUM - 1) 3 (by decide) (by decide)).2

end Exaros.Dir.Tree
