import Exaros.Dir.Forest

/-!
# Lookups stay in the tree

A lookup changes no pointer, and one that starts in the tree ends in it: an element of the path leads to
a child, to the parent or to the root of a mounted file system, and a link to what its own path is looked
up as. The same holds of everything a lookup goes through, so `walk_keeps` is proved for any way to follow
links that has it, and `jump_keeps` by induction on the depth; both for whatever else reading links keeps.
-/

namespace Exaros.Dir.Tree

open Fat Linked

/-- What lookups need to know of the file systems. -/
structure Mounted (t : Tree) : Prop where
  root : (t.fileSystem t.rootFileSystem).valid = true
  head : ∀ d f, (t.nodes d).head = some f → (t.fileSystem f).valid = true
  parent : ∀ f, (t.fileSystem f).valid = true → (t.nodes (rootOf f)).parent = none
  self : ∀ f, (t.fileSystem f).valid = true → t.fsOf (rootOf f) = f

theorem Mounted.still {t t' : Tree} (h : Mounted t) (hs : Still t t') : Mounted t' where
  root := by
    rw [hs.rootFileSystem, (hs.slot _).1]
    exact h.root
  head d f hd := by
    rw [hs.nodes] at hd
    rw [(hs.slot f).1]
    exact h.head d f hd
  parent f hf := by
    rw [(hs.slot f).1] at hf
    rw [hs.nodes]
    exact h.parent f hf
  self f hf := by
    rw [(hs.slot f).1] at hf
    unfold fsOf
    rw [hs.nodes]
    exact h.self f hf

section Lookup

variable {t₀ t t' : Tree} {free : List Nat} {kids : Nat → List Nat} {held : Option Nat} {c : Caller}
  {link : Tree → Option Nat → Except Halt (Nat × Tree)} {parent jump : Bool}
  {r : Option Nat} {path name : List Byte} {fd : Int} {n : Nat} {P : Tree → Prop}

/-- `dirlookup` in a directory whose children are `l`. -/
theorem dirlookup_cells {d : Nat} {l : List Nat} (hcells : Cells t.next (t.nodes d).firstChild l) (hlen : l.length ≤ DIRMETA_NUM)
    (hdir : t.isDir d = true) (name : List Byte) :
    t.dirlookup d name = .ok (if sameName name [dot] then some d
      else if sameName name [dot, dot] then
        if d = rootOf (t.fsOf d) then some d else (t.nodes d).parent
      else l.find? fun i => sameName (t.nodes i).filename name) := by
  unfold Tree.dirlookup
  rw [if_neg (by simp [hdir])]
  by_cases hdot : sameName name [dot] = true
  · rw [if_pos hdot, if_pos hdot]
  · rw [if_neg hdot, if_neg hdot]
    by_cases hdots : sameName name [dot, dot] = true
    · rw [if_pos hdots, if_pos hdots]
      by_cases hroot : d = rootOf (t.fsOf d)
      · rw [if_pos hroot, if_pos hroot, ← hroot]
      · rw [if_neg hroot, if_neg hroot]
    · rw [if_neg hdots, if_neg hdots]
      have hfind := hcells.find (fun i => sameName (t.nodes i).filename name) (Nat.lt_succ_of_le hlen)
      rw [show (fun d => (t.nodes d).nextBrother) = t.next from rfl, hfind]

/-- `dirlookup` on the lists. -/
theorem Shape.dirlookup (h : Shape t free kids held) {d : Nat} (hdir : t.isDir d = true) (name : List Byte) :
    t.dirlookup d name = .ok (if sameName name [dot] then some d
      else if sameName name [dot, dot] then
        if d = rootOf (t.fsOf d) then some d else (t.nodes d).parent
      else (kids d).find? fun i => sameName (t.nodes i).filename name) :=
  dirlookup_cells (h.kidCells d) (h.length_le d) hdir name

theorem Shape.parent_rooted (h : Shape t free kids held) (hm : Mounted t) {d p : Nat} (hd : Rooted t.LiveRoot kids d)
    (hp : (t.nodes d).parent = some p) : Rooted t.LiveRoot kids p := by
  cases hd with
  | root hr =>
    obtain ⟨f, hf, rfl⟩ := hr
    rw [hm.parent f hf] at hp
    cases hp
  | @child e _ he hi =>
    rw [h.parent e d hi] at hp
    cases hp
    exact he

theorem Shape.dirlookup_rooted (h : Shape t free kids held) (hm : Mounted t) {d r : Nat} {name : List Byte}
    (hd : Rooted t.LiveRoot kids d) (hr : t.dirlookup d name = .ok (some r)) : Rooted t.LiveRoot kids r := by
  have hdir : t.isDir d = true := by
    by_contra hno
    unfold Tree.dirlookup at hr
    rw [if_pos hno] at hr
    cases hr
  rw [h.dirlookup hdir] at hr
  have hr := Except.ok.inj hr
  split at hr
  · cases hr
    exact hd
  · split at hr
    · split at hr
      · cases hr
        exact hd
      · exact h.parent_rooted hm hd hr
    · exact .child hd (List.mem_of_find?_eq_some hr)

/-- A name that `dirlookup` does not find is no child's name, and not one of the two that every directory has. -/
theorem Shape.dirlookup_none (h : Shape t free kids held) (hm : Mounted t) {d : Nat} {name : List Byte}
    (hd : Rooted t.LiveRoot kids d) (hr : t.dirlookup d name = .ok none) :
    t.isDir d = true ∧ (sameName name [dot] = false ∧ sameName name [dot, dot] = false) ∧
      ∀ i ∈ kids d, sameName (t.nodes i).filename name = false := by
  have hdir : t.isDir d = true := by
    by_contra hno
    unfold Tree.dirlookup at hr
    rw [if_pos hno] at hr
    cases hr
  rw [h.dirlookup hdir] at hr
  have hr := Except.ok.inj hr
  split at hr
  · cases hr
  · rename_i hdot
    split at hr
    · split at hr
      · cases hr
      · rename_i hne
        cases hd with
        | root hroot =>
          obtain ⟨f, hf, rfl⟩ := hroot
          rw [hm.self f hf] at hne
          exact absurd rfl hne
        | child _ hi =>
          rw [h.parent _ _ hi] at hr
          cases hr
    · rename_i hdots
      refine ⟨hdir, ⟨by simpa using hdot, by simpa using hdots⟩, fun i hi => ?_⟩
      have hfind := List.find?_eq_none.mp hr i hi
      simpa using hfind

theorem Mounted.below_rooted (hm : Mounted t) {d : Nat} (hd : Rooted t.LiveRoot kids d) :
    Rooted t.LiveRoot kids (t.below d) := by
  unfold Tree.below
  cases hh : (t.nodes d).head with
  | none => exact hd
  | some f => exact .root ⟨f, hm.head d f hh, rfl⟩

/-! ### What a lookup leaves alone -/

/-- A walk leaves the tree alone where following links does. -/
theorem still_walk (hlink : ∀ t t' cur d, link t cur = .ok (d, t') → Still t t') (n : Nat) {cur r : Option Nat}
    {path name name' : List Byte} (hw : walk link parent jump n t cur path name = .ok (r, name', t')) : Still t t' := by
  induction n generalizing t cur path name with
  | zero => cases hw
  | succ n ih =>
    rw [walk] at hw
    cases hskip : skipelem path with
    | none =>
      rw [hskip] at hw
      dsimp only at hw
      split at hw
      · cases hl : link t cur with
        | error e =>
          rw [hl] at hw
          cases hw
        | ok p =>
          obtain ⟨d, t₁⟩ := p
          rw [hl] at hw
          cases hw
          exact hlink _ _ _ _ hl
      · cases hw
        exact .refl _
    | some p =>
      obtain ⟨elem, rest⟩ := p
      rw [hskip] at hw
      cases hl : link t cur with
      | error e =>
        rw [hl] at hw
        cases hw
      | ok p =>
        obtain ⟨d, t₁⟩ := p
        have hs := hlink _ _ _ _ hl
        rw [hl] at hw
        dsimp only at hw
        split at hw
        · cases hw
          exact hs
        · split at hw
          · cases hw
            exact hs
          · cases hlook : t₁.dirlookup (t₁.below d) elem with
            | error e =>
              rw [hlook] at hw
              cases hw
            | ok nx =>
              rw [hlook] at hw
              cases nx with
              | none =>
                cases hw
                exact hs
              | some nx => exact hs.trans (ih hw)

theorem still_lookupWith (hlink : ∀ t t' cur d, link t cur = .ok (d, t') → Still t t')
    (hl : lookupWith link t c fd path parent jump = .ok (r, name, t')) : Still t t' := by
  unfold lookupWith at hl
  cases hcur : t.startDir c fd path with
  | none =>
    rw [hcur] at hl
    cases hl
    exact .refl t
  | some cur =>
    rw [hcur] at hl
    exact still_walk hlink _ hl

/-- Following links leaves the tree alone. -/
theorem still_jump (n : Nat) (buf : List Byte) (t t' : Tree) (cur : Option Nat) (d : Nat)
    (hj : jumpToLinkDirMeta c n buf t cur = .ok (d, t')) : Still t t' := by
  induction n generalizing buf t t' cur d with
  | zero => cases hj
  | succ n ih =>
    cases cur with
    | none => cases hj
    | some link =>
      rw [jumpToLinkDirMeta] at hj
      split at hj
      · cases hj
        exact .refl t
      · cases hread : t.metaRead link 0 FAT32_MAX_FILENAME with
        | error e =>
          rw [hread] at hj
          cases hj
        | ok p =>
          obtain ⟨bytes, t₁⟩ := p
          rw [hread] at hj
          dsimp only at hj
          cases hl : lookupWith (fun t d => jumpToLinkDirMeta c n (c.stack n) t d) t₁ c AT_FDCWD
              (cstr (bytes ++ buf.drop bytes.length)) false true with
          | error e =>
            rw [hl] at hj
            cases hj
          | ok p =>
            obtain ⟨target, name, t₂⟩ := p
            rw [hl] at hj
            have hs₂ := still_lookupWith (fun t t' cur d h => ih (c.stack n) t t' cur d h) hl
            exact ((still_metaRead hread).trans hs₂).trans (ih _ _ _ _ _ hj)

theorem still_lookupPath (hl : lookupPath n t c fd path parent jump = .ok (r, name, t')) : Still t t' :=
  still_lookupWith (fun t t' cur d h => still_jump n (c.stack n) t t' cur d h) hl

theorem still_metaName {jump : Bool} {path : List Byte} (hl : metaName n t c fd path jump = .ok (r, t')) : Still t t' := by
  unfold metaName at hl
  cases hp : lookupPath n t c fd path false jump with
  | error e =>
    rw [hp] at hl
    cases hl
  | ok p =>
    obtain ⟨r₁, name, t₁⟩ := p
    rw [hp] at hl
    cases hl
    exact still_lookupPath hp

/-! ### Where a lookup ends -/

/-- A way to follow links that keeps `P`, and stays in the tree of `t₀`. -/
def FollowsIn (P : Tree → Prop) (t₀ : Tree) (kids : Nat → List Nat) (link : Tree → Option Nat → Except Halt (Nat × Tree)) : Prop :=
  ∀ t t' cur d, P t → (∀ x, cur = some x → Rooted t₀.LiveRoot kids x) → link t cur = .ok (d, t') →
    P t' ∧ Rooted t₀.LiveRoot kids d

/-- A walk ends in the tree. The induction is on its turns. -/
theorem walk_keeps (h : Shape t₀ free kids held) (hm : Mounted t₀) (hP : ∀ t, P t → Still t₀ t)
    (hlink : FollowsIn P t₀ kids link) (n : Nat)
    {cur r : Option Nat} {path name name' : List Byte} (hs : P t) (hcur : ∀ x, cur = some x → Rooted t₀.LiveRoot kids x)
    (hw : walk link parent jump n t cur path name = .ok (r, name', t')) :
    P t' ∧ ∀ x, r = some x → Rooted t₀.LiveRoot kids x := by
  have hnone : ∀ x, (none : Option Nat) = some x → Rooted t₀.LiveRoot kids x := fun x hx => by cases hx
  induction n generalizing t cur path name with
  | zero => cases hw
  | succ n ih =>
    rw [walk] at hw
    cases hskip : skipelem path with
    | none =>
      rw [hskip] at hw
      cases jump with
      | true =>
        rw [if_pos rfl] at hw
        cases hl : link t cur with
        | error e =>
          rw [hl] at hw
          cases hw
        | ok p =>
          obtain ⟨d, t₁⟩ := p
          rw [hl] at hw
          obtain ⟨hs₁, hd⟩ := hlink t t₁ cur d hs hcur hl
          cases hw
          refine ⟨hs₁, ?_⟩
          cases parent with
          | true => exact hnone
          | false =>
            rintro x ⟨⟩
            exact hd
      | false =>
        cases hw
        refine ⟨hs, ?_⟩
        cases parent with
        | true => exact hnone
        | false => exact hcur
    | some p =>
      obtain ⟨elem, rest⟩ := p
      rw [hskip] at hw
      cases hl : link t cur with
      | error e =>
        rw [hl] at hw
        cases hw
      | ok p =>
        obtain ⟨d, t₁⟩ := p
        rw [hl] at hw
        dsimp only at hw
        obtain ⟨hp₁, hd⟩ := hlink t t₁ cur d hs hcur hl
        have hs₁ := hP t₁ hp₁
        have hroots : ∀ x, Rooted t₀.LiveRoot kids x ↔ Rooted t₁.LiveRoot kids x := fun x =>
          ⟨fun hx => hx.mono (fun y hy => (hs₁.liveRoot y).mpr hy) fun _ _ hi => hi,
            fun hx => hx.mono (fun y hy => (hs₁.liveRoot y).mp hy) fun _ _ hi => hi⟩
        have hbelow : Rooted t₁.LiveRoot kids (t₁.below d) := (hm.still hs₁).below_rooted ((hroots d).mp hd)
        split at hw
        · cases hw
          exact ⟨hp₁, hnone⟩
        · split at hw
          · cases hw
            refine ⟨hp₁, ?_⟩
            rintro x ⟨⟩
            exact (hroots _).mpr hbelow
          · cases hlook : t₁.dirlookup (t₁.below d) elem with
            | error e =>
              rw [hlook] at hw
              cases hw
            | ok nx =>
              rw [hlook] at hw
              cases nx with
              | none =>
                cases hw
                exact ⟨hp₁, hnone⟩
              | some nx =>
                refine ih hp₁ ?_ hw
                rintro x ⟨⟩
                exact (hroots _).mpr ((h.still hs₁).dirlookup_rooted (hm.still hs₁) hbelow hlook)

/-- Where a path starts: at the root, or where the caller says. -/
def Anchored (t : Tree) (kids : Nat → List Nat) (c : Caller) (fd : Int) (path : List Byte) : Prop :=
  ∀ d, t.startDir c fd path = some (some d) → Rooted t.LiveRoot kids d

theorem lookupWith_keeps (h : Shape t₀ free kids held) (hm : Mounted t₀) (hP : ∀ t, P t → Still t₀ t)
    (hlink : FollowsIn P t₀ kids link) (hs : P t) (hstart : Anchored t₀ kids c fd path)
    (hl : lookupWith link t c fd path parent jump = .ok (r, name, t')) :
    P t' ∧ ∀ x, r = some x → Rooted t₀.LiveRoot kids x := by
  unfold lookupWith at hl
  have hdir : t.startDir c fd path = t₀.startDir c fd path := by
    unfold Tree.startDir
    rw [(hP t hs).rootFileSystem]
  rw [hdir] at hl
  cases hcur : t₀.startDir c fd path with
  | none =>
    rw [hcur] at hl
    cases hl
    exact ⟨hs, fun x hx => by cases hx⟩
  | some cur =>
    rw [hcur] at hl
    refine walk_keeps h hm hP hlink _ hs (fun x hx => hstart x ?_) hl
    rw [hcur, hx]

/-- An absolute path starts at the root, a relative one in a link at the working directory. -/
theorem anchored_cwd (hm : Mounted t) (hcwd : ∀ d, c.cwd = some d → Rooted t.LiveRoot kids d) (path : List Byte) :
    Anchored t kids c AT_FDCWD path := by
  intro d hd
  unfold Tree.startDir at hd
  rw [if_neg (by simp)] at hd
  split at hd
  · cases hd
    exact .root ⟨_, hm.root, rfl⟩
  · split at hd
    · exact hcwd d (Option.some.inj hd)
    · cases hd

/-- What reading links keeps, following them keeps. -/
theorem jump_keeps (h : Shape t₀ free kids held) (hm : Mounted t₀) (hP : ∀ t, P t → Still t₀ t)
    (hread : ∀ {t t' : Tree} {x : Nat} {bytes : List Byte}, P t → Rooted t₀.LiveRoot kids x →
      t.metaRead x 0 FAT32_MAX_FILENAME = .ok (bytes, t') → P t')
    (hcwd : ∀ d, c.cwd = some d → Rooted t₀.LiveRoot kids d) (n : Nat) (buf : List Byte) :
    FollowsIn P t₀ kids (jumpToLinkDirMeta c n buf) := by
  induction n generalizing buf with
  | zero =>
    intro t t' cur d _ _ hj
    cases hj
  | succ n ih =>
    intro t t' cur d hs hcur hj
    cases cur with
    | none => cases hj
    | some link =>
      rw [jumpToLinkDirMeta] at hj
      split at hj
      · cases hj
        exact ⟨hs, hcur _ rfl⟩
      · cases hbytes : t.metaRead link 0 FAT32_MAX_FILENAME with
        | error e =>
          rw [hbytes] at hj
          cases hj
        | ok p =>
          obtain ⟨bytes, t₁⟩ := p
          rw [hbytes] at hj
          dsimp only at hj
          have hs₁ := hread hs (hcur link rfl) hbytes
          cases hl : lookupWith (fun t d => jumpToLinkDirMeta c n (c.stack n) t d) t₁ c AT_FDCWD
              (cstr (bytes ++ buf.drop bytes.length)) false true with
          | error e =>
            rw [hl] at hj
            cases hj
          | ok p =>
            obtain ⟨target, name, t₂⟩ := p
            rw [hl] at hj
            obtain ⟨hs₂, htarget⟩ := lookupWith_keeps h hm hP (ih (c.stack n)) hs₁ (anchored_cwd hm hcwd _) hl
            exact ih _ t₂ t' target d hs₂ htarget hj

/-- The working directory of a process, and the directory a path of it starts at, are in the tree. -/
structure Stands (t : Tree) (c : Caller) (fd : Int) (path : List Byte) : Prop where
  cwd : ∀ d, c.cwd = some d → t.InTree d
  start : ∀ d, t.startDir c fd path = some (some d) → t.InTree d

theorem Still.inTree (hs : Still t t') (d : Nat) : t'.InTree d ↔ t.InTree d := by
  have hlists : ∀ x i, t'.Lists x i ↔ t.Lists x i := fun x i => by
    unfold Lists Tree.next
    rw [hs.nodes]
  constructor
  · intro hd
    induction hd with
    | root hr => exact .root ((hs.liveRoot _).mp hr)
    | @child d i _ hi ih => exact .child ih ((hlists d i).mp hi)
  · intro hd
    induction hd with
    | root hr => exact .root ((hs.liveRoot _).mpr hr)
    | @child d i _ hi ih => exact .child ih ((hlists d i).mpr hi)

theorem Stands.still {path : List Byte} (hc : Stands t c fd path) (hs : Still t t') : Stands t' c fd path where
  cwd d hd := (hs.inTree d).mpr (hc.cwd d hd)
  start d hd := by
    have hdir : t'.startDir c fd path = t.startDir c fd path := by
      unfold Tree.startDir
      rw [hs.rootFileSystem]
    rw [hdir] at hd
    exact (hs.inTree d).mpr (hc.start d hd)

theorem lookupPath_keeps (h : Shape t free kids held) (hm : Mounted t) (hP : ∀ t₁, P t₁ → Still t t₁)
    (hread : ∀ {t₁ t₂ : Tree} {x : Nat} {bytes : List Byte}, P t₁ → t.InTree x →
      t₁.metaRead x 0 FAT32_MAX_FILENAME = .ok (bytes, t₂) → P t₂)
    (hs : P t) (hc : Stands t c fd path)
    (hl : lookupPath n t c fd path parent jump = .ok (r, name, t')) : P t' ∧ ∀ x, r = some x → t.InTree x := by
  have hcwd : ∀ d, c.cwd = some d → Rooted t.LiveRoot kids d := fun d hd => (h.inTree_iff d).mp (hc.cwd d hd)
  have hstart : Anchored t kids c fd path := fun d hd => (h.inTree_iff d).mp (hc.start d hd)
  have hlink := jump_keeps h hm hP (fun hp hx hb => hread hp ((h.inTree_iff _).mpr hx) hb) hcwd n (c.stack n)
  obtain ⟨hp, hr⟩ := lookupWith_keeps h hm hP hlink hs hstart hl
  exact ⟨hp, fun x hx => (h.inTree_iff x).mpr (hr x hx)⟩

theorem lookupPath_rooted (h : Shape t free kids held) (hm : Mounted t) (hc : Stands t c fd path)
    (hl : lookupPath n t c fd path parent jump = .ok (r, name, t')) : Still t t' ∧ ∀ x, r = some x → t.InTree x :=
  lookupPath_keeps h hm (fun _ hs => hs) (fun hs _ hread => hs.trans (still_metaRead hread)) (.refl t) hc hl

theorem metaName_rooted (h : Shape t free kids held) (hm : Mounted t) {jump : Bool}
    {path : List Byte} (hc : Stands t c fd path) (hl : metaName n t c fd path jump = .ok (r, t')) :
    Still t t' ∧ ∀ x, r = some x → t.InTree x := by
  unfold metaName at hl
  cases hp : lookupPath n t c fd path false jump with
  | error e =>
    rw [hp] at hl
    cases hl
  | ok p =>
    obtain ⟨r₁, name, t₁⟩ := p
    rw [hp] at hl
    cases hl
    exact lookupPath_rooted h hm hc hp

end Lookup

end Exaros.Dir.Tree
