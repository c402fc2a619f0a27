import Exaros.Dir.Runs
import Exaros.Memory.Layout

/-!
# The lookup with errors

`lookupPathPatch` and `metaNamePatch` are copies of `lookupPath` and `metaName` that return an error in the place of
a null pointer. Pointers are words of 64 bits here: an entry is where `address` says. The copies agree step by step,
so the only difference is at the end, where `cur` is returned as it is.
-/

namespace Exaros.Dir

open Fat

def ENOENT : Int := 2
def ENOTDIR : Int := 20

abbrev Pointer := BitVec 64

/-- Where the entries lie: `dirMetas[]`, and the roots in `fileSystem[]`. -/
structure Addresses where
  address : Nat → Nat
  inMemory : ∀ d < DIRMETA_NUM + FILE_SYSTEMS, PHYSICAL_MEMORY_BASE ≤ address d ∧ address d < PHYSICAL_MEMORY_END

namespace Addresses

variable (A : Addresses)

/-- An entry as a pointer. -/
def pointer : Option Nat → Pointer
  | none => 0
  | some d => BitVec.ofNat 64 (A.address d)

/-- `(DirMeta *)-e` -/
def error (e : Int) : Pointer := BitVec.ofInt 64 (-e)

end Addresses

namespace Tree

section Patch

variable (A : Addresses)

/-- The loop of `lookupPathPatch` and what follows it. -/
def walkPatch (link : Tree → Option Nat → Except Halt (Nat × Tree)) (parent jump : Bool) :
    Nat → Tree → Option Nat → List Byte → List Byte → Except Halt (Pointer × List Byte × Tree)
  | 0, _, _, _, _ => .error .spins
  | n + 1, t, cur, path, name =>
    match skipelem path with
    | none =>
      if jump then
        match link t cur with
        | .error e => .error e
        | .ok (d, t) => .ok (if parent then Addresses.error ENOENT else A.pointer (some d), name, t)
      else .ok (if parent then Addresses.error ENOENT else A.pointer cur, name, t)
    | some (name, path) =>
      match link t cur with
      | .error e => .error e
      | .ok (d, t) =>
        if ¬ t.isDir d then .ok (Addresses.error ENOTDIR, name, t)
        else if parent ∧ path = [] then .ok (A.pointer (some (t.below d)), name, t)
        else
          match t.dirlookup (t.below d) name with
          | .error e => .error e
          | .ok none => .ok (Addresses.error ENOENT, name, t)
          | .ok (some next) => walkPatch link parent jump n t (some next) path name

/-- `lookupPathPatch` -/
def lookupPathPatch (n : Nat) (t : Tree) (c : Caller) (fd : Int) (path : List Byte) (parent jump : Bool) :
    Except Halt (Pointer × List Byte × Tree) :=
  match t.startDir c fd path with
  | none => .ok (Addresses.error ENOENT, [], t)
  | some cur => walkPatch A (fun t d => jumpToLinkDirMeta c n (c.stack n) t d) parent jump (path.length + 1) t cur path []

def metaNamePatch (n : Nat) (t : Tree) (c : Caller) (fd : Int) (path : List Byte) (jump : Bool) : Except Halt (Pointer × Tree) :=
  match lookupPathPatch A n t c fd path false jump with
  | .error e => .error e
  | .ok (v, _, t) => .ok (v, t)

end Patch

/-- The walk comes to an entry that is not a directory while an element is left. -/
inductive StopsAtFile (link : Tree → Option Nat → Except Halt (Nat × Tree)) : Tree → Option Nat → List Byte → Prop
  | here {t t₁ : Tree} {cur : Option Nat} {d : Nat} {path name rest : List Byte} (hskip : skipelem path = some (name, rest))
      (hlink : link t cur = .ok (d, t₁)) (hfile : t₁.isDir d = false) : StopsAtFile link t cur path
  | later {t t₁ : Tree} {cur : Option Nat} {d next : Nat} {path name rest : List Byte} (hskip : skipelem path = some (name, rest))
      (hlink : link t cur = .ok (d, t₁)) (hdir : t₁.isDir d = true) (hlook : t₁.dirlookup (t₁.below d) name = .ok (some next))
      (hrest : StopsAtFile link t₁ (some next) rest) : StopsAtFile link t cur path

/-- The walk of `metaName` on this path does. -/
def NotDirectory (n : Nat) (t : Tree) (c : Caller) (fd : Int) (path : List Byte) : Prop :=
  ∃ cur, t.startDir c fd path = some cur ∧ StopsAtFile (fun t d => jumpToLinkDirMeta c n (c.stack n) t d) t cur path

/-- The entry where there is one, and the error that says why there is none; the caller takes what is negative for
an error, which no entry is. -/
structure Agrees (A : Addresses) (n : Nat) (t : Tree) (c : Caller) (fd : Int) (path : List Byte) (jump : Bool) (r : Option Nat)
    (t' : Tree) : Prop where
  found : ∀ d, r = some d → metaNamePatch A n t c fd path jump = .ok (A.pointer (some d), t')
  notDirectory : r = none → NotDirectory n t c fd path → metaNamePatch A n t c fd path jump = .ok (Addresses.error ENOTDIR, t')
  notEntry : r = none → ¬ NotDirectory n t c fd path → metaNamePatch A n t c fd path jump = .ok (Addresses.error ENOENT, t')
  entry : ∀ d < DIRMETA_NUM + FILE_SYSTEMS, 0 ≤ (A.pointer (some d)).toInt

/-- The empty path, from a descriptor whose file has no entry, with links not followed. -/
def Nameless (c : Caller) (fd : Int) (path : List Byte) (jump : Bool) : Prop :=
  path = [] ∧ jump = false ∧ fd ≠ AT_FDCWD ∧ 0 ≤ fd ∧ fd < NOFILE ∧ c.ofile fd.toNat = some none

section Walk

variable {A : Addresses} {link : Tree → Option Nat → Except Halt (Nat × Tree)} {jump : Bool} {n : Nat} {t t' : Tree} {c : Caller}
  {cur r : Option Nat} {path name name' : List Byte}

/-- An address of the kernel is not negative. -/
theorem pointer_nonneg {d : Nat} (hd : d < DIRMETA_NUM + FILE_SYSTEMS) : 0 ≤ (A.pointer (some d)).toInt := by
  have hlt : A.address d < 2 ^ 63 := Nat.lt_trans (A.inMemory d hd).2 (by decide)
  have hnat : (BitVec.ofNat 64 (A.address d)).toNat = A.address d := by
    rw [BitVec.toNat_ofNat]
    exact Nat.mod_eq_of_lt (by omega)
  show 0 ≤ (BitVec.ofNat 64 (A.address d)).toInt
  rw [BitVec.toInt_eq_toNat_of_lt (by omega)]
  exact Int.natCast_nonneg _

theorem stopsAtFile_iff {elem rest : List Byte} {d : Nat} {t₁ : Tree} (hskip : skipelem path = some (elem, rest))
    (hlink : link t cur = .ok (d, t₁)) : StopsAtFile link t cur path ↔ t₁.isDir d = false ∨
      t₁.isDir d = true ∧ ∃ next, t₁.dirlookup (t₁.below d) elem = .ok (some next) ∧ StopsAtFile link t₁ (some next) rest := by
  constructor
  · intro h
    cases h with
    | here hskip' hlink' hfile =>
      cases hskip.symm.trans hskip'
      cases hlink.symm.trans hlink'
      exact .inl hfile
    | later hskip' hlink' hdir hlook hrest =>
      cases hskip.symm.trans hskip'
      cases hlink.symm.trans hlink'
      exact .inr ⟨hdir, _, hlook, hrest⟩
  · rintro (hfile | ⟨hdir, next, hlook, hrest⟩)
    · exact .here hskip hlink hfile
    · exact .later hskip hlink hdir hlook hrest

/-- A path without elements is at its end. -/
theorem not_stopsAtFile (hskip : skipelem path = none) : ¬ StopsAtFile link t cur path := fun h => by
  cases h with
  | here hskip' => cases hskip.symm.trans hskip'
  | later hskip' => cases hskip.symm.trans hskip'

/-- **The two loops, element by element.** -/
theorem walkPatch_agrees (hw : walk link false jump n t cur path name = .ok (r, name', t')) :
    ∃ v, walkPatch A link false jump n t cur path name = .ok (v, name', t') ∧ (∀ d, r = some d → v = A.pointer (some d)) ∧
      (r = none → StopsAtFile link t cur path → v = Addresses.error ENOTDIR) ∧
      (r = none → ¬ StopsAtFile link t cur path → v = Addresses.error ENOENT ∨
        cur = none ∧ jump = false ∧ skipelem path = none ∧ v = A.pointer none) := by
  induction n generalizing t cur path name with
  | zero => cases hw
  | succ n ih =>
    rw [walk] at hw
    rw [walkPatch]
    cases hskip : skipelem path with
    | none =>
      rw [hskip] at hw
      have hends : ¬ StopsAtFile link t cur path := not_stopsAtFile hskip
      dsimp only at hw ⊢
      cases jump with
      | true =>
        rw [if_pos rfl] at hw ⊢
        cases hl : link t cur with
        | error e =>
          rw [hl] at hw
          cases hw
        | ok p =>
          obtain ⟨d, t₁⟩ := p
          rw [hl] at hw
          cases hw
          refine ⟨_, rfl, fun d' hd => ?_, fun hr => (by cases hr), fun hr => (by cases hr)⟩
          cases hd
          rfl
      | false =>
        rw [if_neg Bool.false_ne_true] at hw ⊢
        cases hw
        refine ⟨_, rfl, fun d hd => ?_, fun _ hstop => absurd hstop hends, fun hr _ => .inr ⟨hr, rfl, rfl, ?_⟩⟩
        · have hcur : cur = some d := hd
          rw [hcur]
          rfl
        · have hcur : cur = none := hr
          rw [hcur]
          rfl
    | some p =>
      obtain ⟨elem, rest⟩ := p
      rw [hskip] at hw
      dsimp only at hw ⊢
      cases hl : link t cur with
      | error e =>
        rw [hl] at hw
        cases hw
      | ok p =>
        obtain ⟨d, t₁⟩ := p
        rw [hl] at hw
        rw [stopsAtFile_iff hskip hl]
        dsimp only at hw ⊢
        by_cases hdir : t₁.isDir d = true
        · rw [if_neg (by simp [hdir]), if_neg (by simp)] at hw
          rw [if_neg (by simp [hdir]), if_neg (by simp)]
          cases hlook : t₁.dirlookup (t₁.below d) elem with
          | error e =>
            rw [hlook] at hw
            cases hw
          | ok nx =>
            rw [hlook] at hw
            cases nx with
            | none =>
              cases hw
              refine ⟨_, rfl, fun d' hd => (by cases hd), fun _ hstop => ?_, fun _ _ => .inl rfl⟩
              rcases hstop with hfile | ⟨-, next, hnext, -⟩
              · rw [hdir] at hfile
                cases hfile
              · cases hnext
            | some next =>
              obtain ⟨v, hv, hfound, hnot, hnone⟩ := ih hw
              refine ⟨v, hv, hfound, fun hr hstop => hnot hr ?_, fun hr hstop => ?_⟩
              · rcases hstop with hfile | ⟨-, next', hnext, hrest⟩
                · rw [hdir] at hfile
                  cases hfile
                · cases hnext
                  exact hrest
              · rcases hnone hr fun hrest => hstop (.inr ⟨hdir, next, rfl, hrest⟩) with hv | ⟨hcur, -⟩
                · exact .inl hv
                · cases hcur
        · rw [if_pos hdir] at hw ⊢
          cases hw
          exact ⟨_, rfl, fun d' hd => (by cases hd), fun _ _ => rfl, fun _ hstop => absurd (.inl (by simpa using hdir)) hstop⟩

/-- A path without elements is empty, or starts at the root. -/
theorem head_of_skipelem (hskip : skipelem path = none) : path = [] ∨ path.head? = some slash := by
  cases path with
  | nil => exact .inl rfl
  | cons c rest =>
    by_cases hc : c = slash
    · exact .inr (by rw [hc]; rfl)
    · unfold skipelem at hskip
      rw [List.dropWhile_cons_of_neg (by simpa using hc)] at hskip
      cases hskip

/-- A walk starts at no entry, and ends there, on an empty path only. -/
theorem nameless_of_start {fd : Int} (hstart : t.startDir c fd path = some none) (hskip : skipelem path = none) (hjump : jump = false) :
    Nameless c fd path jump := by
  unfold Tree.startDir at hstart
  rcases head_of_skipelem hskip with rfl | hslash
  · split at hstart
    · rename_i hfd
      exact ⟨rfl, hjump, hfd.2.1, hfd.2.2.1, hfd.2.2.2, hstart⟩
    · rw [if_neg (by simp), if_neg (by simp)] at hstart
      cases hstart
  · rw [if_neg (fun hfd => hfd.1 hslash), if_pos hslash] at hstart
    cases hstart

theorem Nameless.start {fd : Int} (h : Nameless c fd path jump) (t : Tree) : t.startDir c fd path = some none := by
  obtain ⟨rfl, -, hfd, hlo, hhi, hfile⟩ := h
  unfold Tree.startDir
  rw [if_pos ⟨by simp, hfd, hlo, hhi⟩]
  exact hfile

/-- There both return a null pointer. -/
theorem Nameless.patch {fd : Int} (h : Nameless c fd path jump) (A : Addresses) (n : Nat) (t : Tree) :
    metaName n t c fd path jump = .ok (none, t) ∧ metaNamePatch A n t c fd path jump = .ok (0, t) ∧ ¬ NotDirectory n t c fd path := by
  have hstart := h.start t
  obtain ⟨rfl, rfl, -⟩ := h
  refine ⟨?_, ?_, ?_⟩
  · unfold metaName lookupPath lookupWith
    rw [hstart]
    rfl
  · unfold metaNamePatch lookupPathPatch
    rw [hstart]
    rfl
  · rintro ⟨cur, -, hstop⟩
    exact not_stopsAtFile rfl hstop

end Walk

/-- **The lookup with errors**: where `metaName` returns, `metaNamePatch` returns the same entry or the error that says
why there is none, except on the empty path of a descriptor without an entry. -/
theorem metaNamePatch_agrees_iff (A : Addresses) {n : Nat} {t t' : Tree} {c : Caller} {fd : Int} {path : List Byte} {jump : Bool}
    {r : Option Nat} (h : metaName n t c fd path jump = .ok (r, t')) :
    Agrees A n t c fd path jump r t' ↔ ¬ Nameless c fd path jump := by
  constructor
  · intro hagrees hnameless
    obtain ⟨hname, hpatch, hnot⟩ := hnameless.patch A n t
    cases h.symm.trans hname
    cases hpatch.symm.trans (hagrees.notEntry rfl hnot)
  · intro hnamed
    unfold metaName lookupPath lookupWith at h
    cases hstart : t.startDir c fd path with
    | none =>
      rw [hstart] at h
      cases h
      have hpatch : metaNamePatch A n t c fd path jump = .ok (Addresses.error ENOENT, t) := by
        unfold metaNamePatch lookupPathPatch
        rw [hstart]
      refine ⟨fun d hd => (by cases hd), fun _ hnot => ?_, fun _ _ => hpatch, fun d hd => pointer_nonneg hd⟩
      obtain ⟨cur, hcur, -⟩ := hnot
      cases hstart.symm.trans hcur
    | some cur =>
      rw [hstart] at h
      dsimp only at h
      cases hw : walk (fun t d => jumpToLinkDirMeta c n (c.stack n) t d) false jump (path.length + 1) t cur path [] with
      | error e =>
        rw [hw] at h
        cases h
      | ok p =>
        obtain ⟨r', name, t₁⟩ := p
        rw [hw] at h
        cases h
        obtain ⟨v, hv, hfound, hnot, hnone⟩ := walkPatch_agrees (A := A) hw
        have hpatch : metaNamePatch A n t c fd path jump = .ok (v, t') := by
          unfold metaNamePatch lookupPathPatch
          rw [hstart]
          dsimp only
          rw [hv]
        have hstops : NotDirectory n t c fd path ↔ StopsAtFile (fun t d => jumpToLinkDirMeta c n (c.stack n) t d) t cur path := by
          constructor
          · rintro ⟨cur', hcur', hstop⟩
            cases hstart.symm.trans hcur'
            exact hstop
          · exact fun hstop => ⟨cur, hstart, hstop⟩
        refine ⟨fun d hd => ?_, fun hr hstop => ?_, fun hr hstop => ?_, fun d hd => pointer_nonneg hd⟩
        · rw [hpatch, hfound d hd]
        · rw [hpatch, hnot hr (hstops.mp hstop)]
        · rw [hpatch]
          rcases hnone hr (fun hs => hstop (hstops.mpr hs)) with hv | ⟨hcur, hjump, hskip, -⟩
          · rw [hv]
          · rw [hcur] at hstart
            exact absurd (nameless_of_start hstart hskip hjump) hnamed

/-- The entries one after another, from the start of the memory. -/
def packed : Addresses where
  address d := PHYSICAL_MEMORY_BASE + d
  inMemory d hd := by
    have hfit : DIRMETA_NUM + FILE_SYSTEMS < PHYSICAL_MEMORY_END - PHYSICAL_MEMORY_BASE := by decide
    constructor
    · exact Nat.le_add_right _ _
    · omega

/-- A process that has a pipe as descriptor 3. -/
def pipeHolder : Caller := ⟨none, fun fd => if fd = 3 then some none else none, fun _ => []⟩

theorem mkdirA_named : (((rootSet (smallFs 4)).exec 1 mkdirA).toOption.bind fun t =>
    (metaName 1 t pipeHolder 3 pathA true).toOption.map Prod.fst) = some (some (DIRMETA_NUM - 1)) := by
  decide +kernel

/-- The lookup of `/a`, which has been made. -/
theorem metaNamePatch_agrees_iff_made : ∃ t t', metaName 1 t pipeHolder 3 pathA true = .ok (some (DIRMETA_NUM - 1), t') ∧
    Agrees packed 1 t pipeHolder 3 pathA true (some (DIRMETA_NUM - 1)) t' := by
  obtain ⟨t, -, hnamed⟩ := Option.bind_eq_some_iff.mp mkdirA_named
  obtain ⟨⟨r, t'⟩, hname, hr⟩ := Loop.exists_of_toOption hnamed
  obtain rfl : r = some (DIRMETA_NUM - 1) := hr
  exact ⟨t, t', hname, (metaNamePatch_agrees_iff packed hname).mpr fun h => absurd h.1 (by decide)⟩

/-- From the pipe nothing is found, and no error says so. -/
theorem metaNamePatch_nameless : metaName 0 zero pipeHolder 3 [] false = .ok (none, zero) ∧
    ¬ NotDirectory 0 zero pipeHolder 3 [] ∧ metaNamePatch packed 0 zero pipeHolder 3 [] false = .ok (0, zero) ∧
    (0 : Pointer) ≠ Addresses.error ENOENT ∧ ¬ Agrees packed 0 zero pipeHolder 3 [] false none zero := by
  have hnameless : Nameless pipeHolder 3 [] false := ⟨rfl, rfl, by decide, by decide, by decide, rfl⟩
  obtain ⟨hname, hpatch, hnot⟩ := hnameless.patch packed 0 zero
  have hne : (0 : Pointer) ≠ Addresses.error ENOENT := by decide
  refine ⟨hname, hnot, hpatch, hne, fun hagrees => ?_⟩
  have herror := hagrees.notEntry rfl hnot
  exact hne (congrArg Prod.fst (Except.ok.inj (hpatch.symm.trans herror)))

end Tree

end Exaros.Dir
