import Exaros.Fat.File
import Exaros.Lib.Loop

/-!
# What a file is

Attribute, link flag and device of a `DirMeta` are set when an entry is made: no operation on the
clusters of the file changes them.
-/

namespace Exaros.Fat

/-- What kind of entry a `DirMeta` is. -/
def DirMeta.kind (dm : DirMeta) : Nat × Nat × Dev := (dm.attr, dm.reserve, dm.dev)

variable {fs fs' : FileSystem} {dm dm' : DirMeta} {src : Nat → Byte}

theorem kind_metaFindInode {pos : Nat} (h : metaFindInode fs dm pos = .ok dm') : dm'.kind = dm.kind := by
  unfold metaFindInode at h
  split at h
  · cases h
    rfl
  · cases h

/-- Caching a cluster leaves what kind of file it is. -/
theorem kind_metaCacheInode {clus : Nat} (h : metaCacheInode fs dm clus = .ok (fs', dm')) : dm'.kind = dm.kind := by
  unfold metaCacheInode at h
  by_cases hpos : dm.clusCnt = dm.inodeMaxCluster
  swap
  · simp [hpos, throw, throwThe, MonadExceptOf.throw, bind, Except.bind] at h
  · simp only [hpos, ne_eq, not_true_eq_false, if_false] at h
    split at h
    · cases h
      rfl
    · split at h
      · split at h
        · obtain ⟨x, -, h⟩ := Loop.bind_ok h
          cases h
          rfl
        · cases h
          rfl
      · split at h
        · split at h
          · split at h
            · obtain ⟨x, -, h⟩ := Loop.bind_ok h
              obtain ⟨y, -, h⟩ := Loop.bind_ok h
              cases h
              rfl
            · obtain ⟨x, -, h⟩ := Loop.bind_ok h
              cases h
              rfl
          · cases h
            rfl
        · cases h
          rfl

theorem kind_relocLoop {alloc : Bool} {r : Option Unit} (n : Nat) (h : relocLoop alloc n fs dm = .ok (r, fs', dm')) :
    dm'.kind = dm.kind := by
  induction n generalizing fs dm with
  | zero =>
    cases h
    rfl
  | succ n ih =>
    rw [relocLoop] at h
    obtain ⟨next, -, h⟩ := Loop.bind_ok h
    cases next with
    | none =>
      cases h
      rfl
    | some p =>
      obtain ⟨⟨fs₂, dm₂⟩, hcache, h⟩ := Loop.bind_ok h
      have hkind := kind_metaCacheInode hcache
      exact (ih h).trans hkind

theorem kind_relocClus {alloc : Bool} {off : Nat} {r : Int} (h : relocClus fs dm off alloc = .ok (r, fs', dm')) :
    dm'.kind = dm.kind := by
  unfold relocClus at h
  split at h
  · cases h
  · dsimp only at h
    split at h
    · obtain ⟨dm₁, hfind, h⟩ := Loop.bind_ok h
      cases h
      exact kind_metaFindInode hfind
    · obtain ⟨dm₁, hfind, h⟩ := Loop.bind_ok h
      obtain ⟨⟨r', fs₂, dm₂⟩, hloop, h⟩ := Loop.bind_ok h
      cases h
      exact (kind_relocLoop _ hloop).trans (kind_metaFindInode hfind)

theorem kind_metaReadLoop {n tot' : Nat} {dst' : List Byte} (turns off tot : Nat) (dst : List Byte)
    (h : metaReadLoop n turns fs dm off tot dst = .ok (tot', dst', fs', dm')) : dm'.kind = dm.kind := by
  induction turns generalizing fs dm off tot dst with
  | zero =>
    cases h
    rfl
  | succ turns ih =>
    rw [metaReadLoop] at h
    split at h
    · obtain ⟨⟨r, fs₁, dm₁⟩, hreloc, h⟩ := Loop.bind_ok h
      obtain ⟨⟨m, bytes⟩, -, h⟩ := Loop.bind_ok h
      dsimp only at h
      split at h
      · exact (ih _ _ _ h).trans (kind_relocClus hreloc)
      · cases h
        exact kind_relocClus hreloc
    · cases h
      rfl

theorem kind_metaRead {off n : Nat} {r : Int} {dst : List Byte} (h : metaRead fs dm off n = .ok (r, dst, fs', dm')) :
    dm'.kind = dm.kind := by
  unfold metaRead at h
  split at h
  · cases h
    rfl
  · split at h
    · cases h
      rfl
    · split at h
      · cases h
        rfl
      · obtain ⟨⟨tot, dst₁, fs₁, dm₁⟩, hloop, h⟩ := Loop.bind_ok h
        cases h
        exact kind_metaReadLoop _ _ _ _ hloop

theorem kind_metaWriteLoop {n tot' off' : Nat} (turns off tot : Nat)
    (h : metaWriteLoop src n turns fs dm off tot = .ok (tot', off', fs', dm')) : dm'.kind = dm.kind := by
  induction turns generalizing fs dm off tot with
  | zero =>
    cases h
    rfl
  | succ turns ih =>
    rw [metaWriteLoop] at h
    split at h
    · obtain ⟨⟨r, fs₁, dm₁⟩, hreloc, h⟩ := Loop.bind_ok h
      obtain ⟨⟨m, fs₂⟩, -, h⟩ := Loop.bind_ok h
      dsimp only at h
      split at h
      · exact (ih _ _ h).trans (kind_relocClus hreloc)
      · cases h
        exact kind_relocClus hreloc
    · cases h
      rfl

theorem kind_metaWriteFrom {off n : Nat} {r : Int}
    (h : metaWriteFrom fs dm src off n = .ok (r, fs', dm')) : dm'.kind = dm.kind := by
  obtain ⟨⟨tot, off', fs₁, dm₁⟩, hloop, h⟩ := Loop.bind_ok h
  obtain ⟨-, hdm⟩ := Prod.mk.inj (Prod.mk.inj (Except.ok.inj h)).2
  rw [← hdm, ← kind_metaWriteLoop _ _ _ hloop]
  split <;> rfl

theorem kind_metaWrite {off n : Nat} {r : Int} (h : metaWrite fs dm src off n = .ok (r, fs', dm')) :
    dm'.kind = dm.kind := by
  unfold metaWrite at h
  split at h
  · cases h
    rfl
  · split at h
    · cases h
      rfl
    · split at h
      · obtain ⟨⟨c, fs₁⟩, -, h⟩ := Loop.bind_ok h
        have hkind : dm'.kind = ({ dm.start c with clusCnt := 0 } : DirMeta).kind := kind_metaWriteFrom h
        exact hkind
      · exact kind_metaWriteFrom h

theorem kind_metaTrunc (h : metaTrunc fs dm = .ok (fs', dm')) : dm'.kind = dm.kind := by
  obtain ⟨fs₁, -, h⟩ := Loop.bind_ok h
  cases h
  rfl

end Exaros.Fat
