import Exaros.Fat.Remove
import Exaros.Lib.Run

/-!
# Cluster allocation

The files of a volume together: `FatInv` says that the bitmap shows the FAT and that the files have
disjoint chains and caches. Every operation is `Local` to one file, and a `Local` step keeps it.

`allocClus` searches as many clusters as the FAT has entries, which can be more than the data area
has. What is proved of it therefore is about runs in which no operation asks for more clusters than
the data area has free (`FatOp.Fits`).

**What it does not establish.** What the clusters hold.
-/

namespace Exaros.Fat

/-- The chain of file `i`. -/
def FatState.chainOf (s : FatState) (i : Nat) : List Nat := chain s.fs (s.dirMetas i)

/-- File `i` owns the pool inode `x`. -/
def FatState.OwnsInode (s : FatState) (i x : Nat) : Prop :=
  Owns s.fs (s.dirMetas i).item (s.dirMetas i).inodeMaxCluster x

/-- The files have disjoint chains `L` and disjoint caches, and the free `DirMeta`s are empty. -/
structure FilesOk (s : FatState) (L : Nat → List Nat) : Prop where
  file : ∀ i, FileOk s.fs (s.dirMetas i) (L i)
  clusters : ∀ i j, i ≠ j → ∀ c ∈ L i, c ∉ L j
  inodes : ∀ i j, i ≠ j → ∀ x, s.OwnsInode i x → ¬ s.OwnsInode j x
  free : ∀ i ∈ s.free, L i = []
  nodup : s.free.Nodup

/-- The invariant of a mounted volume, for the chains `L`. -/
structure FatInv (s : FatState) (L : Nat → List Nat) : Prop where
  superBlock : s.fs.superBlock.Ok
  bitmap : BitmapOk s.fs
  files : FilesOk s L

section Inv

variable {s s' : FatState} {L : Nat → List Nat} {i : Nat} {fs' : FileSystem} {dm' : DirMeta} {L' : List Nat}

/-- The chains of the invariant are those read from the FAT. -/
theorem FatInv.chainOf (h : FatInv s L) : s.chainOf = L := funext fun i => (h.files.file i).chain_eq h.superBlock

/-- A step of the volume that is an operation on file `i`, which has the chain `L'` after it. -/
structure FileStep (s : FatState) (L : Nat → List Nat) (i : Nat) (s' : FatState) (L' : List Nat) : Prop where
  inv : FatInv s' (fun j => if j = i then L' else L j)
  loc : Local s.fs (s.dirMetas i) (L i) s'.fs (s'.dirMetas i) L'
  others : ∀ j, j ≠ i → s'.dirMetas j = s.dirMetas j

/-- An operation local to file `i` keeps the invariant. -/
theorem FatInv.update (h : FatInv s L)
    (hl : Local s.fs (s.dirMetas i) (L i) fs' dm' L') {free' : List Nat} (hnodup : free'.Nodup)
    (hfree : ∀ j ∈ free', if j = i then L' = [] else j ∈ s.free) :
    FatInv { s.update i fs' dm' with free := free' } (fun j => if j = i then L' else L j) := by
  have hother : ∀ {j}, j ≠ i → FileOk fs' (s.dirMetas j) (L j) ∧ ∀ x, Owns fs' (s.dirMetas j).item
      (s.dirMetas j).inodeMaxCluster x → s.OwnsInode j x := fun {j} hj =>
    (h.files.file j).frame hl h.bitmap (h.files.clusters j i hj) (h.files.inodes j i hj)
  -- what file `i` has now was its own or free, so no other file has it
  have hclus : ∀ {j}, j ≠ i → ∀ c ∈ L', c ∉ L j := by
    intro j hj c hc hcj
    rcases hl.grown c hc with hin | hfree
    · exact h.files.clusters i j (Ne.symm hj) c hin hcj
    · rw [(h.files.file j).chain.used h.bitmap hcj] at hfree
      exact Bool.noConfusion hfree
  have hino : ∀ {j}, j ≠ i → ∀ x, Owns fs' dm'.item dm'.inodeMaxCluster x → ¬ s.OwnsInode j x := by
    intro j hj x hx hxj
    rcases hl.owns x hx with hin | hfree
    · exact h.files.inodes i j (Ne.symm hj) x hin hxj
    · obtain ⟨key, hlive, rfl⟩ := hxj
      rw [(h.files.file j).inodeOk.used key hlive] at hfree
      exact Bool.noConfusion hfree
  have howns : ∀ {j x}, Owns fs' (if j = i then dm' else s.dirMetas j).item
      (if j = i then dm' else s.dirMetas j).inodeMaxCluster x →
      (j = i ∧ Owns fs' dm'.item dm'.inodeMaxCluster x) ∨ (j ≠ i ∧ s.OwnsInode j x) := by
    intro j x hx
    by_cases hj : j = i
    · rw [if_pos hj] at hx
      exact .inl ⟨hj, hx⟩
    · rw [if_neg hj] at hx
      exact .inr ⟨hj, (hother hj).2 x hx⟩
  refine ⟨?_, hl.bitmapOk, ⟨fun j => ?_, fun j k hjk c hc hc' => ?_, fun j k hjk x hx hx' => ?_, fun j hj => ?_, hnodup⟩⟩
  · show fs'.superBlock.Ok
    rw [hl.superBlock]
    exact h.superBlock
  · show FileOk fs' (if j = i then dm' else s.dirMetas j) _
    by_cases hj : j = i
    · rw [if_pos hj, if_pos hj]
      exact hl.fileOk
    · rw [if_neg hj, if_neg hj]
      exact (hother hj).1
  · by_cases hj : j = i <;> by_cases hk : k = i
    · exact hjk (hj.trans hk.symm)
    · rw [if_pos hj] at hc
      rw [if_neg hk] at hc'
      exact hclus hk c hc hc'
    · rw [if_neg hj] at hc
      rw [if_pos hk] at hc'
      exact hclus hj c hc' hc
    · rw [if_neg hj] at hc
      rw [if_neg hk] at hc'
      exact h.files.clusters j k hjk c hc hc'
  · rcases howns hx with ⟨hj, hx⟩ | ⟨hj, hx⟩ <;> rcases howns hx' with ⟨hk, hx'⟩ | ⟨hk, hx'⟩
    · exact hjk (hj.trans hk.symm)
    · exact hino hk x hx hx'
    · exact hino hj x hx' hx
    · exact h.files.inodes j k hjk x hx hx'
  · have := hfree j hj
    by_cases hji : j = i
    · rw [if_pos hji] at this ⊢
      exact this
    · rw [if_neg hji] at this ⊢
      exact h.files.free j this

/-- **One step.** An operation local to file `i` is a step of the volume. -/
theorem FatInv.fileStep (h : FatInv s L)
    (hl : Local s.fs (s.dirMetas i) (L i) fs' dm' L') {free' : List Nat} (hnodup : free'.Nodup)
    (hfree : ∀ j ∈ free', if j = i then L' = [] else j ∈ s.free) :
    FileStep s L i { s.update i fs' dm' with free := free' } L' := by
  refine ⟨h.update hl hnodup hfree, ?_, fun j hj => if_neg hj⟩
  have hself : (s.update i fs' dm').dirMetas i = dm' := if_pos rfl
  rw [hself]
  exact hl

/-- A step that keeps the free list. -/
theorem FatInv.fileStep_live (h : FatInv s L) (hi : i ∉ s.free)
    (hl : Local s.fs (s.dirMetas i) (L i) fs' dm' L') : FileStep s L i (s.update i fs' dm') L' := by
  refine h.fileStep hl h.files.nodup fun j hj => ?_
  have hji : j ≠ i := fun heq => hi (heq ▸ hj)
  rw [if_neg hji]
  exact hj

end Inv

/-! ## Operations -/

/-- The operations on the files of a volume. -/
inductive FatOp where
  | create (attr : Nat)
  | write (i : Nat) (src : Nat → Byte) (off n : Nat)
  | trunc (i : Nat)
  | unlink (i : Nat)

/-- The file an operation is about. -/
def FatOp.target (s : FatState) : FatOp → Nat
  | .create _ => s.free.headD 0
  | .write i .. => i
  | .trunc i => i
  | .unlink i => i

/-- The files that operations are called with are not in the free list. -/
def FatOp.Enabled (s : FatState) : FatOp → Prop
  | .create _ => True
  | .write i .. => i ∉ s.free
  | .trunc i => i ∉ s.free
  | .unlink i => i ∉ s.free

/-- The data area has the clusters that the operation asks for. -/
def FatOp.Fits (s : FatState) : FatOp → Prop
  | .create attr => attr = ATTR_DIRECTORY → 0 < freeClusters s.fs
  | .write i _ off n => ¬ WriteRefused (s.dirMetas i) off n →
    writeSpan s.fs.superBlock off n ≤ (s.chainOf i).length + freeClusters s.fs
  | _ => True

/-- The state after an operation. -/
def FatState.exec (s : FatState) : FatOp → Except Panic FatState
  | .create attr => (s.create attr).map Prod.snd
  | .write i src off n => (s.write i src off n).map Prod.snd
  | .trunc i => s.trunc i
  | .unlink i => s.unlink i

section Ops

variable {s s' : FatState} {L : Nat → List Nat} {i : Nat} {op : FatOp}

theorem map_ok {α β : Type} {x : Except Panic α} {f : α → β} {b : β} (h : x.map f = .ok b) :
    ∃ a, x = .ok a ∧ f a = b := by
  cases x with
  | error e => cases h
  | ok a => exact ⟨a, rfl, Except.ok.inj h⟩

/-- Creating a file. -/
theorem FatInv.create (h : FatInv s L) {attr : Nat} (hfit : attr = ATTR_DIRECTORY → 0 < freeClusters s.fs)
    (hr : s.create attr = .ok (i, s')) :
    s.free = i :: s'.free ∧ ∃ L', FileStep s L i s' L' ∧ (s'.dirMetas i).fileSize = 0 ∧
      ((s'.dirMetas i).attr = ATTR_DIRECTORY ∨
        L' = [] ∧ (s'.dirMetas i).inodeMaxCluster = 0 ∧ (s'.dirMetas i).curClus = 0) := by
  unfold FatState.create at hr
  cases hfree : s.free with
  | nil => rw [hfree] at hr; cases hr
  | cons j free =>
    rw [hfree] at hr
    obtain ⟨⟨fs', dm'⟩, halloc, hr⟩ := except_bind_ok hr
    obtain ⟨rfl, rfl⟩ := Prod.mk.inj (Except.ok.inj hr)
    have hself : (s.update j fs' dm').dirMetas j = dm' := if_pos rfl
    have hnil : L j = [] := h.files.free j (by rw [hfree]; exact List.mem_cons_self ..)
    have hnodup := h.files.nodup
    rw [hfree] at hnodup
    obtain ⟨hj, hnodup⟩ := List.nodup_cons.mp hnodup
    have hfile := h.files.file j
    rw [hnil] at hfile
    have hkeep : ∀ L' : List Nat, ∀ k ∈ free, if k = j then L' = [] else k ∈ s.free := by
      intro L' k hk
      have hkj : k ≠ j := fun heq => hj (heq ▸ hk)
      rw [if_neg hkj, hfree]
      exact List.mem_cons_of_mem j hk
    refine ⟨rfl, ?_⟩
    by_cases hattr : attr = ATTR_DIRECTORY
    · obtain ⟨fs₁, dm₁, c, heq, hl, hsize, hdir⟩ := metaAlloc_directory h.superBlock h.bitmap hfile (hfit hattr)
      rw [hattr, heq] at halloc
      cases halloc
      refine ⟨[c], h.fileStep (by rw [hnil]; exact hl) hnodup (hkeep _), ?_⟩
      simp only [hself]
      exact ⟨hsize, .inl hdir⟩
    · obtain ⟨dm₁, heq, hl, hsize, hk, hcur⟩ := metaAlloc_file h.bitmap hfile hattr
      rw [heq] at halloc
      cases halloc
      refine ⟨[], h.fileStep (by rw [hnil]; exact hl) hnodup (hkeep _), ?_⟩
      simp only [hself]
      exact ⟨hsize, .inr ⟨trivial, hk, hcur⟩⟩

/-- Writing to a file. -/
theorem FatInv.write (h : FatInv s L) (hi : i ∉ s.free) {src : Nat → Byte} {off n : Nat} {r : Int}
    (hfit : ¬ WriteRefused (s.dirMetas i) off n →
      writeSpan s.fs.superBlock off n ≤ (L i).length + freeClusters s.fs)
    (hr : s.write i src off n = .ok (r, s')) :
    ∃ L', FileStep s L i s' L' ∧ (¬ WriteRefused (s.dirMetas i) off n →
      r = i32 n ∧ MetaWritten s.fs (s.dirMetas i) (L i) src off n s'.fs (s'.dirMetas i) L') := by
  obtain ⟨⟨r', fs', dm'⟩, hmeta, hr⟩ := except_bind_ok hr
  cases hr
  have hself : (s.update i fs' dm').dirMetas i = dm' := if_pos rfl
  by_cases href : WriteRefused (s.dirMetas i) off n
  · obtain ⟨r₀, heq⟩ := metaWrite_refused s.fs src href
    rw [heq] at hmeta
    cases hmeta
    exact ⟨L i, h.fileStep_live hi (Local.refl h.bitmap (h.files.file i)), fun hn => absurd href hn⟩
  · obtain ⟨hr', L', hw⟩ := metaWrite_ok h.superBlock h.bitmap (h.files.file i) href (hfit href) hmeta
    refine ⟨L', h.fileStep_live hi hw.loc, fun _ => ⟨hr', ?_⟩⟩
    rw [hself]
    exact hw

/-- Emptying a file. -/
theorem FatInv.trunc (h : FatInv s L) (hi : i ∉ s.free) :
    ∃ s', s.trunc i = .ok s' ∧ FileStep s L i s' [] ∧ s'.free = s.free ∧
      s'.dirMetas i = { s.dirMetas i with fileSize := 0, firstClus := 0, inodeMaxCluster := 0 } := by
  obtain ⟨fs', heq, hl⟩ := metaTrunc_ok h.superBlock h.bitmap (h.files.file i)
  refine ⟨_, ?_, h.fileStep_live hi hl, rfl, if_pos rfl⟩
  unfold FatState.trunc
  rw [heq]
  rfl

/-- Removing a file. -/
theorem FatInv.unlink (h : FatInv s L) (hi : i ∉ s.free) : ∃ s', s.unlink i = .ok s' ∧ FileStep s L i s' [] := by
  obtain ⟨fs', heq, hl⟩ := metaTrunc_ok h.superBlock h.bitmap (h.files.file i)
  have hempty : Local s.fs (s.dirMetas i) (L i) fs' { s.dirMetas i with
      fileSize := 0, firstClus := 0, inodeMaxCluster := 0, reserve := 0 } [] :=
    hl.trans (local_empty _ hl.bitmapOk hl.fileOk rfl rfl)
  refine ⟨_, ?_, h.fileStep hempty (List.nodup_cons.mpr ⟨hi, h.files.nodup⟩) fun k hk => ?_⟩
  · unfold FatState.unlink
    rw [heq]
    rfl
  · by_cases hki : k = i
    · rw [if_pos hki]
    · rw [if_neg hki]
      exact (List.mem_cons.mp hk).resolve_left hki

/-- **Every operation is a step of its file.** -/
theorem FatInv.exec (h : FatInv s L) (hen : op.Enabled s) (hfit : op.Fits s) (hr : s.exec op = .ok s') :
    ∃ L', FileStep s L (op.target s) s' L' := by
  cases op with
  | create attr =>
    obtain ⟨⟨i, s₁⟩, hcreate, rfl⟩ := map_ok hr
    obtain ⟨hfree, L', hstep, -⟩ := h.create hfit hcreate
    have htarget : (FatOp.create attr).target s = i := by
      show s.free.headD 0 = i
      rw [hfree]
      rfl
    rw [htarget]
    exact ⟨L', hstep⟩
  | write i src off n =>
    obtain ⟨⟨r, s₁⟩, hwrite, rfl⟩ := map_ok hr
    have hroom : ¬ WriteRefused (s.dirMetas i) off n →
        writeSpan s.fs.superBlock off n ≤ (L i).length + freeClusters s.fs := by
      rw [← h.chainOf]
      exact hfit
    obtain ⟨L', hstep, -⟩ := h.write hen hroom hwrite
    exact ⟨L', hstep⟩
  | trunc i =>
    obtain ⟨s₁, heq, hstep, -⟩ := h.trunc hen
    obtain rfl := Except.ok.inj (heq.symm.trans hr)
    exact ⟨[], hstep⟩
  | unlink i =>
    obtain ⟨s₁, heq, hstep⟩ := h.unlink hen
    obtain rfl := Except.ok.inj (heq.symm.trans hr)
    exact ⟨[], hstep⟩

end Ops

/-! ## The bitmap after `fatInit` -/

/-- The clusters that a sector of the table marks. -/
theorem get_markSector (bm : Bitmap.Words) (t : Sector) (first n x : Nat) :
    Bitmap.get (markSector bm t first n) x = true ↔
      Bitmap.get bm x = true ∨ (first ≤ x ∧ x < first + n ∧ getU32 t (4 * (x - first)) ≠ 0) := by
  induction n with
  | zero =>
    constructor
    · exact .inl
    · rintro (h | h)
      · exact h
      · omega
  | succ n ih =>
    unfold markSector
    split
    · rename_i hne
      rw [Bitmap.get_set, Bool.or_eq_true, decide_eq_true_eq, ih]
      constructor
      · rintro (rfl | h | h)
        · exact .inr ⟨by omega, by omega, by rw [Nat.add_sub_cancel_left]; exact hne⟩
        · exact .inl h
        · exact .inr ⟨h.1, by omega, h.2.2⟩
      · rintro (h | ⟨h1, h2, h3⟩)
        · exact .inr (.inl h)
        · by_cases hx : x = first + n
          · exact .inl hx
          · exact .inr (.inr ⟨h1, by omega, h3⟩)
    · rename_i hz
      rw [ih]
      constructor
      · rintro (h | ⟨h1, h2, h3⟩)
        · exact .inl h
        · exact .inr ⟨h1, by omega, h3⟩
      · rintro (h | ⟨h1, h2, h3⟩)
        · exact .inl h
        · have hx : x ≠ first + n := by
            rintro rfl
            rw [Nat.add_sub_cancel_left] at h3
            exact hz h3
          exact .inr ⟨h1, by omega, h3⟩

/-- The bitmap after `n` sectors of the FAT. -/
theorem get_fillBitmap {sb : SuperBlock} (hb : sb.bytsPerSec = 512) (d : Disk) (n x : Nat) :
    Bitmap.get (fillBitmap sb d n) x = true ↔
      x < n * 128 ∧ getU32 (d (sb.rsvdSecCnt + x / 128)) (4 * (x % 128)) ≠ 0 := by
  induction n with
  | zero =>
    have hz : Bitmap.get (fillBitmap sb d 0) x = false := by
      exact BitVec.getLsbD_zero
    rw [hz]
    simp
  | succ n ih =>
    have hper : sb.bytsPerSec / 4 = 128 := by rw [hb]
    unfold fillBitmap
    simp only [hper]
    rw [get_markSector, ih]
    constructor
    · rintro (⟨h1, h2⟩ | ⟨h1, h2, h3⟩)
      · exact ⟨by omega, h2⟩
      · refine ⟨by omega, ?_⟩
        rw [show x / 128 = n by omega, show x % 128 = x - n * 128 by omega]
        exact h3
    · rintro ⟨h1, h2⟩
      by_cases hx : x < n * 128
      · exact .inl ⟨hx, h2⟩
      · refine .inr ⟨by omega, by omega, ?_⟩
        rw [show x / 128 = n by omega, show x % 128 = x - n * 128 by omega] at h2
        exact h2

/-- `fatInit` accepts volumes with sectors of 512 bytes, and its bitmap shows the FAT. -/
theorem fatInit_ok {d : Disk} {inodes : Nat → Nat → Nat} {bm : Bitmap.Words} {fs : FileSystem}
    (h : fatInit d inodes bm = .ok fs) :
    fs.allocLog = [] ∧ ∀ x < fs.superBlock.FATsz * 128, (Bitmap.get fs.clusterBitmap x = true ↔ fatEntry fs x ≠ 0) := by
  unfold fatInit at h
  simp only at h
  split at h
  · cases h
  · split at h
    · cases h
    · rename_i hbps
      obtain rfl := Except.ok.inj h
      have h512 : (readSuperBlock (d 0)).bytsPerSec = 512 := not_ne_iff.mp hbps
      refine ⟨rfl, fun x hx => ?_⟩
      rw [fatEntry_eq, get_fillBitmap h512]
      exact ⟨fun h => h.2, fun h => ⟨hx, h⟩⟩

/-- A volume `fatInit` accepts, with sound geometry and a consistent FAT: entries 0 and 1 are taken,
and the loaded files have disjoint chains and caches. The pool is as the loading leaves it. -/
structure FatInit (s : FatState) : Prop where
  mounted : ∃ d inodes bm, fatInit d inodes bm = .ok s.fs
  superBlock : s.fs.superBlock.Ok
  reserved : fatEntry s.fs 0 ≠ 0 ∧ fatEntry s.fs 1 ≠ 0
  files : FilesOk s s.chainOf

theorem FatInit.inv {s : FatState} (h : FatInit s) : FatInv s s.chainOf := by
  obtain ⟨d, inodes, bm, hd⟩ := h.mounted
  obtain ⟨-, hbit⟩ := fatInit_ok hd
  have hcov := h.superBlock.fat_covers
  exact ⟨h.superBlock, ⟨(hbit 0 (by omega)).mpr h.reserved.1, (hbit 1 (by omega)).mpr h.reserved.2, fun c hc =>
    hbit c (h.superBlock.inRange_bounds hc).1⟩, h.files⟩

/-! ## Runs -/

/-- A step in which the data area has the clusters asked for. -/
def FitStep (s s' : FatState) : Prop := ∃ op : FatOp, op.Enabled s ∧ op.Fits s ∧ s.exec op = .ok s'

/-- The states that runs of such steps reach after mounting. -/
def FitReach : FatState → Prop := Run.Reach FatInit FitStep

theorem FitReach.inv {s : FatState} (h : FitReach s) : FatInv s s.chainOf := by
  refine h.invariant (fun s h₀ => h₀.inv) fun s s' hinv hstep => ?_
  obtain ⟨op, hen, hfit, hr⟩ := hstep
  obtain ⟨L', hs⟩ := hinv.exec hen hfit hr
  have hchain := hs.inv.chainOf
  rw [hchain]
  exact hs.inv

/-- Every call of `allocClus` in a step returns a free data cluster that no other file has. -/
theorem FatInv.calls {s s' : FatState} {L : Nat → List Nat} {i : Nat} {L' : List Nat} (h : FatInv s L)
    (hs : FileStep s L i s' L') :
    ∃ calls, s'.fs.allocLog = s.fs.allocLog ++ calls ∧ ∀ call ∈ calls, call.Ok s.fs.superBlock ∧
      ∀ j, j ≠ i → call.cluster ∉ s.chainOf j ∧ call.cluster ∉ s'.chainOf j := by
  obtain ⟨calls, hlog, hcalls⟩ := hs.loc.calls
  refine ⟨calls, hlog, fun call hcall => ?_⟩
  obtain ⟨hok, hin⟩ := hcalls call hcall
  refine ⟨hok, fun j hj => ?_⟩
  rw [h.chainOf, hs.inv.chainOf]
  simp only [if_neg hj, and_self]
  intro hmem
  rcases hin with hin | hfree
  · exact h.files.clusters j i hj _ hmem hin
  · rw [(h.files.file j).chain.used h.bitmap hmem] at hfree
    exact Bool.noConfusion hfree

/-- **The allocation invariant.** In every state of a run whose operations find the clusters they ask
for in the data area, the bitmap marks exactly the data clusters with an entry, and the next such
operation gets from `allocClus` data clusters only, free before the call and in no other file. -/
theorem cluster_allocation {s : FatState} (h : FitReach s) :
    (∀ c, s.fs.superBlock.InRange c → (Bitmap.get s.fs.clusterBitmap c = true ↔ fatEntry s.fs c ≠ 0)) ∧
    ∀ (op : FatOp) (s' : FatState), op.Enabled s → op.Fits s → s.exec op = .ok s' →
      ∃ calls, s'.fs.allocLog = s.fs.allocLog ++ calls ∧ ∀ call ∈ calls, call.Ok s.fs.superBlock ∧
        ∀ j, j ≠ op.target s → call.cluster ∉ s.chainOf j ∧ call.cluster ∉ s'.chainOf j := by
  have hinv := FitReach.inv h
  refine ⟨hinv.bitmap.bit, fun op s' hen hfit hr => ?_⟩
  obtain ⟨L', hs⟩ := hinv.exec hen hfit hr
  exact hinv.calls hs

/-! ## A small volume -/

/-- A volume with one reserved sector, a FAT of one sector with room for 128 entries, and `tot`
sectors in all. Cluster 2 is the root directory. -/
def smallDisk (tot : Byte) : Disk := fun sec i =>
  if sec = 0 then
    if i = 12 then 2 else if i = 13 ∨ i = 14 ∨ i = 16 ∨ i = 36 then 1 else if i = 19 then tot else if i = 44 then 2
    else if i = 82 then 0x46 else if i = 83 then 0x41 else if i = 84 then 0x54 else if i = 85 then 0x33
    else if i = 86 then 0x32 else 0
  else if sec = 1 ∧ i < 12 then (if i % 4 = 3 then 0x0f else 0xff)
  else 0

/-- The small volume, mounted. -/
def smallFs (tot : Byte) : FileSystem where
  superBlock := readSuperBlock (smallDisk tot 0)
  disk := smallDisk tot
  clusterBitmap := fillBitmap (readSuperBlock (smallDisk tot 0)) (smallDisk tot) (readSuperBlock (smallDisk tot 0)).FATsz
  inodes := fun _ _ => 0
  inodeBitmap := fun _ => 0
  allocLog := []

/-- A `DirMeta` of the pool that was never used. -/
def emptyMeta : DirMeta := ⟨0, 0, 0, 0, 0, 0, fun _ => 0, 0, .regular⟩

/-- The small volume with its root directory and one free `DirMeta`. -/
def smallState (tot : Byte) : FatState where
  fs := smallFs tot
  dirMetas := fun i => if i = 0 then { emptyMeta with
    attr := ATTR_DIRECTORY, firstClus := 2, curClus := 2, inodeMaxCluster := 1, item := fun _ => 2 } else emptyMeta
  free := [1]

/-- A volume whose only file is the root directory in cluster 2, with one free `DirMeta`. -/
def rootState (fs : FileSystem) : FatState where
  fs
  dirMetas := fun i => if i = 0 then { emptyMeta with
    attr := ATTR_DIRECTORY, firstClus := 2, curClus := 2, inodeMaxCluster := 1, item := fun _ => 2 } else emptyMeta
  free := [1]

/-- The FAT begins in sector 1 and has only the entries of the root directory. -/
structure RootOnly (fs : FileSystem) : Prop where
  mounted : ∃ d inodes bm, fatInit d inodes bm = .ok fs
  reserved : fs.superBlock.rsvdSecCnt = 1
  disk : ∀ sec, sec ≠ 0 → fs.disk sec = smallDisk 0 sec

/-- The chains of such a volume. -/
def smallChain (i : Nat) : List Nat := if i = 0 then [2] else []

section Root

variable {fs : FileSystem}

theorem RootOnly.fatEntry (h : RootOnly fs) (c : Nat) : fatEntry fs c = if c < 3 then 0x0fffffff else 0 := by
  have hbyte : ∀ sec i, sec ≠ 0 → smallDisk 0 sec i =
      if sec = 1 ∧ i < 12 then (if i % 4 = 3 then 0x0f else 0xff) else 0 := fun sec i hsec => if_neg hsec
  rw [fatEntry_eq, h.reserved, h.disk _ (by omega)]
  unfold getU32
  rw [hbyte _ _ (by omega), hbyte _ _ (by omega), hbyte _ _ (by omega), hbyte _ _ (by omega)]
  by_cases hlt : c < 3
  · rw [if_pos hlt, if_pos (by omega), if_neg (by omega), if_pos (by omega), if_neg (by omega), if_pos (by omega),
      if_neg (by omega), if_pos (by omega), if_pos (by omega)]
    decide
  · rw [if_neg hlt, if_neg (by omega), if_neg (by omega), if_neg (by omega), if_neg (by omega)]
    decide

theorem RootOnly.bit (h : RootOnly fs) {c : Nat} (hc : c < fs.superBlock.FATsz * 128) :
    Bitmap.get fs.clusterBitmap c = true ↔ c < 3 := by
  obtain ⟨d, inodes, bm, hd⟩ := h.mounted
  rw [(fatInit_ok hd).2 c hc, h.fatEntry]
  by_cases hlt : c < 3 <;> simp [hlt]

theorem RootOnly.filesOk (h : RootOnly fs) (hd : 0 < fs.superBlock.dataClusCnt) : FilesOk (rootState fs) smallChain := by
  have hlive : ∀ i {key : InodeKey}, ¬ InodeKey.Live ((rootState fs).dirMetas i).inodeMaxCluster key := by
    intro i key
    refine not_live_of_le_one ?_
    by_cases hi : i = 0
    · subst hi
      exact Nat.le_refl 1
    · show (if i = 0 then _ else emptyMeta).inodeMaxCluster ≤ 1
      rw [if_neg hi]
      exact Nat.zero_le 1
  refine ⟨fun i => ?_, fun i j hij c hc hc' => ?_, fun i j _ x hx _ => ?_, fun i hi => ?_, List.nodup_singleton 1⟩
  · by_cases hi : i = 0
    · subst hi
      refine ⟨isChain_singleton ⟨by omega, by show 2 ≤ fs.superBlock.dataClusCnt + 1; omega⟩ ?_, rfl,
        fun _ => Nat.one_pos, Nat.le_refl 1, ?_, fun key hl => (hlive 0 hl).elim, fun key _ hl => (hlive 0 hl).elim⟩
      · show FAT32_EOC ≤ Fat.fatEntry fs 2 ∧ Fat.fatEntry fs 2 ≤ FAT32_EOC + 7
        rw [h.fatEntry]
        decide
      · intro i c hi _ hc
        obtain rfl : i = 0 := Nat.lt_one_iff.mp hi
        exact Option.some.inj hc
    · have hm : (rootState fs).dirMetas i = emptyMeta := if_neg hi
      have hl : smallChain i = [] := if_neg hi
      rw [hm, hl]
      refine ⟨IsChain.nil _, rfl, fun hne => absurd rfl hne, Nat.zero_le _, ?_, ?_, ?_⟩
      · intro k c hk
        exact absurd hk (Nat.not_lt_zero k)
      · exact fun key hl => absurd hl.2 (Nat.not_lt_zero _)
      · exact fun key _ hl => absurd hl.2 (Nat.not_lt_zero _)
  · unfold smallChain at hc hc'
    by_cases hi : i = 0
    · rw [if_neg (by omega)] at hc'
      cases hc'
    · rw [if_neg hi] at hc
      cases hc
  · obtain ⟨key, hl, -⟩ := hx
    exact hlive i hl
  · rw [List.mem_singleton.mp hi]
    rfl

theorem RootOnly.fatInit (h : RootOnly fs) (hok : fs.superBlock.Ok) (hd : 0 < fs.superBlock.dataClusCnt) :
    FatInit (rootState fs) := by
  have hfiles := h.filesOk hd
  have hchain : (rootState fs).chainOf = smallChain := funext fun i => (hfiles.file i).chain_eq hok
  refine ⟨h.mounted, hok, ?_, by rw [hchain]; exact hfiles⟩
  show Fat.fatEntry fs 0 ≠ 0 ∧ Fat.fatEntry fs 1 ≠ 0
  rw [h.fatEntry, h.fatEntry]
  decide

/-- All data clusters but the first are free. -/
theorem RootOnly.freeClusters (h : RootOnly fs) (hok : fs.superBlock.Ok) :
    freeClusters fs = fs.superBlock.dataClusCnt - 1 := by
  have hcov := hok.fat_covers
  have heq : ((Finset.Ico 2 (fs.superBlock.dataClusCnt + 2)).filter fun c => Bitmap.get fs.clusterBitmap c = false) =
      Finset.Ico 3 (fs.superBlock.dataClusCnt + 2) := by
    ext c
    rw [Finset.mem_filter, Finset.mem_Ico, Finset.mem_Ico]
    constructor
    · rintro ⟨⟨hlo, hhi⟩, hc⟩
      rw [← Bool.not_eq_true, h.bit (by omega)] at hc
      omega
    · rintro ⟨hlo, hhi⟩
      refine ⟨by omega, ?_⟩
      rw [← Bool.not_eq_true, h.bit (by omega)]
      omega
  unfold Fat.freeClusters Bitmap.freeCount
  rw [heq, Nat.card_Ico]
  omega

end Root

section Small

variable {tot : Byte}

theorem fatInit_small : fatInit (smallDisk tot) (fun _ _ => 0) (fun _ => 0) = .ok (smallFs tot) := by
  have hname : getU8 (smallDisk tot 0) 82 = 0x46 ∧ getU8 (smallDisk tot 0) 83 = 0x41 ∧
      getU8 (smallDisk tot 0) 84 = 0x54 ∧ getU8 (smallDisk tot 0) 85 = 0x33 ∧ getU8 (smallDisk tot 0) 86 = 0x32 :=
    ⟨rfl, rfl, rfl, rfl, rfl⟩
  have hbps : ¬ (readSuperBlock (smallDisk tot 0)).bytsPerSec ≠ BUFFER_SIZE := fun h => h rfl
  unfold fatInit
  rw [if_neg (fun h => h hname), if_neg hbps]
  rfl

theorem rootOnly_small (tot : Byte) : RootOnly (smallFs tot) := by
  refine ⟨⟨_, _, _, fatInit_small⟩, rfl, fun sec hsec => funext fun i => ?_⟩
  show (if sec = 0 then _ else _) = (if sec = 0 then _ else _)
  rw [if_neg hsec, if_neg hsec]

theorem fatInit_smallState (hok : (smallFs tot).superBlock.Ok) (hd : 0 < (smallFs tot).superBlock.dataClusCnt) :
    FatInit (smallState tot) := (rootOnly_small tot).fatInit hok hd

/-- The sector counts of the two sample volumes: with three sectors the root directory takes the only
data cluster, with four a second one is free. -/
theorem superBlock_small :
    readSuperBlock (smallDisk 3 0) = ⟨2, 1, 1, 512, 512, 1, 1, 1, 3, 1, 2⟩ ∧
    readSuperBlock (smallDisk 4 0) = ⟨2, 2, 2, 512, 512, 1, 1, 1, 4, 1, 2⟩ := by decide

theorem small_ok_three : (smallFs 3).superBlock.Ok := by
  show (readSuperBlock (smallDisk 3 0)).Ok
  rw [superBlock_small.1]
  constructor <;> decide

theorem small_ok_four : (smallFs 4).superBlock.Ok := by
  show (readSuperBlock (smallDisk 4 0)).Ok
  rw [superBlock_small.2]
  constructor <;> decide

/-- The next cluster `allocClus` returns on the small volume is 3. -/
theorem allocClus_small (hok : (smallFs tot).superBlock.Ok) :
    ∃ fs' b e, allocClus (smallFs tot) = .ok (3, fs') ∧ fs'.allocLog = [⟨3, b, e⟩] := by
  have hfat : (smallFs tot).superBlock.FATsz = 1 := rfl
  have hbit : ∀ c < 128, (Bitmap.get (smallFs tot).clusterBitmap c = true ↔ c < 3) := fun c hc =>
    (rootOnly_small tot).bit (by rw [hfat]; omega)
  have h3 : Bitmap.get (smallFs tot).clusterBitmap 3 = false := by
    rw [← Bool.not_eq_true, hbit 3 (by omega)]
    omega
  obtain ⟨c, hc⟩ := Bitmap.exists_findClear (n := totalClusterNumber (smallFs tot).superBlock / 64) (i := 0)
    (c := 3) (by omega) (by rw [totalClusterNumber_eq hok, hfat]; omega) h3
  obtain ⟨-, -, hclear, hbelow⟩ := Bitmap.findClear_eq_some hc
  obtain rfl : c = 3 := by
    have hle : ¬ 3 < c := fun hlt => by
      rw [hbelow 3 (by omega) hlt] at h3
      cases h3
    have hge : ¬ c < 3 := fun hlt => by
      rw [(hbit c (by omega)).mpr hlt] at hclear
      cases hclear
    omega
  unfold allocClus
  rw [hc]
  exact ⟨_, _, _, rfl, rfl⟩

/-- Creating a directory on the small volume. -/
theorem create_small (hok : (smallFs tot).superBlock.Ok) :
    ∃ s' b e, (smallState tot).exec (.create ATTR_DIRECTORY) = .ok s' ∧ s'.fs.allocLog = [⟨3, b, e⟩] := by
  obtain ⟨fs', b, e, ha, hlog⟩ := allocClus_small hok
  obtain ⟨dm', halloc⟩ : ∃ dm', metaAlloc (smallFs tot) ((smallState tot).dirMetas 1) ATTR_DIRECTORY = .ok (fs', dm') :=
    ⟨_, metaAlloc_directory_eq (Nat.zero_le 1) ha⟩
  refine ⟨{ (smallState tot).update 1 fs' dm' with free := [] }, b, e, ?_, hlog⟩
  show Except.map Prod.snd (Except.bind (metaAlloc (smallFs tot) ((smallState tot).dirMetas 1) ATTR_DIRECTORY) _) = _
  rw [halloc]
  rfl

theorem freeClusters_small : 0 < freeClusters (smallFs 4) := by
  have hsb : (smallFs 4).superBlock.dataClusCnt = 2 := by decide
  have := (rootOnly_small 4).freeClusters small_ok_four
  omega

end Small

/-- On a full volume whose FAT has entries to spare, `allocClus` returns a cluster past the data area. -/
theorem cluster_allocation_full :
    ¬ ∀ (s s' : FatState) (op : FatOp), FatInit s → op.Enabled s → s.exec op = .ok s' →
      ∀ call ∈ s'.fs.allocLog, s.fs.superBlock.InRange call.cluster := by
  intro h
  obtain ⟨s', b, e, hr, hlog⟩ := create_small small_ok_three
  have hinit := fatInit_smallState small_ok_three (by decide)
  have hin := h _ s' (.create ATTR_DIRECTORY) hinit trivial hr ⟨3, b, e⟩ (by rw [hlog]; exact List.mem_singleton_self _)
  have hclus : (smallState 3).fs.superBlock.dataClusCnt = 1 := by decide
  have hle : 3 ≤ (smallState 3).fs.superBlock.dataClusCnt + 1 := hin.2
  omega

/-- Where a data cluster is free, a new directory gets it. -/
theorem cluster_allocation_roomy : ∃ s s', FitReach s ∧ s.exec (.create ATTR_DIRECTORY) = .ok s' ∧
    ∃ call ∈ s'.fs.allocLog, call.Ok s.fs.superBlock ∧ call.cluster = 3 ∧ 3 ∉ s.chainOf 0 := by
  obtain ⟨s', b, e, hr, hlog⟩ := create_small small_ok_four
  have hreach : FitReach (smallState 4) := .init (fatInit_smallState small_ok_four (by decide))
  have hfits : (FatOp.create ATTR_DIRECTORY).Fits (smallState 4) := fun _ => freeClusters_small
  obtain ⟨calls, hcalls, hall⟩ := (cluster_allocation hreach).2 (.create ATTR_DIRECTORY) s' trivial hfits hr
  have hmem : ⟨3, b, e⟩ ∈ calls := by
    have heq : calls = [⟨3, b, e⟩] := by rw [← hlog, hcalls]; rfl
    rw [heq]
    exact List.mem_singleton_self _
  obtain ⟨hok, hother⟩ := hall _ hmem
  exact ⟨_, s', hreach, hr, _, by rw [hlog]; exact List.mem_singleton_self _, hok, rfl, (hother 0 (by decide)).1⟩

end Exaros.Fat
