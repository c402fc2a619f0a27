import Exaros.Files.Refs

/-!
# The system calls on descriptors

Each call from a state with exact counts ends in one, and closes the object of every file whose last name
it takes away. Four calls miss this for some arguments, and `Op.Meets` says which are left: `dup3` of a
descriptor onto itself, `fcntl`, `socket` and `accept` with no descriptor free, and a second `open` of a
tmpfile.
-/

namespace Exaros.Files

/-- The last name of a file takes its object with it. -/
def Drops (k k' : Kernel) : Prop :=
  ∀ f < NFILE, ∀ o, (k.files f).object = some o → 0 < k.count f → k'.count f = 0 → k'.isOpen o = false

/-- A system call that neither panics in `filedup` or `fileclose` nor loses count. -/
def Fine (k : Kernel) (r : Except Halt Kernel) : Prop :=
  (∀ e, r = .error e → e ≠ .filedup ∧ e ≠ .fileclose) ∧ ∀ k', r = .ok k' → Inv 0 k' ∧ Drops k k'

section Calls

variable {e : Nat → Int} {k k' : Kernel} {p fd f : Nat}

theorem Inv.count_eq (hi : Inv 0 k) (hf : f < NFILE) : (k.files f).ref = k.count f := by
  simpa using hi.ref f hf

/-- A file counted more often than it is named is referenced. -/
theorem Inv.one_le_ref (hi : Inv e k) (hf : f < NFILE) (he : 1 ≤ k.count f + e f) : 1 ≤ (k.files f).ref := by
  have := hi.ref f hf
  omega

theorem Later.drops (hl : Later k k') (hi : Inv 0 k') : Drops k k' := by
  intro f hf o ho _ h0
  refine hl.shut f o ho ?_
  rw [hi.count_eq hf, h0]
  rfl

/-- Files that were open keep their counts. -/
theorem drops_of_same (hi : Inv 0 k) (hi' : Inv 0 k') (h : ∀ f < NFILE, (k.files f).ref ≠ 0 → (k'.files f).ref = (k.files f).ref) :
    Drops k k' := by
  intro f hf o _ hpos h0
  have href := hi.count_eq hf
  have href' := hi'.count_eq hf
  have := h f hf (by omega)
  omega

theorem fine_ok (hi : Inv 0 k') (hd : Drops k k') : Fine k (.ok k') := by
  refine ⟨fun e he => ?_, fun k₁ hk => ?_⟩
  · cases he
  · cases hk
    exact ⟨hi, hd⟩

theorem fine_error {e : Halt} (h : e ≠ .filedup ∧ e ≠ .fileclose) : Fine k (.error e) := by
  refine ⟨fun e' he => ?_, fun k₁ hk => ?_⟩
  · cases he
    exact h
  · cases hk

theorem drops_refl (hi : Inv 0 k) : Drops k k := drops_of_same hi hi fun _ _ _ => rfl

/-- A call that gives up early. -/
theorem fine_refl (hi : Inv 0 k) : Fine k (.ok k) := fine_ok hi (drops_refl hi)

/-- A descriptor's file. -/
theorem Inv.of_argfd (hi : Inv 0 k) {fd : Int} (h : k.argfd p fd = some f) :
    0 ≤ fd ∧ fd < NOFILE ∧ (k.procs p).ofile fd.toNat = some f ∧ p < PROCESS_TOTAL_NUMBER ∧ fd.toNat < NOFILE ∧ f < NFILE ∧
      1 ≤ (k.files f).ref := by
  unfold Kernel.argfd at h
  split at h
  · next hfd =>
    obtain ⟨hp, hn, hf⟩ := hi.range p _ f h
    have := count_pos hi h
    exact ⟨hfd.1, hfd.2, h, hp, hn, hf, hi.one_le_ref hf (by simp; omega)⟩
  · cases h

/-- `filealloc` hands out a file without an object. -/
theorem Inv.filealloc (hi : Inv e k) (h : filealloc k = some (f, k')) :
    f < NFILE ∧ (k.files f).ref = 0 ∧ k' = k.setFile f { k.files f with ref := 1 } ∧ Inv (e + one (some f)) k' := by
  unfold Files.filealloc at h
  cases hfind : (List.range NFILE).find? fun f => (k.files f).ref = 0 with
  | none =>
    rw [hfind] at h
    cases h
  | some g =>
    rw [hfind] at h
    cases h
    have h0 : (k.files f).ref = 0 := by simpa using List.find?_some hfind
    refine ⟨List.mem_range.mp (List.mem_of_find?_eq_some hfind), h0, rfl, ?_⟩
    refine (hi.setRef (f := f) (r := 1) fun h => by cases h).cast ?_
    funext g
    simp only [Pi.add_apply, one, Option.some.injEq]
    by_cases hg : g = f
    · simp [hg, h0]
    · simp [hg, Ne.symm hg]

/-- `fdalloc` names the file with a free descriptor, if there is one. -/
theorem Inv.fdalloc (hi : Inv e k) (hp : p < PROCESS_TOTAL_NUMBER) (hlive : (k.procs p).live = true) (hf : f < NFILE) :
    (fdalloc p f k = (none, k) ∧ ∀ fd < NOFILE, (k.procs p).ofile fd ≠ none) ∨
      ∃ fd < NOFILE, (k.procs p).ofile fd = none ∧ fdalloc p f k = (some fd, k.setSlot p fd (some f)) ∧
        Inv (e - one (some f)) (k.setSlot p fd (some f)) := by
  unfold Files.fdalloc
  rw [hi.hard p hlive]
  cases hfind : (List.range NOFILE).find? fun fd => ((k.procs p).ofile fd).isNone with
  | none =>
    refine .inl ⟨rfl, fun fd hfd h0 => ?_⟩
    have := List.find?_eq_none.mp hfind fd (List.mem_range.mpr hfd)
    simp [h0] at this
  | some fd =>
    have hfd := List.mem_range.mp (List.mem_of_find?_eq_some hfind)
    have hnone : (k.procs p).ofile fd = none := by simpa using List.find?_some hfind
    refine .inr ⟨fd, hfd, hnone, rfl, (hi.setSlot hp hfd (v := some f) fun g hg => ?_).cast ?_⟩
    · cases hg
      exact ⟨hf, hlive⟩
    · rw [hnone, one_none, add_zero]

/-- Filling the record of a file that has no object yet. -/
theorem Inv.fill (hi : Inv e k) {file : File} (href : file.ref = (k.files f).ref) (h0 : (k.files f).ref ≠ 0)
    (hopen : ∀ o, file.object = some o → k.isOpen o = true ∧ ∀ g, (k.files g).object ≠ some o) :
    Inv e (k.setFile f file) := by
  have hg : ∀ g, g ≠ f → (k.setFile f file).files g = k.files g := fun g hgf => by simp [Kernel.setFile, hgf]
  have hf : (k.setFile f file).files f = file := by simp [Kernel.setFile]
  refine ⟨fun g hgn => ?_, hi.range, hi.dead, hi.hard, fun g hz => ?_, fun g o ho => ?_, fun g g' o ho ho' => ?_, hi.free⟩
  · show ((k.setFile f file).files g).ref = k.count g + e g
    by_cases hgf : g = f
    · rw [hgf, hf, href]
      exact hi.ref f (hgf ▸ hgn)
    · rw [hg g hgf]
      exact hi.ref g hgn
  · by_cases hgf : g = f
    · rw [hgf, hf, href] at hz
      exact (h0 hz).elim
    · rw [hg g hgf] at hz ⊢
      exact hi.nothing g hz
  · show k.isOpen o = true
    by_cases hgf : g = f
    · rw [hgf, hf] at ho
      exact (hopen o ho).1
    · rw [hg g hgf] at ho
      exact hi.isOpen g o ho
  · by_cases hgf : g = f
    · by_cases hgf' : g' = f
      · rw [hgf, hgf']
      · rw [hgf, hf] at ho
        rw [hg g' hgf'] at ho'
        exact ((hopen o ho).2 g' ho').elim
    · by_cases hgf' : g' = f
      · rw [hgf', hf] at ho'
        rw [hg g hgf] at ho
        exact ((hopen o ho').2 g ho).elim
      · rw [hg g hgf] at ho
        rw [hg g' hgf'] at ho'
        exact hi.unique g g' o ho ho'

/-! ## Sharing and dropping -/

/-- `fdalloc` and `filedup` together, when a descriptor is free. -/
theorem Inv.share (hi : Inv 0 k) (hp : p < PROCESS_TOTAL_NUMBER) (hlive : (k.procs p).live = true) (hf : f < NFILE)
    (h1 : 1 ≤ (k.files f).ref) (hfd : fd < NOFILE) (hnone : (k.procs p).ofile fd = none) :
    ∃ k', Files.filedup f (k.setSlot p fd (some f)) = .ok k' ∧ Inv 0 k' ∧ Later k k' := by
  have hi₁ : Inv (0 + one ((k.procs p).ofile fd) - one (some f)) (k.setSlot p fd (some f)) :=
    hi.setSlot hp hfd fun g hg => by
      cases hg
      exact ⟨hf, hlive⟩
  have hl₁ : Later k (k.setSlot p fd (some f)) := Later.of_eq hi rfl fun _ => rfl
  obtain ⟨k', hk', hi', hl', -⟩ := hi₁.filedup (f := f) h1
  refine ⟨k', hk', hi'.cast ?_, hl₁.trans hl'⟩
  rw [hnone, one_none, add_zero, sub_add_cancel]

theorem syscallDup_fine (hi : Inv 0 k) (hp : p < PROCESS_TOTAL_NUMBER) (hlive : (k.procs p).live = true) (fd : Int) :
    Fine k ((syscallDup p fd k).map (·.2)) := by
  unfold syscallDup
  cases harg : k.argfd p fd with
  | none => exact fine_refl hi
  | some f =>
    obtain ⟨-, -, -, -, -, hf, h1⟩ := hi.of_argfd harg
    rcases hi.fdalloc hp hlive hf with ⟨hfd, -⟩ | ⟨new, hnew, hnone, hfd, -⟩
    · simp only [hfd]
      exact fine_refl hi
    · obtain ⟨k', hk', hi', hl'⟩ := hi.share hp hlive hf h1 hnew hnone
      simp only [hfd, hk']
      exact fine_ok hi' (hl'.drops hi')

theorem syscallClose_fine (hi : Inv 0 k) (fd : Int) : Fine k ((syscallClose p fd k).map (·.2)) := by
  unfold syscallClose
  cases harg : k.argfd p fd with
  | none => exact fine_refl hi
  | some f =>
    obtain ⟨-, -, hslot, hp, hfd, hf, h1⟩ := hi.of_argfd harg
    have hi₁ := hi.setSlot hp hfd (v := none) fun g hg => by cases hg
    obtain ⟨k', hk', hi', hl', -⟩ := hi₁.fileclose (f := f) h1
    have hi'' : Inv 0 k' := hi'.cast (by rw [hslot, one_none, sub_zero, zero_add, sub_self])
    have hl₁ : Later k (k.setSlot p fd.toNat none) := Later.of_eq hi rfl fun _ => rfl
    simp only [hk']
    exact fine_ok hi'' ((hl₁.trans hl').drops hi'')

theorem fileclose_ref (h2 : 2 ≤ (k.files f).ref) (h : fileclose f k = .ok k') : (k'.files f).ref = (k.files f).ref - 1 := by
  rw [fileclose, if_neg (by omega), if_pos (by omega)] at h
  cases h
  simp [Kernel.setFile]

/-- A file two descriptors name. -/
theorem two_le_ref {i j : Nat} (hi : Inv 0 k) (hij : i ≠ j) (h : (k.procs p).ofile i = some f) (h' : (k.procs p).ofile j = some f) :
    2 ≤ (k.files f).ref := by
  obtain ⟨hp, hfd, hf⟩ := hi.range p i f h
  have hi₁ := hi.setSlot hp hfd (v := none) fun g hg => by cases hg
  have hj : ((k.setSlot p i none).procs p).ofile j = some f := by simp [Kernel.setSlot, Ne.symm hij, h']
  have hpos := count_pos hi₁ hj
  have href : (k.files f).ref = _ := hi₁.ref f hf
  rw [h, one_none] at href
  simp only [Pi.sub_apply, Pi.add_apply, Pi.zero_apply, one_self] at href
  omega

/-- `dup3` keeps the counts where the descriptor it closes is not its own last. -/
theorem syscallDupAndSet_fine (hi : Inv 0 k) (hlive : (k.procs p).live = true) (fd fdnew : Int)
    (hmeets : ∀ f, k.argfd p fd = some f → fd = fdnew → 2 ≤ (k.files f).ref) :
    Fine k ((syscallDupAndSet p fd fdnew k).map (·.2)) := by
  unfold syscallDupAndSet
  cases harg : k.argfd p fd with
  | none => exact fine_refl hi
  | some f =>
    obtain ⟨h0, hn, hslot, hp, hfd, hf, h1⟩ := hi.of_argfd harg
    by_cases hnew : fdnew < 0 ∨ NOFILE ≤ fdnew
    · simp only [hnew, if_true]
      exact fine_refl hi
    · have hnew' : fdnew.toNat < NOFILE := by omega
      simp only [hnew, if_false]
      cases hold : (k.procs p).ofile fdnew.toNat with
      | none =>
        obtain ⟨k', hk', hi', hl'⟩ := hi.share hp hlive hf h1 hnew' hold
        simp only [bind, Except.bind, hk']
        exact fine_ok hi' (hl'.drops hi')
      | some f2 =>
        obtain ⟨-, -, hf2⟩ := hi.range p _ f2 hold
        have h12 : 1 ≤ (k.files f2).ref := by
          have := count_pos hi hold
          exact hi.one_le_ref hf2 (by simp; omega)
        obtain ⟨k₁, hk₁, hi₁, hl₁, hprocs, -, -, hother⟩ := hi.fileclose (f := f2) h12
        -- the file survives the close: another descriptor holds it, or it is not the file closed
        have hkept : 1 ≤ (k₁.files f).ref := by
          by_cases hff : f = f2
          · subst hff
            have h2 : 2 ≤ (k.files f).ref := by
              by_cases heq : fd = fdnew
              · exact hmeets f harg heq
              · exact two_le_ref hi (fun h => heq (by omega)) hslot hold
            rw [fileclose_ref h2 hk₁]
            omega
          · rw [hother f hff]
            exact h1
        have hi₂ : Inv _ (k₁.setSlot p fdnew.toNat (some f)) := hi₁.setSlot hp hnew' fun g hg => by
          cases hg
          exact ⟨hf, by rw [hprocs]; exact hlive⟩
        have hl₂ : Later k₁ (k₁.setSlot p fdnew.toNat (some f)) := Later.of_eq hi₁ rfl fun _ => rfl
        obtain ⟨k', hk', hi', hl', -⟩ := hi₂.filedup (f := f) hkept
        have hi'' : Inv 0 k' := hi'.cast (by
          rw [hprocs, hold, sub_add_cancel, sub_add_cancel])
        simp only [bind, Except.bind, hk₁, hk']
        exact fine_ok hi'' (((hl₁.trans hl₂).trans hl').drops hi'')

theorem fcntlDupfd_fine (hi : Inv 0 k) (hp : p < PROCESS_TOTAL_NUMBER) (hlive : (k.procs p).live = true) (fd : Int)
    (hmeets : ∃ i < NOFILE, (k.procs p).ofile i = none) : Fine k ((fcntlDupfd p fd k).map (·.2)) := by
  unfold fcntlDupfd
  cases harg : k.argfd p fd with
  | none => exact fine_refl hi
  | some f =>
    obtain ⟨-, -, -, -, -, hf, h1⟩ := hi.of_argfd harg
    rcases hi.fdalloc hp hlive hf with ⟨-, hfull⟩ | ⟨new, hnew, hnone, hfd, -⟩
    · obtain ⟨i, hin, hi0⟩ := hmeets
      exact (hfull i hin hi0).elim
    · obtain ⟨k', hk', hi', hl'⟩ := hi.share hp hlive hf h1 hnew hnone
      simp only [hfd, hk']
      exact fine_ok hi' (hl'.drops hi')

/-! ## New files -/

/-- Files that were open, and what is open behind any file, are as before. -/
structure Same (k k' : Kernel) : Prop where
  files : ∀ f, (k.files f).ref ≠ 0 → k'.files f = k.files f
  object : ∀ f, (k'.files f).object = (k.files f).object
  isOpen : ∀ o, k'.isOpen o = k.isOpen o

theorem Same.drops (hs : Same k k') (hi : Inv 0 k) (hi' : Inv 0 k') : Drops k k' :=
  drops_of_same hi hi' fun f _ h0 => by rw [hs.files f h0]

/-- A new file is closed again with nothing behind it. -/
theorem Inv.fileclose_new (hi : Inv e k) (hobj : (k.files f).object = none) (h1 : (k.files f).ref = 1) :
    ∃ k', Files.fileclose f k = .ok k' ∧ Inv (e - one (some f)) k' ∧ k'.procs = k.procs ∧
      (∀ g, g ≠ f → k'.files g = k.files g) ∧ (∀ g, (k'.files g).object = (k.files g).object) ∧
      ∀ o, k'.isOpen o = k.isOpen o := by
  obtain ⟨k', hk', hi', -, hprocs, -, -, hother⟩ := hi.fileclose_last h1
  have heq := Files.fileclose_last h1
  rw [hk', hobj] at heq
  cases heq
  refine ⟨_, hk', hi', hprocs, hother, fun g => ?_, fun o => rfl⟩
  by_cases hg : g = f
  · subst hg
    simp [Kernel.closeObject, Kernel.setFile, File.object] at hobj ⊢
    exact hobj.symm
  · rw [hother g hg]

/-- A file and a slot for it, or neither. -/
theorem Inv.allocPair (hi : Inv 0 k) (hp : p < PROCESS_TOTAL_NUMBER) (hlive : (k.procs p).live = true) :
    ∃ r k', allocPair p k = .ok (r, k') ∧ Inv 0 k' ∧ Same k k' ∧
      ∀ f fd, r = some (f, fd) → (k.files f).ref = 0 ∧ (k'.files f).ref = 1 := by
  unfold Files.allocPair
  cases halloc : Files.filealloc k with
  | none => exact ⟨none, k, rfl, hi, ⟨fun _ _ => rfl, fun _ => rfl, fun _ => rfl⟩, fun _ _ h => by cases h⟩
  | some r =>
    obtain ⟨f, k₁⟩ := r
    obtain ⟨hf, h0, rfl, hi₁⟩ := hi.filealloc halloc
    let k₁ := k.setFile f { k.files f with ref := 1 }
    have href : (k₁.files f).ref = 1 := by simp [k₁, Kernel.setFile]
    have hsame : Same k k₁ := by
      refine ⟨fun g hg => ?_, fun g => ?_, fun _ => rfl⟩
      · have hgf : g ≠ f := fun h => hg (h ▸ h0)
        simp [k₁, Kernel.setFile, hgf]
      · by_cases hgf : g = f
        · subst hgf
          simp [k₁, Kernel.setFile, File.object]
        · simp [k₁, Kernel.setFile, hgf]
    rcases hi₁.fdalloc hp hlive hf with ⟨hfd, -⟩ | ⟨new, hnew, hnone, hfd, hi₂⟩
    · obtain ⟨k', hk', hi', hprocs, hother, hobj, hopen⟩ := hi₁.fileclose_new (f := f) (by rw [hsame.object, hi.nothing f h0]) href
      refine ⟨none, k', ?_, hi'.cast (by rw [add_sub_cancel_right]), ⟨fun g hg => ?_, fun g => ?_, fun o => ?_⟩, fun _ _ h => by cases h⟩
      · simp only [hfd, hk']
        rfl
      · rw [hother g fun h => hg (h ▸ h0)]
        exact hsame.files g hg
      · rw [hobj]
        exact hsame.object g
      · rw [hopen]
        exact hsame.isOpen o
    · refine ⟨some (f, new), _, ?_, hi₂.cast (by rw [add_sub_cancel_right]), ⟨hsame.files, hsame.object, hsame.isOpen⟩, ?_⟩
      · simp only [hfd]
      · intro f' fd' h
        cases h
        exact ⟨h0, href⟩

/-- An opening call whose file is given what is open and behind no file, or nothing. -/
theorem openWith_fine (hi : Inv 0 k) (hp : p < PROCESS_TOTAL_NUMBER) (hlive : (k.procs p).live = true) {fail : Int}
    {fill : File → File} (href : ∀ file, (fill file).ref = file.ref)
    (hopen : ∀ file o, (fill file).object = some o → k.isOpen o = true ∧ ∀ g, (k.files g).object ≠ some o) :
    Fine k ((openWith p fail fill k).map (·.2)) := by
  obtain ⟨r, k', hk', hi', hsame, hnew⟩ := hi.allocPair hp hlive
  unfold openWith
  rw [hk']
  cases r with
  | none => exact fine_ok hi' (hsame.drops hi hi')
  | some x =>
    obtain ⟨f, fd⟩ := x
    obtain ⟨h0, h1⟩ := hnew f fd rfl
    have hi'' : Inv 0 (k'.setFile f (fill (k'.files f))) := by
      refine hi'.fill (href _) (by omega) fun o ho => ⟨?_, fun g => ?_⟩
      · rw [hsame.isOpen]
        exact (hopen _ o ho).1
      · rw [hsame.object]
        exact (hopen _ o ho).2 g
    refine fine_ok hi'' (drops_of_same hi hi'' fun g _ hg => ?_)
    have hgf : g ≠ f := fun h => hg (h ▸ h0)
    have hkeep : (k'.setFile f (fill (k'.files f))).files g = k'.files g := by simp [Kernel.setFile, hgf]
    rw [hkeep, hsame.files g hg]

theorem openEntry_fine (hi : Inv 0 k) (hp : p < PROCESS_TOTAL_NUMBER) (hlive : (k.procs p).live = true) (found : Option Int)
    (flags : Nat) : Fine k ((openEntry p found flags k).map (·.2)) := by
  unfold openEntry
  cases found with
  | some r => exact fine_refl hi
  | none => exact openWith_fine hi hp hlive (fun _ => rfl) fun _ _ h => by cases h

theorem interpfileOpenAt_fine (hi : Inv 0 k) (hp : p < PROCESS_TOTAL_NUMBER) (hlive : (k.procs p).live = true) :
    Fine k ((interpfileOpenAt p k).map (·.2)) :=
  openWith_fine hi hp hlive (fun _ => rfl) fun _ _ h => by cases h

theorem syscallDevice_fine (hi : Inv 0 k) (hp : p < PROCESS_TOTAL_NUMBER) (hlive : (k.procs p).live = true) (major : Int)
    (omode : Nat) : Fine k ((syscallDevice p major omode k).map (·.2)) := by
  unfold syscallDevice
  split
  · exact fine_error ⟨by simp, by simp⟩
  · split
    · exact fine_refl hi
    · exact openWith_fine hi hp hlive (fun _ => rfl) fun _ _ h => by cases h

/-- A change of what is behind the files: what they hold stays open. -/
theorem Inv.objects (hi : Inv e k) (hfiles : k'.files = k.files) (hprocs : k'.procs = k.procs) (himages : k'.images = k.images)
    (hopen : ∀ f o, (k.files f).object = some o → k'.isOpen o = true)
    (hfree : ∀ pi, Bitmap.get k'.world.pipeBitMap pi = false →
      (k'.world.pipes pi).readopen = false ∧ (k'.world.pipes pi).writeopen = false) : Inv e k' := by
  refine ⟨fun f hf => ?_, ?_, ?_, ?_, ?_, fun f o ho => ?_, ?_, hfree⟩
  · rw [hfiles, count_eq_of_slots (fun x => by rw [Kernel.slot, hprocs]; rfl) himages]
    exact hi.ref f hf
  · rw [hprocs]
    exact hi.range
  · rw [hprocs]
    exact hi.dead
  · rw [hprocs]
    exact hi.hard
  · rw [hfiles]
    exact hi.nothing
  · rw [hfiles] at ho
    exact hopen f o ho
  · rw [hfiles]
    exact hi.unique

/-- A call goes on from a state with the same files and descriptors. -/
theorem Fine.of_eq (k₁ : Kernel) {r : Except Halt Kernel} (h : Fine k₁ r) (hfiles : k₁.files = k.files)
    (hprocs : k₁.procs = k.procs) (himages : k₁.images = k.images) : Fine k r := by
  refine ⟨h.1, fun k' hk' => ⟨(h.2 k' hk').1, fun f hf o ho hpos h0 => ?_⟩⟩
  have hcount : k₁.count f = k.count f := count_eq_of_slots (fun x => by rw [Kernel.slot, hprocs]; rfl) himages f
  exact (h.2 k' hk').2 f hf o (by rw [hfiles]; exact ho) (by rw [hcount]; exact hpos) h0

/-- An object that is closed is behind no file. -/
theorem Inv.not_object (hi : Inv e k) {o : Object} (h : k.isOpen o = false) (g : Nat) : (k.files g).object ≠ some o := by
  intro ho
  rw [hi.isOpen g o ho] at h
  cases h

/-- Whatever `openat` does with the name of a temporary file. -/
theorem tmpfileOpenAt_fine (hi : Inv 0 k) (hp : p < PROCESS_TOTAL_NUMBER) (hlive : (k.procs p).live = true) (name : List UInt8)
    (flags : Nat) (hmeets : flags &&& O_CREATE = 0 → ∀ t, tmpfileName name k = some t → ∀ g, (k.files g).object ≠ some (.tmpfile t)) :
    Fine k ((tmpfileOpenAt p name flags k).map (·.2)) := by
  have hobj : ∀ {t : Nat} {file : File} {o : Object},
      File.object { file.modes flags with type := .tmpfile, tmpfile := t } = some o → o = .tmpfile t := fun h => by
    cases h
    rfl
  unfold tmpfileOpenAt
  split
  · unfold tmpfileAlloc
    cases hfind : (List.range TMPFILE_COUNT).find? fun t => (k.tmpfiles t).used = false with
    | none => exact fine_error ⟨by simp, by simp⟩
    | some t =>
      have hunused : (k.tmpfiles t).used = false := by simpa using List.find?_some hfind
      let k₁ : Kernel := { k with tmpfiles := Function.update k.tmpfiles t { used := true, filename := name } }
      have hi₁ : Inv 0 k₁ := by
        refine hi.objects rfl rfl rfl (fun f o ho => ?_) hi.free
        have hold := hi.isOpen f o ho
        cases o with
        | tmpfile t' =>
          have hne : t' ≠ t := fun h => hi.not_object (o := .tmpfile t) hunused f (h ▸ ho)
          simpa [k₁, Kernel.isOpen, hne] using hold
        | pipeEnd pi w => cases w <;> exact hold
        | socket s => exact hold
      simp only [bind, Except.bind]
      refine Fine.of_eq k₁ (openWith_fine hi₁ hp hlive (fun _ => rfl) fun file o ho => ?_) rfl rfl rfl
      rw [hobj ho]
      exact ⟨by simp [k₁, Kernel.isOpen], fun g => hi.not_object (o := .tmpfile t) hunused g⟩
  · next hflags =>
    cases hname : tmpfileName name k with
    | none => exact fine_refl hi
    | some t =>
      have hused : (k.tmpfiles t).used = true := by
        have := List.find?_some hname
        simp only [Bool.decide_and, Bool.decide_eq_true, Bool.and_eq_true] at this
        exact this.1
      refine openWith_fine hi hp hlive (fun _ => rfl) fun file o ho => ?_
      rw [hobj ho]
      exact ⟨hused, hmeets (by simpa using hflags) t hname⟩

end Calls

end Exaros.Files
