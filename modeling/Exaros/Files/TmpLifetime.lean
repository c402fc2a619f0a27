import Exaros.Files.Tmpfile

/-!
# Every slot is given back once

One lemma for each call, and the run. A close keeps `Sound` exactly where it leaves no other file on the slot it gives back.
-/

namespace Exaros.Tmpfiles

open Loop Files
open Function (update update_self update_of_ne)

/-- A file nobody has open is of no type. -/
def Closed (k : Kernel) : Prop := ∀ f, (k.files f).ref < 1 → (k.files f).type ≠ .tmpfile

/-- No file is opened on a slot, and no slot changes. -/
def Calm (k k' : Kernel) : Prop :=
  Closed k → Closed k' ∧ k'.tmpfiles = k.tmpfiles ∧ ∀ f t, Held k' f t → Held k f t

structure Inv (img : Image) (s : Store) : Prop where
  mem : MemInv img s.m s.dirs
  closed : Closed s.k
  sound : Sound img s

/-! ## The table of open files -/

section Table

variable {k k₁ k' : Kernel} {p f fd : Nat} {v : Option Nat}

theorem Calm.of_files (hfiles : k'.files = k.files) (htmp : k'.tmpfiles = k.tmpfiles) : Calm k k' := fun hclosed => by
  refine ⟨?_, htmp, fun f t hheld => ?_⟩
  · unfold Closed
    rw [hfiles]
    exact hclosed
  · unfold Held at hheld ⊢
    rw [← hfiles]
    exact hheld

theorem Calm.refl (k : Kernel) : Calm k k := Calm.of_files rfl rfl

theorem Calm.trans (h : Calm k k₁) (h' : Calm k₁ k') : Calm k k' := fun hclosed => by
  obtain ⟨hclosed₁, htmp₁, hheld₁⟩ := h hclosed
  obtain ⟨hclosed', htmp', hheld'⟩ := h' hclosed₁
  exact ⟨hclosed', htmp'.trans htmp₁, fun f t hheld => hheld₁ f t (hheld' f t hheld)⟩

/-- One file changes, and is not of type `FD_TMPFILE` or stays what it is and open. -/
theorem calm_setFile {file : File} (hfile : Closed k → file.type = .tmpfile →
    1 ≤ file.ref ∧ 1 ≤ (k.files f).ref ∧ (k.files f).type = .tmpfile ∧ (k.files f).tmpfile = file.tmpfile) :
    Calm k (k.setFile f file) := fun hclosed => by
  have hself : (k.setFile f file).files f = file := update_self ..
  have hother : ∀ g, g ≠ f → (k.setFile f file).files g = k.files g := fun g hne => update_of_ne hne ..
  refine ⟨fun g href htype => ?_, rfl, fun g t hheld => ?_⟩
  · by_cases hgf : g = f
    · subst hgf
      rw [hself] at href htype
      have := (hfile hclosed htype).1
      omega
    · rw [hother g hgf] at href htype
      exact hclosed g href htype
  · by_cases hgf : g = f
    · subst hgf
      unfold Held at hheld ⊢
      rw [hself] at hheld
      obtain ⟨-, href, htype, hslot⟩ := hfile hclosed hheld.2.1
      exact ⟨by omega, htype, hslot.trans hheld.2.2⟩
    · unfold Held at hheld ⊢
      rw [hother g hgf] at hheld
      exact hheld

theorem calm_filedup (h : filedup f k = .ok k') : Calm k k' := by
  unfold filedup at h
  split at h
  · cases h
  · cases h
    refine calm_setFile fun _ htype => ⟨?_, ?_, htype, rfl⟩
    · show 1 ≤ (k.files f).ref + 1
      omega
    · omega

/-- `filealloc` finds a file nobody has open. -/
theorem filealloc_calm (h : filealloc k = some (f, k')) : (k.files f).ref = 0 ∧ (k'.files f).ref = 1 ∧ Calm k k' := by
  unfold filealloc at h
  split at h
  · cases h
  · rename_i g hfind
    cases h
    have hzero : (k.files f).ref = 0 := by simpa using List.find?_some hfind
    refine ⟨hzero, by simp [Kernel.setFile], calm_setFile fun hclosed htype => ?_⟩
    exact absurd htype (hclosed f (by omega))

theorem calm_setSlot (k : Kernel) (p fd : Nat) (v : Option Nat) : Calm k (k.setSlot p fd v) := Calm.of_files rfl rfl

theorem fdalloc_files {r : Option Nat} (h : fdalloc p f k = (r, k')) : k'.files = k.files ∧ k'.tmpfiles = k.tmpfiles := by
  unfold fdalloc at h
  split at h
  · cases h
    exact ⟨rfl, rfl⟩
  · cases h
    exact ⟨rfl, rfl⟩

theorem fdalloc_calm {r : Option Nat} (h : fdalloc p f k = (r, k')) : Calm k k' :=
  Calm.of_files (fdalloc_files h).1 (fdalloc_files h).2

theorem syscallDup_calm {fd r : Int} (h : syscallDup p fd k = .ok (r, k')) : Calm k k' := by
  unfold syscallDup at h
  split at h
  · cases h
    exact Calm.refl k
  · split at h
    · rename_i hfd
      cases h
      exact fdalloc_calm hfd
    · rename_i hfd
      obtain ⟨k₁, hdup, hk⟩ := map_ok h
      cases hk
      exact (fdalloc_calm hfd).trans (calm_filedup hdup)

theorem fcntlDupfd_calm {fd r : Int} (h : fcntlDupfd p fd k = .ok (r, k')) : Calm k k' := by
  unfold fcntlDupfd at h
  split at h
  · cases h
    exact Calm.refl k
  · rename_i f _
    obtain ⟨k₁, hdup, hk⟩ := map_ok h
    cases hk
    exact (fdalloc_calm (p := p) (f := f) (k := k) rfl).trans (calm_filedup hdup)

theorem processFork_calm {c th : Nat} {pgdir : Ppn} (h : processFork p c th pgdir k = .ok k') : Calm k k' := by
  obtain ⟨k₁, hloop, hk⟩ := map_ok h
  cases hk
  have hslots : Calm k k₁ := by
    refine foldlM_inv (Q := Calm k) hloop (Calm.of_files rfl rfl) fun k₁ i k₂ hcalm hslot => ?_
    unfold forkSlot at hslot
    split at hslot
    · cases hslot
      exact hcalm
    · obtain ⟨k₃, hdup, hk⟩ := map_ok hslot
      cases hk
      exact (hcalm.trans (calm_filedup hdup)).trans (calm_setSlot _ _ _ _)
  exact hslots.trans (Calm.of_files rfl rfl)

/-- What `fileclose` does to the table and to the slots. -/
theorem fileclose_cases (h : Files.fileclose f k = .ok k') :
    (1 < (k.files f).ref ∧ k' = k.setFile f { k.files f with ref := (k.files f).ref - 1 }) ∨
      ((k.files f).ref = 1 ∧ k'.files = (k.setFile f { k.files f with ref := 0, type := .none }).files ∧
        k'.tmpfiles = if (k.files f).type = .tmpfile
          then update k.tmpfiles (k.files f).tmpfile { k.tmpfiles (k.files f).tmpfile with used := false }
          else k.tmpfiles) := by
  unfold Files.fileclose at h
  dsimp only at h
  split at h
  · cases h
  · split at h
    · cases h
      exact .inl ⟨by omega, rfl⟩
    · refine .inr ⟨by omega, ?_⟩
      split at h
      · rename_i htype
        cases h
        rw [htype]
        exact ⟨rfl, rfl⟩
      · rename_i htype
        cases h
        rw [htype]
        exact ⟨rfl, rfl⟩
      · rename_i htype
        cases h
        rw [htype]
        exact ⟨rfl, rfl⟩
      · rename_i hne
        cases h
        rw [if_neg hne]
        exact ⟨rfl, rfl⟩

end Table

/-! ## The calls -/

section Calls

variable {img : Image} {s s' : Store} {k' : Kernel} {p f t : Nat}

theorem Inv.kernelDir (hi : Inv img s) : img.kernelPageDirectory ∈ s.dirs := hi.mem.kernelDir

theorem Inv.calm (hi : Inv img s) (hcalm : Calm s.k k') : Inv img { s with k := k' } := by
  obtain ⟨hclosed, htmp, hheld⟩ := hcalm hi.closed
  refine ⟨hi.mem, hclosed, fun f t h => ?_, ?_, ?_, ?_⟩
  · show t < TMPFILE_COUNT ∧ (k'.tmpfiles t).used = true ∧ _
    rw [htmp]
    exact hi.sound.file f t (hheld f t h)
  · show ∀ t < TMPFILE_COUNT, (k'.tmpfiles t).used = true → _
    rw [htmp]
    exact hi.sound.mapped
  · show ∀ t < TMPFILE_COUNT, s.released t + (if (k'.tmpfiles t).used then 1 else 0) = s.allocated t
    rw [htmp]
    exact hi.sound.released
  · show ∀ t < TMPFILE_COUNT, (k'.tmpfiles t).used = false → _
    rw [htmp]
    exact hi.sound.unmapped

/-- Memory changes, and the kernel's entries for the buffers do not. -/
theorem Inv.aside (hi : Inv img s) {m' : Mem} {content : Nat → Buffers.Tmpfile} {d : Ppn} (hd : d ≠ img.kernelPageDirectory)
    (haside : Aside img s.dirs d s.m m') : Inv img { s with content, m := m' } := by
  have hentry : ∀ t j, entry img m' t j = entry img s.m t j := fun t j => haside.view _ hi.kernelDir hd.symm _
  refine ⟨haside.inv, hi.closed, fun f t h => ?_, fun t ht hused j hj => ?_, hi.sound.released, fun t ht hused j hj => ?_⟩
  · obtain ⟨ht, hused, hopened, hbuffer⟩ := hi.sound.file f t h
    exact ⟨ht, hused, hopened, fun j hj => (hentry t j).trans (hbuffer j hj)⟩
  · show (entry img m' t j).isSome = true
    rw [hentry]
    exact hi.sound.mapped t ht hused j hj
  · exact (hentry t j).trans (hi.sound.unmapped t ht hused j hj)

theorem Inv.fileread (hi : Inv img s) {src : Buffers.Source} {pgdir : Ppn} {addr n : Nat} {r : Int} (hd : pgdir ∈ s.dirs)
    (hne : pgdir ≠ img.kernelPageDirectory) (hok : fileread src pgdir f addr n s = .ok (r, s')) : Inv img s' := by
  unfold Tmpfiles.fileread at hok
  dsimp only at hok
  split at hok
  · cases hok
    exact hi
  · obtain ⟨x, hread, hs⟩ := map_ok hok
    cases hs
    exact hi.aside hne (readInto_aside hi.mem hd (mapError_ok hread))

theorem Inv.filewrite (hi : Inv img s) {src : Buffers.Source} {pgdir : Ppn} {addr n : Nat} {r : Int} (hd : pgdir ∈ s.dirs)
    (hne : pgdir ≠ img.kernelPageDirectory) (hok : filewrite src pgdir f addr n s = .ok (r, s')) : Inv img s' := by
  unfold Tmpfiles.filewrite at hok
  dsimp only at hok
  split at hok
  · cases hok
    exact hi
  · obtain ⟨x, hwrite, hs⟩ := map_ok hok
    cases hs
    obtain ⟨x', hfrom, hx⟩ := bind_ok (mapError_ok hwrite)
    cases hx
    exact hi.aside hne (writeFrom_aside hi.mem hd hfrom)

/-- The file that is closed last loses its type, the others stay open. -/
theorem held_of_closed {k : Kernel} {file : File} (hfiles : k'.files = (k.setFile f { file with ref := 0, type := .none }).files) {g u : Nat}
    (h : Held k' g u) : g ≠ f ∧ Held k g u := by
  unfold Held at h
  rw [hfiles] at h
  by_cases hgf : g = f
  · subst hgf
    have hself : (k.setFile g { file with ref := 0, type := .none }).files g = { file with ref := 0, type := .none } :=
      update_self ..
    rw [hself] at h
    cases h.2.1
  · have hother : (k.setFile f { file with ref := 0, type := .none }).files g = k.files g := update_of_ne hgf ..
    rw [hother] at h
    exact ⟨hgf, h⟩

theorem closed_of_closed {k : Kernel} {file : File} (hfiles : k'.files = (k.setFile f { file with ref := 0, type := .none }).files)
    (hclosed : Closed k) : Closed k' := fun g href => by
  rw [hfiles] at href ⊢
  by_cases hgf : g = f
  · subst hgf
    have hself : (k.setFile g { file with ref := 0, type := .none }).files g = { file with ref := 0, type := .none } :=
      update_self ..
    rw [hself]
    exact fun htype => by cases htype
  · have hother : (k.setFile f { file with ref := 0, type := .none }).files g = k.files g := update_of_ne hgf ..
    rw [hother] at href ⊢
    exact hclosed g href

/-- **A close** that leaves no other file on the slot it gives back. -/
theorem Inv.fileclose (hi : Inv img s) (halone : LastAlone f s.k) (hok : fileclose img f s = .ok s') : Inv img s' := by
  obtain ⟨k', hclose, hok⟩ := bind_ok hok
  have hclose := mapError_ok hclose
  rcases fileclose_cases hclose with ⟨hmore, rfl⟩ | ⟨hone, hfiles, htmp⟩
  · rw [if_neg fun hlast => by omega] at hok
    cases hok
    refine hi.calm (calm_setFile fun _ htype => ⟨?_, by omega, htype, rfl⟩)
    show 1 ≤ (s.k.files f).ref - 1
    omega
  · by_cases htype : (s.k.files f).type = .tmpfile
    · rw [if_pos ⟨htype, by omega⟩] at hok
      rw [if_pos htype] at htmp
      obtain ⟨m', hunmap, hok⟩ := bind_ok hok
      cases hok
      have hheld : Held s.k f (s.k.files f).tmpfile := ⟨by omega, htype, rfl⟩
      obtain ⟨ht, hused, -, -⟩ := hi.sound.file f _ hheld
      generalize (s.k.files f).tmpfile = t at htmp hunmap hheld ht hused ⊢
      obtain ⟨m₁, hrun, hth⟩ := unmapBuffer_ok hi.mem ht
      obtain rfl : m₁ = m' := Except.ok.inj (hrun.symm.trans hunmap)
      have hentry : ∀ u < TMPFILE_COUNT, u ≠ t → ∀ j < 16, entry img m₁ u j = entry img s.m u j := fun u hu hne j hj =>
        hth.entry_ne hi.kernelDir ht hu hne hj
      have hslot : ∀ u, u ≠ t → k'.tmpfiles u = s.k.tmpfiles u := fun u hne => by
        rw [htmp, update_of_ne hne]
      have hself : (k'.tmpfiles t).used = false := by rw [htmp, update_self]
      refine ⟨hth.inv, closed_of_closed hfiles hi.closed, fun g u h => ?_, fun u hu hused' j hj => ?_, fun u hu => ?_,
        fun u hu hfree j hj => ?_⟩
      · obtain ⟨hgf, hold⟩ := held_of_closed hfiles h
        have hne : u ≠ t := fun hut => halone t hheld hone g hgf (hut ▸ hold)
        obtain ⟨hu, hused', hopened, hbuffer⟩ := hi.sound.file g u hold
        refine ⟨hu, ?_, hopened, fun j hj => (hentry u hu hne j hj).trans (hbuffer j hj)⟩
        rw [hslot u hne]
        exact hused'
      · have hused' : (k'.tmpfiles u).used = true := hused'
        have hne : u ≠ t := fun hut => by
          rw [hut, hself] at hused'
          cases hused'
        rw [hslot u hne] at hused'
        rw [hentry u hu hne j hj]
        exact hi.sound.mapped u hu hused' j hj
      · show update s.released t (s.released t + 1) u + (if (k'.tmpfiles u).used then 1 else 0) = s.allocated u
        have hold := hi.sound.released u hu
        by_cases hut : u = t
        · subst hut
          rw [hused] at hold
          rw [update_self, hself]
          exact hold
        · rw [update_of_ne hut, hslot u hut]
          exact hold
      · have hfree : (k'.tmpfiles u).used = false := hfree
        by_cases hut : u = t
        · rw [hut]
          exact hth.on j hj
        · rw [hslot u hut] at hfree
          exact (hentry u hu hut j hj).trans (hi.sound.unmapped u hu hfree j hj)
    · rw [if_neg fun hlast => htype hlast.1] at hok
      rw [if_neg htype] at htmp
      cases hok
      exact hi.calm fun hclosed => ⟨closed_of_closed hfiles hclosed, htmp, fun g u h => (held_of_closed hfiles h).2⟩

/-- `tmpfileAlloc` gives out a slot that is not in use. -/
theorem Inv.tmpfileAlloc (hi : Inv img s) {path : List UInt8} (hok : tmpfileAlloc img path s = .ok (t, s')) :
    Inv img s' ∧ t < TMPFILE_COUNT ∧ (s'.k.tmpfiles t).used = true ∧ s'.k.files = s.k.files := by
  obtain ⟨⟨t', k'⟩, halloc, hok⟩ := bind_ok hok
  obtain ⟨m', hmap, hok⟩ := bind_ok hok
  cases hok
  have halloc := mapError_ok halloc
  unfold Files.tmpfileAlloc at halloc
  split at halloc
  · cases halloc
  · rename_i u hfind
    cases halloc
    have ht : t < TMPFILE_COUNT := List.mem_range.mp (List.mem_of_find?_eq_some hfind)
    have hfree : (s.k.tmpfiles t).used = false := by simpa using List.find?_some hfind
    have hth := mapBuffer_ok hi.mem ht (hi.sound.unmapped t ht hfree) hmap
    have hentry : ∀ u < TMPFILE_COUNT, u ≠ t → ∀ j < 16, entry img m' u j = entry img s.m u j := fun u hu hne j hj =>
      hth.entry_ne hi.kernelDir ht hu hne hj
    refine ⟨⟨hth.inv, hi.closed, fun g u h => ?_, fun u hu hused j hj => ?_, fun u hu => ?_, fun u hu hfree' j hj => ?_⟩, ht, ?_, rfl⟩
    · obtain ⟨hu, hused, hopened, hbuffer⟩ := hi.sound.file g u h
      have hne : u ≠ t := fun hut => by
        rw [hut, hfree] at hused
        cases hused
      refine ⟨hu, ?_, ?_, fun j hj => (hentry u hu hne j hj).trans (hbuffer j hj)⟩
      · show (update s.k.tmpfiles t _ u).used = true
        rw [update_of_ne hne]
        exact hused
      · show update s.allocated t _ u = s.opened g
        rw [update_of_ne hne]
        exact hopened
    · show (entry img m' u j).isSome = true
      by_cases hut : u = t
      · rw [hut]
        exact hth.on j hj
      · have hused : (update s.k.tmpfiles t _ u).used = true := hused
        rw [update_of_ne hut] at hused
        rw [hentry u hu hut j hj]
        exact hi.sound.mapped u hu hused j hj
    · show s.released u + (if (update s.k.tmpfiles t _ u).used then 1 else 0) = update s.allocated t _ u
      have hold := hi.sound.released u hu
      by_cases hut : u = t
      · subst hut
        rw [hfree] at hold
        rw [update_self, update_self, ← hold]
        rfl
      · rw [update_of_ne hut, update_of_ne hut]
        exact hold
    · have hfree' : (update s.k.tmpfiles t _ u).used = false := hfree'
      by_cases hut : u = t
      · rw [hut, update_self] at hfree'
        cases hfree'
      · rw [update_of_ne hut] at hfree'
        exact (hentry u hu hut j hj).trans (hi.sound.unmapped u hu hfree' j hj)
    · show (update s.k.tmpfiles t _ t).used = true
      rw [update_self]

/-- A file is opened on a slot in use. -/
theorem Inv.openSlot (hi : Inv img s) (ht : t < TMPFILE_COUNT) (hused : (s.k.tmpfiles t).used = true) {flags : Nat} {r : Int}
    (hok : openSlot img p t flags s = .ok (r, s')) : Inv img s' := by
  unfold Tmpfiles.openSlot at hok
  split at hok
  · cases hok
    exact hi
  · rename_i f k₁ halloc
    obtain ⟨hzero, hone, hcalm⟩ := filealloc_calm halloc
    have hnot : ∀ u, ¬ Held s.k f u := fun u h => by
      have := h.1
      omega
    split at hok
    · rename_i k₂ hfd
      have hcalm₂ := hcalm.trans (fdalloc_calm hfd)
      obtain ⟨s₁, hclose, hs⟩ := map_ok hok
      cases hs
      exact (hi.calm hcalm₂).fileclose (fun u h => absurd ((hcalm₂ hi.closed).2.2 f u h) (hnot u)) hclose
    · rename_i fd k₂ hfd
      cases hok
      have hi₂ := hi.calm (hcalm.trans (fdalloc_calm hfd))
      have htmp : k₂.tmpfiles = s.k.tmpfiles := ((hcalm.trans (fdalloc_calm hfd)) hi.closed).2.1
      have href : (k₂.files f).ref = 1 := by
        rw [(fdalloc_files hfd).1]
        exact hone
      generalize hfile : { (k₂.files f).modes flags with type := FdType.tmpfile, tmpfile := t } = file
      have hself : (k₂.setFile f file).files f = file := update_self ..
      have hother : ∀ g, g ≠ f → (k₂.setFile f file).files g = k₂.files g := fun g hne => update_of_ne hne ..
      refine ⟨hi.mem, fun g hg => ?_, fun g u h => ?_, hi₂.sound.mapped, hi₂.sound.released, hi₂.sound.unmapped⟩
      · by_cases hgf : g = f
        · subst hgf
          rw [hself, ← hfile] at hg
          have hg : (k₂.files g).ref < 1 := hg
          omega
        · have hg : ((k₂.setFile f file).files g).ref < 1 := hg
          rw [hother g hgf] at hg ⊢
          exact hi₂.closed g hg
      · have h : Held (k₂.setFile f file) g u := h
        unfold Held at h
        by_cases hgf : g = f
        · subst hgf
          rw [hself, ← hfile] at h
          obtain rfl : t = u := h.2.2
          refine ⟨ht, ?_, ?_, fun j _ => ?_⟩
          · show (k₂.tmpfiles t).used = true
            rw [htmp]
            exact hused
          · show s.allocated t = update s.opened g (s.allocated t) g
            rw [update_self]
          · show entry img s.m t j = update s.buffer g (entry img s.m t) g j
            rw [update_self]
        · rw [hother g hgf] at h
          obtain ⟨hu, hused', hopened, hbuffer⟩ := hi₂.sound.file g u h
          refine ⟨hu, hused', ?_, fun j hj => ?_⟩
          · show s.allocated u = update s.opened f _ g
            rw [update_of_ne hgf]
            exact hopened
          · show entry img s.m u j = update s.buffer f _ g j
            rw [update_of_ne hgf]
            exact hbuffer j hj

theorem Inv.tmpfileOpenAt (hi : Inv img s) {path : List UInt8} {flags : Nat} {r : Int}
    (hok : tmpfileOpenAt img p path flags s = .ok (r, s')) : Inv img s' := by
  unfold Tmpfiles.tmpfileOpenAt at hok
  split at hok
  · obtain ⟨⟨t, s₁⟩, halloc, hopen⟩ := bind_ok hok
    obtain ⟨hi₁, ht, hused, -⟩ := hi.tmpfileAlloc halloc
    exact hi₁.openSlot ht hused hopen
  · split at hok
    · cases hok
      exact hi
    · rename_i t hname
      have ht : t < TMPFILE_COUNT := List.mem_range.mp (List.mem_of_find?_eq_some hname)
      have hfound : (s.k.tmpfiles t).used = true ∧ (s.k.tmpfiles t).filename = tmpName path := by
        simpa using List.find?_some hname
      exact hi.openSlot ht hfound.1 hok

theorem Inv.syscallClose (hi : Inv img s) {fd r : Int} (halone : ∀ f, s.k.argfd p fd = some f → LastAlone f s.k)
    (hok : syscallClose img p fd s = .ok (r, s')) : Inv img s' := by
  unfold Tmpfiles.syscallClose at hok
  split at hok
  · cases hok
    exact hi
  · rename_i f hfd
    obtain ⟨s₁, hclose, hs⟩ := map_ok hok
    cases hs
    exact (hi.calm (calm_setSlot s.k p fd.toNat none)).fileclose (halone f hfd) hclose

/-- `dup3` onto a descriptor that is not the last of another file. -/
theorem Inv.syscallDupAndSet (hi : Inv img s) {fd fdnew r : Int}
    (halone : s.k.argfd p fd ≠ none → 0 ≤ fdnew → fdnew < NOFILE →
      ∀ f, (s.k.procs p).ofile fdnew.toNat = some f → LastAlone f s.k)
    (hok : syscallDupAndSet img p fd fdnew s = .ok (r, s')) : Inv img s' := by
  unfold Tmpfiles.syscallDupAndSet at hok
  split at hok
  · cases hok
    exact hi
  · rename_i f hfd
    split at hok
    · cases hok
      exact hi
    · rename_i hrange
      obtain ⟨s₁, hold, hok⟩ := bind_ok hok
      obtain ⟨k', hdup, hok⟩ := bind_ok hok
      cases hok
      have hi₁ : Inv img s₁ := by
        cases hslot : (s.k.procs p).ofile fdnew.toNat with
        | none =>
          rw [hslot] at hold
          cases hold
          exact hi
        | some f2 =>
          rw [hslot] at hold
          have hsome : s.k.argfd p fd ≠ none := by
            rw [hfd]
            exact Option.some_ne_none f
          exact hi.fileclose (halone hsome (by omega) (by omega) f2 hslot) hold
      exact hi₁.calm ((calm_setSlot _ _ _ _).trans (calm_filedup (mapError_ok hdup)))

theorem Inv.freeSlot (hi : Inv img s) {fd : Nat} (halone : ∀ f, (s.k.procs p).ofile fd = some f → LastAlone f s.k)
    (hok : Tmpfiles.freeSlot img p s fd = .ok s') : Inv img s' := by
  unfold Tmpfiles.freeSlot at hok
  split at hok
  · cases hok
    exact hi
  · rename_i f hslot
    obtain ⟨s₁, hclose, hs⟩ := map_ok hok
    cases hs
    exact (hi.fileclose (halone f hslot) hclose).calm (calm_setSlot _ _ _ _)

theorem Inv.processFree (hi : Inv img s) (hmeets : FreeMeets img p s) (hok : processFree img p s = .ok s') : Inv img s' := by
  obtain ⟨s₁, hloop, hs⟩ := map_ok hok
  cases hs
  have hslots : ∀ n ≤ NOFILE, ∀ s₁, (List.range n).foldlM (Tmpfiles.freeSlot img p) s = .ok s₁ → Inv img s₁ := fun n => by
    induction n with
    | zero =>
      intro _ s₁ hok
      cases hok
      exact hi
    | succ n ih =>
      intro hn s₂ hok
      obtain ⟨s₁, hfirst, hlast⟩ := foldlM_range_succ hok
      exact (ih (by omega) s₁ hfirst).freeSlot (hmeets n (by omega) s₁ hfirst) hlast
  exact (hslots NOFILE le_rfl s₁ hloop).calm (Calm.of_files rfl rfl)

theorem Inv.onTable (hi : Inv img s) {x : Except Files.Halt Kernel} (hcalm : ∀ k', x = .ok k' → Calm s.k k')
    (hok : onTable x s = .ok s') : Inv img s' := by
  obtain ⟨k', hx, hs⟩ := map_ok hok
  cases hs
  exact hi.calm (hcalm k' (mapError_ok hx))

/-- **Every call** from a state that meets its condition. -/
theorem Inv.exec (hi : Inv img s) {op : Op} (henabled : op.Enabled img s) (hmeets : op.Meets img s)
    (hok : exec img op s = .ok s') : Inv img s' := by
  cases op with
  | create p th pgdir =>
    cases hok
    exact hi.calm (Calm.of_files rfl rfl)
  | openAt p path flags =>
    obtain ⟨⟨r, s₁⟩, hcall, rfl⟩ := map_ok hok
    exact hi.tmpfileOpenAt hcall
  | read src p f addr n =>
    obtain ⟨⟨r, s₁⟩, hcall, rfl⟩ := map_ok hok
    exact hi.fileread henabled.2.1 henabled.2.2 hcall
  | write src p f addr n =>
    obtain ⟨⟨r, s₁⟩, hcall, rfl⟩ := map_ok hok
    exact hi.filewrite henabled.2.1 henabled.2.2 hcall
  | dup p fd =>
    refine hi.onTable (fun k' hk => ?_) hok
    obtain ⟨⟨r, k₁⟩, hdup, rfl⟩ := map_ok hk
    exact syscallDup_calm hdup
  | dup3 p fd fdnew =>
    obtain ⟨⟨r, s₁⟩, hcall, rfl⟩ := map_ok hok
    exact hi.syscallDupAndSet hmeets hcall
  | fcntl p fd =>
    refine hi.onTable (fun k' hk => ?_) hok
    obtain ⟨⟨r, k₁⟩, hdup, rfl⟩ := map_ok hk
    exact fcntlDupfd_calm hdup
  | close p fd =>
    obtain ⟨⟨r, s₁⟩, hcall, rfl⟩ := map_ok hok
    exact hi.syscallClose hmeets hcall
  | fork p c th pgdir => exact hi.onTable (fun k' hk => processFork_calm hk) hok
  | exit p => exact hi.processFree hmeets hok

theorem Inv.rest (hi : Inv img s) (h : Rest img s s') : Inv img s' := by
  have hback : ∀ f t, Held s'.k f t → Held s.k f t := fun f t hheld => by
    have hsame := h.files f (.inr hheld.2.1)
    unfold Held at hheld ⊢
    rw [← hsame]
    exact hheld
  refine ⟨h.inv, fun f href htype => ?_, fun f t hheld => ?_, fun t ht hused j hj => ?_, fun t ht => ?_, fun t ht hfree j hj => ?_⟩
  · have hsame := h.files f (.inr htype)
    rw [hsame] at href htype
    exact hi.closed f href htype
  · obtain ⟨ht, hused, hopened, hbuffer⟩ := hi.sound.file f t (hback f t hheld)
    rw [h.tmpfiles, h.allocated, h.opened, h.buffer]
    exact ⟨ht, hused, hopened, fun j hj => (h.entry t ht j hj).trans (hbuffer j hj)⟩
  · rw [h.tmpfiles] at hused
    rw [h.entry t ht j hj]
    exact hi.sound.mapped t ht hused j hj
  · rw [h.tmpfiles, h.allocated, h.released]
    exact hi.sound.released t ht
  · rw [h.tmpfiles] at hfree
    exact (h.entry t ht j hj).trans (hi.sound.unmapped t ht hfree j hj)

/-- A close after which everything is sound is one that leaves no other file on its slot. -/
theorem Inv.sound_fileclose_iff (hi : Inv img s) (hok : Tmpfiles.fileclose img f s = .ok s') :
    Sound img s' ↔ LastAlone f s.k := by
  constructor
  · intro hsound t hheld hone g hgf hg
    obtain ⟨k', hclose, hrun⟩ := bind_ok hok
    have hclose := mapError_ok hclose
    rcases fileclose_cases hclose with ⟨hmore, -⟩ | ⟨-, hfiles, htmp⟩
    · omega
    · dsimp only at hrun
      rw [if_pos ⟨hheld.2.1, by omega⟩] at hrun
      obtain ⟨m', -, hrun⟩ := bind_ok hrun
      cases hrun
      rw [if_pos hheld.2.1, hheld.2.2] at htmp
      have hg' : Held k' g t := by
        unfold Held
        rw [hfiles]
        have hother : (s.k.setFile f { s.k.files f with ref := 0, type := .none }).files g = s.k.files g :=
          update_of_ne hgf ..
        rw [hother]
        exact hg
      have hused : (k'.tmpfiles t).used = true := (hsound.file g t hg').2.1
      rw [htmp, update_self] at hused
      cases hused
  · exact fun halone => (hi.fileclose halone hok).sound

end Calls

/-! ## Runs -/

section Runs

variable {img : Image} {s : Store}

theorem Start.inv (h : Start img s) : Inv img s := by
  obtain ⟨-, -, htype, hrest, -, -, hfree, -, -⟩ := h.init
  have hnot : ∀ f, (s.k.files f).type ≠ .tmpfile := fun f heq => by
    by_cases hf : f = 0
    · rw [hf, htype] at heq
      cases heq
    · rw [(hrest f hf).2] at heq
      cases heq
  refine ⟨h.mem, fun f _ => hnot f, fun f t hheld => absurd hheld.2.1 (hnot f), fun t _ hused => ?_, fun t _ => ?_,
    fun t ht _ => h.entry t ht⟩
  · rw [hfree t] at hused
    cases hused
  · rw [h.allocated, h.released, hfree t]
    rfl

theorem Reached.inv (h : Reached img (Op.Meets img) s) : Inv img s := by
  refine Run.Reach.invariant h (fun s hs => hs.inv) fun s s' hi hstep => ?_
  rcases hstep with ⟨op, henabled, hmeets, hok⟩ | hrest
  · exact hi.exec henabled hmeets hok
  · exact hi.rest hrest

/-- **The lifetime of a slot** over every run whose calls all meet `Op.Meets`. A close in such a state keeps it exactly if it leaves no
other file on the slot it gives back. -/
theorem tmpfile_lifetime (img : Image) (s : Store) (h : Reached img (Op.Meets img) s) :
    Sound img s ∧ ∀ f s', fileclose img f s = .ok s' → (Sound img s' ↔ LastAlone f s.k) :=
  ⟨h.inv.sound, fun _ _ hok => h.inv.sound_fileclose_iff hok⟩

/-! ### Two files on one slot -/

/-- `/tmp/tmpfile_a` -/
def samplePath : List UInt8 := [47, 116, 109, 112, 47, 116, 109, 112, 102, 105, 108, 101, 95, 97]

/-- Process 0 has been given slot 0 for the path. -/
def slotTaken : Kernel :=
  { created with tmpfiles := update created.tmpfiles 0 { used := true, filename := tmpName samplePath } }

/-- It has opened file `f` on slot 0 at descriptor `fd`. -/
def opening (f fd flags : Nat) (k : Kernel) : Kernel :=
  let k := (k.setFile f { k.files f with ref := 1 }).setSlot 0 fd (some f)
  k.setFile f { (k.files f).modes flags with type := .tmpfile, tmpfile := 0 }

def firstOpen : Kernel := opening 1 0 0x42 slotTaken
def secondOpen : Kernel := opening 2 1 0x2 firstOpen

theorem tmpfileAlloc_created : Files.tmpfileAlloc (tmpName samplePath) created = .ok (0, slotTaken) := by
  have hfind : ((List.range TMPFILE_COUNT).find? fun t => (created.tmpfiles t).used = false) = some 0 := by decide +kernel
  unfold Files.tmpfileAlloc
  rw [hfind]
  rfl

theorem tmpfileName_firstOpen : tmpfileName (tmpName samplePath) firstOpen = some 0 := by decide +kernel

/-- A file and a descriptor are free. -/
theorem openSlot_exists (img : Image) (f fd flags : Nat) {k : Kernel} (hk : s.k = k)
    (hfile : ((List.range NFILE).find? fun f => (k.files f).ref = 0) = some f)
    (hfd : ((List.range (k.procs 0).hard).find? fun fd => ((k.procs 0).ofile fd).isNone) = some fd) :
    ∃ s', openSlot img 0 0 flags s = .ok (fd, s') ∧ s'.k = opening f fd flags k := by
  have halloc : filealloc k = some (f, k.setFile f { k.files f with ref := 1 }) := by
    unfold filealloc
    rw [hfile]
  have hslot : fdalloc 0 f (k.setFile f { k.files f with ref := 1 }) =
      (some fd, (k.setFile f { k.files f with ref := 1 }).setSlot 0 fd (some f)) := by
    unfold fdalloc
    have hprocs : (k.setFile f { k.files f with ref := 1 }).procs = k.procs := rfl
    rw [hprocs, hfd]
  unfold openSlot
  rw [hk, halloc]
  dsimp only
  rw [hslot]
  exact ⟨_, rfl, rfl⟩

theorem tmpfileOpenAt_create {s' : Store} {p t flags : Nat} {path : List UInt8} (hflags : flags &&& O_CREATE ≠ 0)
    (halloc : tmpfileAlloc img path s = .ok (t, s')) : tmpfileOpenAt img p path flags s = openSlot img p t flags s' := by
  unfold tmpfileOpenAt
  rw [if_pos hflags, halloc, ok_bind]

/-- Process 0 makes a temporary file and opens it again by its name. -/
theorem exists_shared : ∃ s, Reached Image.sample (Op.Meets Image.sample) s ∧ s.k = secondOpen := by
  obtain ⟨dirs, d, d', m, hinv, -, -, -, hlen, hnone⟩ := exists_emptyProcesses
  let s₀ : Store :=
    { k := boot, m, dirs, content := fun _ => ⟨fun _ => 0, 0, 0⟩, allocated := fun _ => 0, released := fun _ => 0,
      opened := fun _ => 0, buffer := fun _ _ => none }
  have h₀ : Reached Image.sample (Op.Meets Image.sample) s₀ :=
    .init ⟨boot_init, hinv, fun t _ j _ => hnone _ hinv.kernelDir _, fun _ => rfl, fun _ => rfl⟩
  have h₁ : Reached Image.sample (Op.Meets Image.sample) { s₀ with k := created } :=
    h₀.step (.inl ⟨.create 0 0 dirPage, trivial, trivial, rfl⟩)
  obtain ⟨m', hmap, -⟩ := mapBuffer_exists (t := 0) hinv (by decide) (by omega)
  have halloc : ∃ s₂, tmpfileAlloc Image.sample samplePath { s₀ with k := created } = .ok (0, s₂) ∧ s₂.k = slotTaken := by
    unfold tmpfileAlloc
    rw [tmpfileAlloc_created]
    exact ⟨_, by show (mapBuffer Image.sample 0 m >>= _) = _; rw [hmap]; rfl, rfl⟩
  obtain ⟨s₂, halloc, hk₂⟩ := halloc
  obtain ⟨s₃, hopen, hk₃⟩ := openSlot_exists Image.sample 1 0 0x42 hk₂ (by decide +kernel) (by decide +kernel)
  have hfirst : tmpfileOpenAt Image.sample 0 samplePath 0x42 { s₀ with k := created } = .ok (((0 : Nat) : Int), s₃) := by
    rw [tmpfileOpenAt_create (by decide) halloc]
    exact hopen
  have h₃ : Reached Image.sample (Op.Meets Image.sample) s₃ := by
    refine h₁.step (.inl ⟨.openAt 0 samplePath 0x42, trivial, trivial, ?_⟩)
    show (tmpfileOpenAt Image.sample 0 samplePath 0x42 { s₀ with k := created }).map (·.2) = _
    rw [hfirst]
    rfl
  obtain ⟨s₄, hopen, hk₄⟩ := openSlot_exists Image.sample 2 1 0x2 hk₃ (by decide +kernel) (by decide +kernel)
  have hsecond : tmpfileOpenAt Image.sample 0 samplePath 0x2 s₃ = .ok (((1 : Nat) : Int), s₄) := by
    unfold tmpfileOpenAt
    rw [if_neg (by decide), hk₃]
    exact tmpfileName_firstOpen ▸ hopen
  refine ⟨s₄, h₃.step (.inl ⟨.openAt 0 samplePath 0x2, trivial, trivial, ?_⟩), hk₄⟩
  show (tmpfileOpenAt Image.sample 0 samplePath 0x2 s₃).map (·.2) = _
  rw [hsecond]
  rfl

/-- Two files on the slot, both sound. -/
theorem tmpfile_lifetime_shared : ∃ s, Reached Image.sample (Op.Meets Image.sample) s ∧ Held s.k 1 0 ∧ Held s.k 2 0 ∧
    Sound Image.sample s := by
  obtain ⟨s, hreached, hk⟩ := exists_shared
  refine ⟨s, hreached, ?_, ?_, (tmpfile_lifetime Image.sample s hreached).1⟩
  · rw [hk]
    exact ⟨by decide, rfl, rfl⟩
  · rw [hk]
    exact ⟨by decide, rfl, rfl⟩

/-- Closing the first gives back the slot of the second. -/
theorem not_sound_close : ¬ ∀ s, Reached Image.sample (fun _ _ => True) s → Sound Image.sample s := by
  intro hall
  obtain ⟨s, hreached, hk⟩ := exists_shared
  have hi := hreached.inv
  have hheld : Held s.k 1 0 ∧ Held s.k 2 0 := by
    rw [hk]
    exact ⟨⟨by decide, rfl, rfl⟩, by decide, rfl, rfl⟩
  have hone : (s.k.files 1).ref = 1 := by
    rw [hk]
    rfl
  have hfd : s.k.argfd 0 0 = some 1 := by
    rw [hk]
    rfl
  have hi₁ := hi.calm (calm_setSlot s.k 0 0 none)
  obtain ⟨m', hunmap, -⟩ := unmapBuffer_ok (t := 0) hi.mem (by decide)
  have hclose : ∃ s', fileclose Image.sample 1 { s with k := s.k.setSlot 0 0 none } = .ok s' := by
    rw [hk]
    exact ⟨_, by show (unmapBuffer Image.sample 0 s.m >>= _) = _; rw [hunmap]; rfl⟩
  obtain ⟨s', hclose⟩ := hclose
  have hexec : exec Image.sample (.close 0 0) s = .ok s' := by
    show (syscallClose Image.sample 0 0 s).map (·.2) = _
    unfold syscallClose
    rw [hfd]
    show ((fileclose Image.sample 1 { s with k := s.k.setSlot 0 0 none }).map fun s => ((0 : Int), s)).map (·.2) = _
    rw [hclose]
    rfl
  have hafter : Reached Image.sample (fun _ _ => True) s' :=
    (hreached.mono (fun _ h => h) fun s s' hstep => hstep.imp (fun ⟨op, he, _, hok⟩ => ⟨op, he, trivial, hok⟩) id).step
      (.inl ⟨.close 0 0, trivial, trivial, hexec⟩)
  have halone : LastAlone 1 (s.k.setSlot 0 0 none) := (hi₁.sound_fileclose_iff hclose).mp (hall s' hafter)
  exact halone 0 hheld.1 hone 2 (by decide) hheld.2

end Runs

end Exaros.Tmpfiles
