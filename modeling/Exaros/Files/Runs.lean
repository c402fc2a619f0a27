import Exaros.Files.Objects
import Mathlib.Data.List.Find

/-!
# Runs over the open files

`processFork` and `processFree` go through the descriptors one at a time. With them every system call is
right on its own, and the counts are exact in every state of a run whose calls all meet `Op.Meets`.

**What it does not establish.** What the calls do with the bytes of a file.
-/

namespace Exaros.Files

open Function (update update_self update_of_ne)

section Processes

variable {e : Nat → Int} {k k' : Kernel} {p c : Nat}

/-- A process block no live process has is taken. -/
theorem Inv.setupProc (hi : Inv e k) (hdead : (k.procs c).live = false) (pgdir : Ppn) : Inv e (setupProc c pgdir k) := by
  have hofile : ∀ q, ((Files.setupProc c pgdir k).procs q).ofile = (k.procs q).ofile := fun q => by
    by_cases hq : q = c
    · subst hq
      simp [Files.setupProc]
    · simp [Files.setupProc, hq]
  refine ⟨fun f hf => ?_, fun q i f h => ?_, fun q hq i => ?_, fun q hq => ?_, hi.nothing, hi.isOpen, hi.unique, hi.free⟩
  · rw [count_eq_of_slots (k := k) (fun x => congrFun (hofile x.1) x.2) rfl]
    exact hi.ref f hf
  · rw [hofile] at h
    exact hi.range q i f h
  · rw [hofile]
    by_cases hqc : q = c
    · subst hqc
      exact hi.dead q hdead i
    · exact hi.dead q (by simpa [Files.setupProc, hqc] using hq) i
  · by_cases hqc : q = c
    · subst hqc
      simp [Files.setupProc]
    · simp only [Files.setupProc, update_of_ne hqc] at hq ⊢
      exact hi.hard q hq

theorem later_setupProc (hi : Inv e k) (c : Nat) (pgdir : Ppn) : Later k (setupProc c pgdir k) :=
  Later.of_eq hi rfl fun _ => rfl

theorem setSlot_procs_ne (k : Kernel) {p q : Nat} (h : q ≠ p) (fd : Nat) (v : Option Nat) :
    (k.setSlot p fd v).procs q = k.procs q := by
  simp [Kernel.setSlot, h]

theorem setSlot_procs_self (k : Kernel) (p fd : Nat) (v : Option Nat) :
    (k.setSlot p fd v).procs p = { k.procs p with ofile := update (k.procs p).ofile fd v } := by
  simp [Kernel.setSlot]

/-- What holds after some descriptors of the parent have been copied. -/
structure Forking (k₀ : Kernel) (p c : Nat) (done : List Nat) (k : Kernel) : Prop where
  inv : Inv 0 k
  later : Later k₀ k
  parent : k.procs p = k₀.procs p
  live : (k.procs c).live = true
  rest : ∀ i, i ∉ done → (k.procs c).ofile i = none

/-- A turn of the loop gives the child one slot more. -/
theorem Forking.forkSlot {k₀ : Kernel} {done : List Nat} {i : Nat} (h : Forking k₀ p c done k) (hpc : p ≠ c)
    (hc : c < PROCESS_TOTAL_NUMBER) (hi : i ∉ done) :
    ∃ k', forkSlot p c k i = .ok k' ∧ Forking k₀ p c (done ++ [i]) k' := by
  unfold Files.forkSlot
  cases hslot : (k.procs p).ofile i with
  | none => exact ⟨k, rfl, h.inv, h.later, h.parent, h.live, fun j hj => h.rest j fun hd => hj (List.mem_append_left _ hd)⟩
  | some f =>
    obtain ⟨-, hin, hf⟩ := h.inv.range p i f hslot
    have h1 : 1 ≤ (k.files f).ref := by
      have := count_pos h.inv hslot
      exact h.inv.one_le_ref hf (by simp; omega)
    obtain ⟨k₁, hk₁, hi₁, hl₁, hprocs, -⟩ := h.inv.filedup h1
    have hi₂ := hi₁.setSlot hc hin (v := some f) fun g hg => by
      cases hg
      exact ⟨hf, by rw [hprocs]; exact h.live⟩
    rw [hprocs, h.rest i hi, one_none, zero_add, add_zero, sub_self] at hi₂
    have hl₂ : Later k₁ (k₁.setSlot c i (some f)) := Later.of_eq hi₁ rfl fun _ => rfl
    refine ⟨k₁.setSlot c i (some f), ?_, hi₂, (h.later.trans hl₁).trans hl₂, ?_, ?_, fun j hj => ?_⟩
    · simp only [hk₁]
      rfl
    · rw [setSlot_procs_ne k₁ hpc, hprocs]
      exact h.parent
    · rw [setSlot_procs_self, hprocs]
      exact h.live
    · rw [List.mem_append, List.mem_singleton, not_or] at hj
      rw [setSlot_procs_self, hprocs]
      show update (k.procs c).ofile i (some f) j = none
      rw [update_of_ne hj.2]
      exact h.rest j hj.1

theorem processFork_fine (hi : Inv 0 k) (hlive : (k.procs p).live = true) (hc : c < PROCESS_TOTAL_NUMBER)
    (hdead : (k.procs c).live = false) (th : Nat) (pgdir : Ppn) : Fine k (processFork p c th pgdir k) := by
  have hpc : p ≠ c := fun h => by
    rw [h, hdead] at hlive
    cases hlive
  have hi₀ := hi.setupProc hdead pgdir
  have hstart : Forking (setupProc c pgdir k) p c [] (setupProc c pgdir k) := by
    refine ⟨hi₀, Later.of_eq hi₀ rfl fun _ => rfl, rfl, by simp [setupProc], fun i _ => ?_⟩
    simpa [setupProc] using hi.dead c hdead i
  obtain ⟨k', hk', h⟩ := Loop.foldlM_ok (P := Forking (setupProc c pgdir k) p c)
    (List.nodup_range (n := ((setupProc c pgdir k).procs c).hard)) hstart fun done i s hin hs => hs.forkSlot hpc hc hin
  have hi' : Inv 0 { k' with owner := update k'.owner th (some c) } :=
    h.inv.objects rfl rfl rfl h.inv.isOpen h.inv.free
  have hl' : Later k' { k' with owner := update k'.owner th (some c) } := Later.of_eq h.inv rfl fun _ => rfl
  simp only [processFork, hk']
  exact fine_ok hi' ((((later_setupProc hi c pgdir).trans h.later).trans hl').drops hi')

/-- What holds after some descriptors of a dying process have been closed. -/
structure Freeing (k₀ : Kernel) (p : Nat) (done : List Nat) (k : Kernel) : Prop where
  inv : Inv 0 k
  later : Later k₀ k
  closed : ∀ i ∈ done, (k.procs p).ofile i = none

/-- A turn of the loop closes one slot more. -/
theorem Freeing.freeSlot {k₀ : Kernel} {done : List Nat} {i : Nat} (h : Freeing k₀ p done k) :
    ∃ k', freeSlot p k i = .ok k' ∧ Freeing k₀ p (done ++ [i]) k' := by
  unfold Files.freeSlot
  cases hslot : (k.procs p).ofile i with
  | none =>
    refine ⟨k, rfl, h.inv, h.later, fun j hj => ?_⟩
    rcases List.mem_append.mp hj with hj | hj
    · exact h.closed j hj
    · rw [List.mem_singleton.mp hj]
      exact hslot
  | some f =>
    obtain ⟨hp, hin, hf⟩ := h.inv.range p i f hslot
    have h1 : 1 ≤ (k.files f).ref := by
      have := count_pos h.inv hslot
      exact h.inv.one_le_ref hf (by simp; omega)
    obtain ⟨k₁, hk₁, hi₁, hl₁, hprocs, -⟩ := h.inv.fileclose h1
    have hi₂ := hi₁.setSlot hp hin (v := none) fun g hg => by cases hg
    rw [hprocs, hslot, one_none, sub_zero, sub_add_cancel] at hi₂
    have hl₂ : Later k₁ (k₁.setSlot p i none) := Later.of_eq hi₁ rfl fun _ => rfl
    refine ⟨k₁.setSlot p i none, ?_, hi₂, (h.later.trans hl₁).trans hl₂, fun j hj => ?_⟩
    · simp only [hk₁]
      rfl
    · rw [setSlot_procs_self, hprocs]
      show update (k.procs p).ofile i none j = none
      by_cases hji : j = i
      · rw [hji, update_self]
      · rw [update_of_ne hji]
        rcases List.mem_append.mp hj with hj | hj
        · exact h.closed j hj
        · exact (hji (List.mem_singleton.mp hj)).elim

/-- A process without descriptors is given up. -/
theorem Inv.dropProc (hi : Inv e k) (hnone : ∀ fd, (k.procs p).ofile fd = none) : Inv e (dropProc p k) := by
  have hofile : ∀ q, ((Files.dropProc p k).procs q).ofile = (k.procs q).ofile := fun q => by
    by_cases hq : q = p
    · subst hq
      simp [Files.dropProc]
    · simp [Files.dropProc, hq]
  refine ⟨fun f hf => ?_, fun q i f h => ?_, fun q hq i => ?_, fun q hq => ?_, hi.nothing, fun f o ho => ?_, hi.unique, hi.free⟩
  · rw [count_eq_of_slots (k := k) (fun x => congrFun (hofile x.1) x.2) rfl]
    exact hi.ref f hf
  · rw [hofile] at h
    exact hi.range q i f h
  · rw [hofile]
    by_cases hqp : q = p
    · rw [hqp]
      exact hnone i
    · exact hi.dead q (by simpa [Files.dropProc, hqp] using hq) i
  · by_cases hqp : q = p
    · subst hqp
      simp [Files.dropProc] at hq
    · simp only [Files.dropProc, update_of_ne hqp] at hq ⊢
      exact hi.hard q hq
  · have hold := hi.isOpen f o ho
    cases o with
    | pipeEnd pi w => cases w <;> exact hold
    | socket s => exact hold
    | tmpfile t => exact hold

theorem processFree_fine (hi : Inv 0 k) : Fine k (processFree p k) := by
  have hstart : Freeing k p [] k := ⟨hi, Later.of_eq hi rfl fun _ => rfl, fun i hin => by cases hin⟩
  obtain ⟨k', hk', h⟩ := Loop.foldlM_ok (P := Freeing k p) (List.nodup_range (n := NOFILE)) hstart
    fun done i s _ hs => hs.freeSlot
  have hnone : ∀ fd, (k'.procs p).ofile fd = none := fun fd => by
    by_cases hfd : fd < NOFILE
    · exact h.closed fd (List.mem_range.mpr hfd)
    · cases hslot : (k'.procs p).ofile fd with
      | none => rfl
      | some f => exact (hfd (h.inv.range p fd f hslot).2.1).elim
  have hi' := h.inv.dropProc hnone
  have hl' : Later k' (dropProc p k') := Later.of_eq h.inv rfl fun o => by
    cases o with
    | pipeEnd pi w => cases w <;> rfl
    | socket s => rfl
    | tmpfile t => rfl
  simp only [processFree, hk']
  exact fine_ok hi' ((h.later.trans hl').drops hi')

end Processes

/-! ## Every system call -/

/-- The arguments and states from which a call keeps the counts: `dup3` of a descriptor onto itself needs a
second name of the file, `fcntl`, `socket` and `accept` a free descriptor, and `open` a tmpfile that no file
holds. -/
def Op.Meets (op : Op) (k : Kernel) : Prop :=
  match op with
  | .dup3 p fd fdnew => ∀ f, k.argfd p fd = some f → fd = fdnew → 2 ≤ (k.files f).ref
  | .fcntl p _ | .socket p _ | .accept p .. => ∃ fd < NOFILE, (k.procs p).ofile fd = none
  | .openTmp _ name flags =>
    flags &&& O_CREATE = 0 → ∀ t, tmpfileName name k = some t → ∀ g, (k.files g).object ≠ some (.tmpfile t)
  | _ => True

variable {k : Kernel}

/-- **Every call** keeps the counts, by cases. -/
theorem exec_fine (hi : Inv 0 k) {op : Op} (henabled : op.Enabled k) (hmeets : op.Meets k) :
    Fine k (exec op k) := by
  obtain ⟨-, hp, henabled⟩ := henabled
  cases op with
  | create p th pgdir =>
    have hi₁ := hi.setupProc henabled.1 pgdir
    have hi' : Inv 0 { setupProc p pgdir k with owner := update k.owner th (some p) } :=
      hi₁.objects rfl rfl rfl hi₁.isOpen hi₁.free
    have hl' : Later k { setupProc p pgdir k with owner := update k.owner th (some p) } :=
      (later_setupProc hi p pgdir).trans (Later.of_eq hi₁ rfl fun _ => rfl)
    exact fine_ok hi' (hl'.drops hi')
  | openEntry p found flags => exact openEntry_fine hi hp henabled found flags
  | openTmp p name flags => exact tmpfileOpenAt_fine hi hp henabled name flags hmeets
  | openInterp p =>
    simp only [exec]
    exact interpfileOpenAt_fine hi hp henabled
  | device p major omode => exact syscallDevice_fine hi hp henabled major omode
  | dup p fd => exact syscallDup_fine hi hp henabled fd
  | dup3 p fd fdnew => exact syscallDupAndSet_fine hi henabled fd fdnew hmeets
  | fcntl p fd => exact fcntlDupfd_fine hi hp henabled fd hmeets
  | close p fd => exact syscallClose_fine hi fd
  | pipe p copied => exact syscallPipe_fine hi hp henabled copied
  | socket p page => exact createSocket_fine hi hp henabled page hmeets
  | accept p sockfd pending page => exact accept_fine hi hp henabled sockfd pending page hmeets
  | fork p c th pgdir => exact processFork_fine hi henabled.1 henabled.2.1 henabled.2.2.1 th pgdir
  | exit p => exact processFree_fine hi

/-! ## Runs -/

/-- After boot the root file system has taken file 0. -/
def Kernel.Init (k : Kernel) : Prop :=
  k.images = [0] ∧ (k.files 0).ref = 1 ∧ (k.files 0).type = .device ∧
    (∀ f, f ≠ 0 → (k.files f).ref = 0 ∧ (k.files f).type = .none) ∧
    (∀ p, (k.procs p).live = false ∧ ∀ fd, (k.procs p).ofile fd = none) ∧ (∀ s, k.sockets s = false) ∧
    (∀ t, (k.tmpfiles t).used = false) ∧ (∀ t, k.owner t = none) ∧ k.world.Init

/-- The states that calls reach which all meet `P` where they are made. -/
def Reached (P : Op → Kernel → Prop) : Kernel → Prop :=
  Run.Reach Kernel.Init fun k k' => ∃ op : Op, op.Enabled k ∧ P op k ∧ exec op k = .ok k'

/-- After boot. -/
theorem Kernel.Init.inv (h : k.Init) : Inv 0 k := by
  obtain ⟨himages, href, htype, hrest, hprocs, -, -, -, hworld⟩ := h
  have hobj : ∀ f, (k.files f).object = none := fun f => by
    by_cases hf : f = 0
    · simp [hf, File.object, htype]
    · simp [File.object, (hrest f hf).2]
  have hfiber : ∀ f, Count.fiber slots k.slot (some f) = 0 := fun f =>
    Count.fiber_eq_zero.mpr fun x _ hx => by
      rw [Kernel.slot, (hprocs x.1).2] at hx
      cases hx
  refine ⟨fun f _ => ?_, fun p fd f h => ?_, fun p _ fd => (hprocs p).2 fd, fun p h => ?_, fun f _ => hobj f, fun f o ho => ?_,
    fun f g o ho => ?_, fun pi _ => ?_⟩
  · rw [Kernel.count, hfiber, himages]
    by_cases hf : f = 0
    · simp [hf, href]
    · simp [(hrest f hf).1, Ne.symm hf]
  · rw [(hprocs p).2] at h
    cases h
  · rw [(hprocs p).1] at h
    cases h
  · rw [hobj] at ho
    cases ho
  · rw [hobj] at ho
    cases ho
  · rw [hworld.1 pi]
    exact ⟨rfl, rfl⟩

theorem Reached.inv (h : Reached Op.Meets k) : Inv 0 k := by
  refine Run.Reach.invariant h (fun k hk => hk.inv) fun k k' hi hstep => ?_
  obtain ⟨op, henabled, hmeets, hk'⟩ := hstep
  exact ((exec_fine hi henabled hmeets).2 k' hk').1

/-- The descriptors of live processes that name a file, and the file systems whose image it is. -/
def Kernel.names (k : Kernel) (f : Nat) : Nat :=
  (slots.filter fun x => (k.procs x.1).live = true ∧ (k.procs x.1).ofile x.2 = some f).card + k.images.count f

theorem Inv.names_eq (hi : Inv 0 k) (f : Nat) : k.names f = k.count f := by
  unfold Kernel.names Kernel.count Count.fiber
  congr 2
  refine Finset.filter_congr fun x _ => ⟨fun h => h.2, fun h => ⟨?_, h⟩⟩
  by_contra hlive
  rw [Kernel.slot, hi.dead x.1 (by simpa using hlive)] at h
  cases h

/-- Counts are exact, `filealloc` gives out the first file nothing names, what is behind a file that has a
name is open, and a call that meets `P` does not panic on a count and closes what is behind a file whose
last name it takes. -/
structure RefSpec (P : Op → Kernel → Prop) (k : Kernel) : Prop where
  ref : ∀ f < NFILE, (k.files f).ref = k.names f
  alloc : filealloc k = ((List.range NFILE).find? fun f => k.names f = 0).map fun f =>
    (f, k.setFile f { k.files f with ref := 1 })
  isOpen : ∀ f < NFILE, ∀ o, (k.files f).object = some o → 0 < k.names f ∧ k.isOpen o = true
  panic : ∀ op : Op, op.Enabled k → P op k → exec op k ≠ .error .filedup ∧ exec op k ≠ .error .fileclose
  closed : ∀ op : Op, op.Enabled k → P op k → ∀ k', exec op k = .ok k' → ∀ f < NFILE, ∀ o,
    (k.files f).object = some o → k'.names f = 0 → k'.isOpen o = false

/-- The counts over every run of system calls that meet `Op.Meets`. -/
theorem refSpec_of_reached (k : Kernel) (h : Reached Op.Meets k) : RefSpec Op.Meets k := by
  have hi := h.inv
  have href : ∀ f < NFILE, (k.files f).ref = k.names f := fun f hf => by
    rw [hi.names_eq]
    exact hi.count_eq hf
  have hpos : ∀ f < NFILE, ∀ o, (k.files f).object = some o → 0 < k.names f := fun f hf o ho => by
    have h0 : (k.files f).ref ≠ 0 := fun h0 => by
      rw [hi.nothing f h0] at ho
      cases ho
    have := href f hf
    omega
  refine ⟨href, ?_, fun f hf o ho => ⟨hpos f hf o ho, hi.isOpen f o ho⟩, fun op henabled hmeets => ?_,
    fun op henabled hmeets k' hk' f hf o ho h0 => ?_⟩
  · have hfind : ((List.range NFILE).find? fun f => (k.files f).ref = 0) = (List.range NFILE).find? fun f => k.names f = 0 := by
      refine List.find?_congr fun f hf => ?_
      rw [href f (List.mem_range.mp hf)]
      simp
    rw [← hfind]
    unfold filealloc
    cases (List.range NFILE).find? fun f => (k.files f).ref = 0 with
    | none => rfl
    | some f => rfl
  · have hfine := exec_fine hi henabled hmeets
    exact ⟨fun he => (hfine.1 _ he).1 rfl, fun he => (hfine.1 _ he).2 rfl⟩
  · obtain ⟨hi', hdrops⟩ := (exec_fine hi henabled hmeets).2 k' hk'
    rw [hi'.names_eq] at h0
    exact hdrops f hf o ho (by rw [← hi.names_eq]; exact hpos f hf o ho) h0

/-! ## One process, one file -/

def boot : Kernel where
  world := Pipes.boot Pipes.noMem
  files := fun f =>
    { type := if f = 0 then .device else .none, ref := if f = 0 then 1 else 0, readable := false, writable := false,
      pipe := 0, socket := 0, tmpfile := 0 }
  procs := fun _ => { live := false, ofile := fun _ => none, hard := 0, pgdir := 0 }
  sockets := fun _ => false
  tmpfiles := fun _ => { used := false, filename := [] }
  images := [0]
  owner := fun _ => none

theorem boot_init : boot.Init := by
  refine ⟨rfl, rfl, rfl, fun f hf => ?_, fun _ => ⟨rfl, fun _ => rfl⟩, fun _ => rfl, fun _ => rfl, fun _ => rfl,
    Pipes.boot_init _⟩
  simp [boot, hf]

/-- A page for the page directory of process 0. -/
def dirPage : Ppn := 0x81000

/-- Process 0 has been made. -/
def created : Kernel := { setupProc 0 dirPage boot with owner := update boot.owner 0 (some 0) }

/-- Process 0 has opened file 1 at descriptor 0. -/
def opened : Kernel :=
  let k := created.setFile 1 { created.files 1 with ref := 1 }
  let k := k.setSlot 0 0 (some 1)
  k.setFile 1 { (k.files 1).modes 0 with type := .entry }

theorem exec_create : exec (.create 0 0 dirPage) boot = .ok created := rfl

theorem filealloc_created : filealloc created = some (1, created.setFile 1 { created.files 1 with ref := 1 }) := by
  have hfind : ((List.range NFILE).find? fun f => (created.files f).ref = 0) = some 1 := by decide +kernel
  unfold filealloc
  rw [hfind]

theorem fdalloc_created (h : k.procs = created.procs) (f : Nat) :
    fdalloc 0 f k = (some 0, k.setSlot 0 0 (some f)) := by
  have hfind : ((List.range (created.procs 0).hard).find? fun fd => ((created.procs 0).ofile fd).isNone) = some 0 := by decide +kernel
  unfold fdalloc
  rw [h, hfind]

theorem exec_open : exec (.openEntry 0 none 0) created = .ok opened := by
  have hprocs : (created.setFile 1 { created.files 1 with ref := 1 }).procs = created.procs := rfl
  have hpair : allocPair 0 created =
      .ok (some (1, 0), (created.setFile 1 { created.files 1 with ref := 1 }).setSlot 0 0 (some 1)) := by
    unfold allocPair
    rw [filealloc_created]
    simp only [fdalloc_created hprocs]
  simp only [exec, openEntry, openWith, hpair, Except.map]
  rfl

theorem created_reached {P : Op → Kernel → Prop} (h : P (.create 0 0 dirPage) boot) : Reached P created :=
  .step (.init boot_init) ⟨.create 0 0 dirPage, ⟨rfl, by decide, rfl, rfl⟩, h, exec_create⟩

theorem opened_reached {P : Op → Kernel → Prop} (h : P (.create 0 0 dirPage) boot) (h' : P (.openEntry 0 none 0) created) :
    Reached P opened :=
  .step (created_reached h) ⟨.openEntry 0 none 0, ⟨rfl, by decide, rfl⟩, h', exec_open⟩

/-- The file is given two more descriptors, and a socket is made: the states on the way. -/
def dupRun : Except Halt (Kernel × Kernel × Kernel) := do
  let k₁ ← exec (.dup3 0 0 1) opened
  let k₂ ← exec (.fcntl 0 1) k₁
  let k₃ ← exec (.socket 0 true) k₂
  return (k₁, k₂, k₃)

/-- Process 0 is live and has a free descriptor, and nobody is inside a pipe. -/
def Kernel.Spare (k : Kernel) : Prop := k.world.cur = none ∧ (k.procs 0).live = true ∧ (k.procs 0).ofile 9 = none

instance (k : Kernel) : Decidable k.Spare := inferInstanceAs (Decidable (_ ∧ _))

theorem dupRun_files : (dupRun.toOption.map fun s => decide (s.1.Spare ∧ s.2.1.Spare ∧ (s.2.2.files 1).ref = 3 ∧
    (s.2.2.procs 0).ofile 2 = some 1 ∧ (s.2.2.files 2).ref = 1 ∧ (s.2.2.procs 0).ofile 3 = some 2)) = some true := by
  decide +kernel

/-- The counts of a file with three descriptors, by `open`, `dup3` and `fcntl`, and of a socket. -/
theorem refSpec_dupRun : ∃ k, Reached Op.Meets k ∧ (k.files 1).ref = 3 ∧ (k.procs 0).ofile 2 = some 1 ∧ (k.files 2).ref = 1 ∧
    (k.procs 0).ofile 3 = some 2 ∧ RefSpec Op.Meets k := by
  obtain ⟨⟨k₁, k₂, k₃⟩, hrun, hfacts⟩ := Loop.exists_of_toOption dupRun_files
  obtain ⟨k₁', hdup, hrun⟩ := Loop.bind_ok hrun
  obtain ⟨k₂', hfcntl, hrun⟩ := Loop.bind_ok hrun
  obtain ⟨k₃', hsocket, hrun⟩ := Loop.bind_ok hrun
  cases hrun
  obtain ⟨⟨hout₁, hlive₁, hfree₁⟩, ⟨hout₂, hlive₂, hfree₂⟩, href, hslot, hsock, hfd⟩ := of_decide_eq_true hfacts
  have h₀ : Reached Op.Meets opened := opened_reached trivial trivial
  have h₁ := h₀.step ⟨.dup3 0 0 1, ⟨rfl, by decide, rfl⟩, fun f _ h => absurd h (by decide), hdup⟩
  have h₂ := h₁.step ⟨.fcntl 0 1, ⟨hout₁, by decide, hlive₁⟩, ⟨9, by decide, hfree₁⟩, hfcntl⟩
  have h₃ := h₂.step ⟨.socket 0 true, ⟨hout₂, by decide, hlive₂⟩, ⟨9, by decide, hfree₂⟩, hsocket⟩
  exact ⟨k₃, h₃, href, hslot, hsock, hfd, refSpec_of_reached k₃ h₃⟩

/-- `dup3` of the only descriptor of a file onto itself closes the file and panics on sharing it again. -/
theorem not_refSpec : ¬ ∀ k : Kernel, Reached (fun _ _ => True) k → RefSpec (fun _ _ => True) k := by
  intro hall
  have hspec := hall opened (opened_reached trivial trivial)
  refine (hspec.panic (.dup3 0 0 0) ⟨rfl, by decide, rfl⟩ trivial).1 ?_
  rfl

end Exaros.Files
