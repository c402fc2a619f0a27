import Exaros.Files.Table
import Exaros.Lib.Count
import Mathlib.Algebra.Order.Ring.Int

/-!
# Reference counts of open files

A file's count should be the number of descriptors of live processes that name it, plus one for each file
system it is the image of. Inside a system call the two differ for a while: `Inv e` says by how much, `e`,
so each primitive moves `e` by one at one file and a system call is right when it comes back to `e = 0`.
The objects behind files follow: an object is open while a file that holds it is, and no two files hold
one object.
-/

namespace Exaros.Files

/-- What the last close of a file gives back. -/
inductive Object
  | pipeEnd (pi : Nat) (writable : Bool)
  | socket (s : Nat)
  | tmpfile (t : Nat)
deriving DecidableEq

def File.object (file : File) : Option Object :=
  match file.type with
  | .pipe => some (.pipeEnd file.pipe file.writable)
  | .socket => some (.socket file.socket)
  | .tmpfile => some (.tmpfile file.tmpfile)
  | _ => none

def Kernel.isOpen (k : Kernel) : Object → Bool
  | .pipeEnd pi true => (k.world.pipes pi).writeopen
  | .pipeEnd pi false => (k.world.pipes pi).readopen
  | .socket s => k.sockets s
  | .tmpfile t => (k.tmpfiles t).used

@[irreducible] def slots : Finset (Nat × Nat) := Finset.range PROCESS_TOTAL_NUMBER ×ˢ Finset.range NOFILE

def Kernel.slot (k : Kernel) (x : Nat × Nat) : Option Nat := (k.procs x.1).ofile x.2

/-- The descriptors and file systems that name a file. -/
def Kernel.count (k : Kernel) (f : Nat) : Nat := Count.fiber slots k.slot (some f) + k.images.count f

/-- The invariant, with file `f` counted `e f` times more than it is named. -/
structure Inv (e : Nat → Int) (k : Kernel) : Prop where
  ref : ∀ f < NFILE, (k.files f).ref = k.count f + e f
  range : ∀ p fd f, (k.procs p).ofile fd = some f → p < PROCESS_TOTAL_NUMBER ∧ fd < NOFILE ∧ f < NFILE
  dead : ∀ p, (k.procs p).live = false → ∀ fd, (k.procs p).ofile fd = none
  hard : ∀ p, (k.procs p).live = true → (k.procs p).hard = NOFILE
  nothing : ∀ f, (k.files f).ref = 0 → (k.files f).object = none
  isOpen : ∀ f o, (k.files f).object = some o → k.isOpen o = true
  unique : ∀ f g o, (k.files f).object = some o → (k.files g).object = some o → f = g
  free : ∀ pi, Bitmap.get k.world.pipeBitMap pi = false →
    (k.world.pipes pi).readopen = false ∧ (k.world.pipes pi).writeopen = false

/-- Between two states no file is given out and objects are only closed: those of files whose count has
come down to zero are. -/
structure Later (k k' : Kernel) : Prop where
  zero : ∀ f, (k.files f).ref = 0 → (k'.files f).ref = 0
  kept : ∀ f, (k'.files f).ref ≠ 0 → (k'.files f).object = (k.files f).object
  shut : ∀ f o, (k.files f).object = some o → (k'.files f).ref = 0 → k'.isOpen o = false
  down : ∀ o, k'.isOpen o = true → k.isOpen o = true

theorem Later.trans {k k₁ k₂ : Kernel} (h₁ : Later k k₁) (h₂ : Later k₁ k₂) : Later k k₂ where
  zero f hf := h₂.zero f (h₁.zero f hf)
  kept f hf := (h₂.kept f hf).trans (h₁.kept f fun h0 => hf (h₂.zero f h0))
  shut f o ho hf := by
    by_cases h0 : (k₁.files f).ref = 0
    · have hshut := h₁.shut f o ho h0
      by_contra hopen
      rw [h₂.down o (by simpa using hopen)] at hshut
      cases hshut
    · exact h₂.shut f o ((h₁.kept f h0).trans ho) hf
  down o ho := h₁.down o (h₂.down o ho)

/-- A change of descriptors alone. -/
theorem Later.of_eq {e : Nat → Int} {k k' : Kernel} (hi : Inv e k) (hf : k'.files = k.files) (ho : ∀ o, k'.isOpen o = k.isOpen o) :
    Later k k' where
  zero f h0 := by rwa [hf]
  kept f _ := by rw [hf]
  shut f o hobj h0 := by
    rw [hf] at h0
    rw [hi.nothing f h0] at hobj
    cases hobj
  down o h := by rwa [ho] at h

/-! ## Counting -/

section Counting

variable {e : Nat → Int} {k k' : Kernel} {p fd f g : Nat}

theorem mem_slots {x : Nat × Nat} : x ∈ slots ↔ x.1 < PROCESS_TOTAL_NUMBER ∧ x.2 < NOFILE := by
  unfold slots
  simp

theorem slot_setSlot (k : Kernel) (p fd : Nat) (v : Option Nat) (x : Nat × Nat) :
    (k.setSlot p fd v).slot x = if x = (p, fd) then v else k.slot x := by
  obtain ⟨q, i⟩ := x
  by_cases hq : q = p
  · subst hq
    by_cases hi : i = fd
    · subst hi
      simp [Kernel.slot, Kernel.setSlot]
    · simp [Kernel.slot, Kernel.setSlot, hi]
  · simp [Kernel.slot, Kernel.setSlot, hq]

/-- Setting a descriptor moves the counts of the old and the new file. -/
theorem count_setSlot (hp : p < PROCESS_TOTAL_NUMBER) (hfd : fd < NOFILE) (v : Option Nat) (g : Nat) :
    (k.setSlot p fd v).count g + (if (k.procs p).ofile fd = some g then 1 else 0) =
      k.count g + if v = some g then 1 else 0 := by
  have hchange := Count.fiber_change (S := slots) (f := k.slot) (g := (k.setSlot p fd v).slot) (a := (p, fd))
    (mem_slots.mpr ⟨hp, hfd⟩) (fun x _ hx => by rw [slot_setSlot, if_neg hx]) (some g)
  rw [slot_setSlot, if_pos rfl] at hchange
  have himages : (k.setSlot p fd v).images = k.images := rfl
  unfold Kernel.count
  rw [himages]
  have hslot : k.slot (p, fd) = (k.procs p).ofile fd := rfl
  rw [hslot] at hchange
  omega

/-- A file no descriptor and no file system names. -/
theorem count_eq_of_slots (hs : ∀ x, k'.slot x = k.slot x) (him : k'.images = k.images) (f : Nat) : k'.count f = k.count f := by
  unfold Kernel.count
  rw [him, Count.fiber_congr fun x _ => hs x]

theorem count_pos (hi : Inv e k) (h : (k.procs p).ofile fd = some f) : 0 < k.count f := by
  obtain ⟨hp, hfd, -⟩ := hi.range p fd f h
  have : 0 < Count.fiber slots k.slot (some f) := Count.fiber_pos (a := (p, fd)) (mem_slots.mpr ⟨hp, hfd⟩) h
  unfold Kernel.count
  omega

end Counting

/-! ## The primitives -/

/-- One at the file an option names. -/
def one (v : Option Nat) (g : Nat) : Int := if v = some g then 1 else 0

@[simp] theorem one_none : one none = 0 := by
  funext g
  simp [one]

theorem one_self (f : Nat) : one (some f) f = 1 := by simp [one]

theorem one_ne {f g : Nat} (h : g ≠ f) : one (some f) g = 0 := by simp [one, Ne.symm h]

section Primitives

variable {e : Nat → Int} {k k' : Kernel} {p fd f g : Nat} {v : Option Nat}

theorem Inv.cast {e' : Nat → Int} (hi : Inv e k) (h : e = e') : Inv e' k := h ▸ hi

/-- Setting a descriptor of a live process. -/
theorem Inv.setSlot (hi : Inv e k) (hp : p < PROCESS_TOTAL_NUMBER) (hfd : fd < NOFILE)
    (hv : ∀ f, v = some f → f < NFILE ∧ (k.procs p).live = true) :
    Inv (e + one ((k.procs p).ofile fd) - one v) (k.setSlot p fd v) := by
  have hproc : ∀ q, ((k.setSlot p fd v).procs q).live = (k.procs q).live ∧
      ((k.setSlot p fd v).procs q).hard = (k.procs q).hard := fun q => by
    by_cases hq : q = p
    · subst hq
      simp [Kernel.setSlot]
    · simp [Kernel.setSlot, hq]
  have hofile : ∀ q i, ((k.setSlot p fd v).procs q).ofile i = if (q, i) = (p, fd) then v else (k.procs q).ofile i :=
    fun q i => slot_setSlot k p fd v (q, i)
  refine ⟨fun f hf => ?_, fun q i f h => ?_, fun q hq i => ?_, fun q hq => ?_, hi.nothing, hi.isOpen, hi.unique, hi.free⟩
  · have hcount := count_setSlot (k := k) hp hfd v f
    have href := hi.ref f hf
    show (k.files f).ref = _
    have hmoved : ((k.setSlot p fd v).count f : Int) + one ((k.procs p).ofile fd) f = k.count f + one v f := by
      unfold one
      exact_mod_cast hcount
    rw [Pi.sub_apply, Pi.add_apply]
    omega
  · rw [hofile] at h
    split at h
    · next heq =>
      cases heq
      exact ⟨hp, hfd, (hv f h).1⟩
    · exact hi.range q i f h
  · rw [(hproc q).1] at hq
    rw [hofile]
    split
    · next heq =>
      cases heq
      cases hvv : v with
      | none => rfl
      | some f =>
        rw [(hv f hvv).2] at hq
        cases hq
    · exact hi.dead q hq i
  · rw [(hproc q).1] at hq
    rw [(hproc q).2]
    exact hi.hard q hq

/-- Setting a count. -/
theorem Inv.setRef (hi : Inv e k) {r : Int} (hr : r = 0 → (k.files f).object = none) :
    Inv (fun g => e g + if g = f then r - (k.files f).ref else 0) (k.setFile f { k.files f with ref := r }) := by
  have hobj : ∀ g, ((k.setFile f { k.files f with ref := r }).files g).object = (k.files g).object := fun g => by
    by_cases hg : g = f
    · subst hg
      simp [Kernel.setFile, File.object]
    · simp [Kernel.setFile, hg]
  refine ⟨fun g hg => ?_, hi.range, hi.dead, hi.hard, fun g h0 => ?_, fun g o ho => ?_, fun g g' o ho ho' => ?_, hi.free⟩
  · have hcount : (k.setFile f { k.files f with ref := r }).count g = k.count g := rfl
    have href := hi.ref g hg
    by_cases hgf : g = f
    · subst hgf
      rw [hcount]
      simp [Kernel.setFile]
      omega
    · rw [hcount]
      simp [Kernel.setFile, hgf]
      omega
  · rw [hobj]
    by_cases hgf : g = f
    · subst hgf
      exact hr (by simpa [Kernel.setFile] using h0)
    · exact hi.nothing g (by simpa [Kernel.setFile, hgf] using h0)
  · exact hi.isOpen g o (hobj g ▸ ho)
  · exact hi.unique g g' o (hobj g ▸ ho) (hobj g' ▸ ho')

/-- One reference more. -/
theorem Inv.filedup (hi : Inv e k) (h1 : 1 ≤ (k.files f).ref) :
    ∃ k', filedup f k = .ok k' ∧ Inv (e + one (some f)) k' ∧ Later k k' ∧ k'.procs = k.procs ∧ k'.world = k.world ∧
      k'.owner = k.owner := by
  have hinv := hi.setRef (f := f) (r := (k.files f).ref + 1) (fun h0 => by omega)
  refine ⟨_, ?_, hinv.cast ?_, ⟨fun g h0 => ?_, fun g _ => ?_, fun g o ho h0 => ?_, fun o ho => ho⟩, rfl, rfl, rfl⟩
  · rw [Files.filedup, if_neg (by omega)]
  · funext g
    simp only [Pi.add_apply, one, Option.some.injEq]
    by_cases hg : g = f
    · simp [hg]
    · simp [hg, Ne.symm hg]
  · by_cases hg : g = f
    · subst hg
      omega
    · simpa [Kernel.setFile, hg] using h0
  · by_cases hg : g = f
    · subst hg
      simp [Kernel.setFile, File.object]
    · simp [Kernel.setFile, hg]
  · by_cases hg : g = f
    · subst hg
      simp [Kernel.setFile] at h0
      omega
    · have h0 : (k.files g).ref = 0 := by simpa [Kernel.setFile, hg] using h0
      rw [hi.nothing g h0] at ho
      cases ho

/-! ## `fileclose` -/

/-- Giving back what is behind a file. -/
def Kernel.closeObject (k : Kernel) : Option Object → Kernel
  | some (.pipeEnd pi writable) => { k with world := Pipes.pipeClose pi writable k.world }
  | some (.socket s) => socketFree s k
  | some (.tmpfile t) => tmpfileClose t k
  | none => k

theorem fileclose_last (h : (k.files f).ref = 1) :
    fileclose f k = .ok ((k.setFile f { k.files f with ref := 0, type := .none }).closeObject (k.files f).object) := by
  unfold fileclose
  simp only [h]
  cases ht : (k.files f).type with
  | pipe => simp [File.object, ht, Kernel.closeObject]
  | socket => simp [File.object, ht, Kernel.closeObject]
  | tmpfile => simp [File.object, ht, Kernel.closeObject]
  | none => simp [File.object, ht, Kernel.closeObject]
  | entry => simp [File.object, ht, Kernel.closeObject]
  | device => simp [File.object, ht, Kernel.closeObject]
  | interpfile => simp [File.object, ht, Kernel.closeObject]

/-- The flags of the pipes after a close. -/
theorem pipeClose_flags (pi : Nat) (writable : Bool) (w : Pipes.World) (q : Nat) :
    ((Pipes.pipeClose pi writable w).pipes q).writeopen = (if q = pi ∧ writable = true then false else (w.pipes q).writeopen) ∧
      ((Pipes.pipeClose pi writable w).pipes q).readopen = if q = pi ∧ writable = false then false else (w.pipes q).readopen := by
  obtain ⟨hpipes, -⟩ := Pipes.pipeClose_cases pi writable w
  rw [hpipes]
  by_cases hq : q = pi
  · subst hq
    cases writable with
    | true => simp [Pipes.World.wakeup, Pipes.World.setPipe]
    | false => simp [Pipes.World.wakeup, Pipes.World.setPipe]
  · cases writable with
    | true => simp [Pipes.World.wakeup, Pipes.World.setPipe, hq]
    | false => simp [Pipes.World.wakeup, Pipes.World.setPipe, hq]

/-- Only the object that is closed is. -/
theorem isOpen_closeObject (k : Kernel) (o o' : Object) :
    (k.closeObject (some o)).isOpen o' = if o' = o then false else k.isOpen o' := by
  cases o with
  | pipeEnd pi w =>
    cases o' with
    | pipeEnd q w' =>
      have hflags := pipeClose_flags pi w k.world q
      cases w' with
      | true =>
        show ((Pipes.pipeClose pi w k.world).pipes q).writeopen = _
        rw [hflags.1]
        simp [Kernel.isOpen, eq_comm]
      | false =>
        show ((Pipes.pipeClose pi w k.world).pipes q).readopen = _
        rw [hflags.2]
        simp [Kernel.isOpen, eq_comm]
    | socket s => simp [Kernel.closeObject, Kernel.isOpen]
    | tmpfile t => simp [Kernel.closeObject, Kernel.isOpen]
  | socket s =>
    cases o' with
    | pipeEnd q w' => cases w' <;> simp [Kernel.closeObject, Kernel.isOpen, socketFree]
    | socket s' =>
      by_cases hs : s' = s
      · simp [Kernel.closeObject, Kernel.isOpen, socketFree, hs]
      · simp [Kernel.closeObject, Kernel.isOpen, socketFree, hs]
    | tmpfile t => simp [Kernel.closeObject, Kernel.isOpen, socketFree]
  | tmpfile t =>
    cases o' with
    | pipeEnd q w' => cases w' <;> simp [Kernel.closeObject, Kernel.isOpen, tmpfileClose]
    | socket s' => simp [Kernel.closeObject, Kernel.isOpen, tmpfileClose]
    | tmpfile t' =>
      by_cases ht : t' = t
      · simp [Kernel.closeObject, Kernel.isOpen, tmpfileClose, ht]
      · simp [Kernel.closeObject, Kernel.isOpen, tmpfileClose, ht]

/-- Closing an object leaves the tables alone. -/
theorem closeObject_tables (k : Kernel) (v : Option Object) :
    (k.closeObject v).files = k.files ∧ (k.closeObject v).procs = k.procs ∧ (k.closeObject v).images = k.images ∧
      (k.closeObject v).owner = k.owner ∧ (k.closeObject v).world.cur = k.world.cur := by
  cases v with
  | none => exact ⟨rfl, rfl, rfl, rfl, rfl⟩
  | some o =>
    cases o with
    | pipeEnd pi w => exact ⟨rfl, rfl, rfl, rfl, (Pipes.pipeClose_cases pi w k.world).2.2.1⟩
    | socket s => exact ⟨rfl, rfl, rfl, rfl, rfl⟩
    | tmpfile t => exact ⟨rfl, rfl, rfl, rfl, rfl⟩

/-- A pipe freed by a close has both ends closed. -/
theorem closeObject_free (hfree : ∀ pi, Bitmap.get k.world.pipeBitMap pi = false →
      (k.world.pipes pi).readopen = false ∧ (k.world.pipes pi).writeopen = false) (v : Option Object) (pi : Nat)
    (h : Bitmap.get (k.closeObject v).world.pipeBitMap pi = false) :
    ((k.closeObject v).world.pipes pi).readopen = false ∧ ((k.closeObject v).world.pipes pi).writeopen = false := by
  cases v with
  | none => exact hfree pi h
  | some o =>
    cases o with
    | pipeEnd q w =>
      obtain ⟨hpipes, -, -, -, -, -, hbits⟩ := Pipes.pipeClose_cases q w k.world
      obtain ⟨hwo, hro⟩ := pipeClose_flags q w k.world pi
      rcases hbits pi h with hold | ⟨rfl, hboth⟩
      · obtain ⟨hr, hw⟩ := hfree pi hold
        constructor
        · show ((Pipes.pipeClose q w k.world).pipes pi).readopen = false
          rw [hro, hr]
          simp
        · show ((Pipes.pipeClose q w k.world).pipes pi).writeopen = false
          rw [hwo, hw]
          simp
      · show ((Pipes.pipeClose pi w k.world).pipes pi).readopen = false ∧
          ((Pipes.pipeClose pi w k.world).pipes pi).writeopen = false
        rw [hpipes]
        exact hboth
    | socket s => exact hfree pi h
    | tmpfile t => exact hfree pi h

/-- The count goes down but not to zero. -/
theorem Inv.fileclose_shared (hi : Inv e k) (h2 : 1 < (k.files f).ref) :
    ∃ k', fileclose f k = .ok k' ∧ Inv (e - one (some f)) k' ∧ Later k k' ∧ k'.procs = k.procs ∧ k'.owner = k.owner ∧
      k'.world.cur = k.world.cur ∧ ∀ g, g ≠ f → k'.files g = k.files g := by
  have hinv := hi.setRef (f := f) (r := (k.files f).ref - 1) (fun h0 => by omega)
  refine ⟨_, ?_, hinv.cast ?_, ⟨fun g h0 => ?_, fun g _ => ?_, fun g o ho h0 => ?_, fun o ho => ho⟩, rfl, rfl, rfl,
    fun g hg => by simp [Kernel.setFile, hg]⟩
  · rw [Files.fileclose, if_neg (by omega), if_pos (by omega)]
  · funext g
    simp only [Pi.sub_apply, one, Option.some.injEq]
    by_cases hg : g = f
    · simp [hg]
      omega
    · simp [hg, Ne.symm hg]
  · by_cases hg : g = f
    · subst hg
      omega
    · simpa [Kernel.setFile, hg] using h0
  · by_cases hg : g = f
    · subst hg
      simp [Kernel.setFile, File.object]
    · simp [Kernel.setFile, hg]
  · by_cases hg : g = f
    · subst hg
      simp [Kernel.setFile] at h0
      omega
    · have h0 : (k.files g).ref = 0 := by simpa [Kernel.setFile, hg] using h0
      rw [hi.nothing g h0] at ho
      cases ho

/-- The last reference goes, and with it the object behind the file. -/
theorem Inv.fileclose_last (hi : Inv e k) (h1 : (k.files f).ref = 1) :
    ∃ k', fileclose f k = .ok k' ∧ Inv (e - one (some f)) k' ∧ Later k k' ∧ k'.procs = k.procs ∧ k'.owner = k.owner ∧
      k'.world.cur = k.world.cur ∧ ∀ g, g ≠ f → k'.files g = k.files g := by
  let k₁ := k.setFile f { k.files f with ref := 0, type := .none }
  let k' := k₁.closeObject (k.files f).object
  obtain ⟨hfiles, hprocs, himages, howner, hcur⟩ := closeObject_tables k₁ (k.files f).object
  have hf : k'.files f = { k.files f with ref := 0, type := .none } := by
    rw [hfiles]
    simp [k₁, Kernel.setFile]
  have hg : ∀ g, g ≠ f → k'.files g = k.files g := fun g hgf => by
    rw [hfiles]
    simp [k₁, Kernel.setFile, hgf]
  have hobjf : (k'.files f).object = none := by rw [hf]; rfl
  -- the objects of the other files stay open
  have hopen : ∀ o, k'.isOpen o = if (k.files f).object = some o then false else k.isOpen o := fun o => by
    cases hobj : (k.files f).object with
    | none => simp [k', hobj, Kernel.closeObject]; rfl
    | some o' =>
      have hclosed : k'.isOpen o = if o = o' then false else k₁.isOpen o := by
        simp only [k', hobj]
        exact isOpen_closeObject k₁ o' o
      rw [hclosed]
      by_cases ho : o = o'
      · simp [ho]
      · simp only [ho, if_false, Option.some.injEq, Ne.symm ho]
        rfl
  refine ⟨k', Files.fileclose_last h1, ?_, ?_, hprocs, howner, hcur, hg⟩
  · refine ⟨fun g hgn => ?_, fun q i g h => ?_, fun q hq i => ?_, fun q hq => ?_, fun g h0 => ?_, fun g o ho => ?_,
      fun g g' o ho ho' => ?_, ?_⟩
    · have hcount : k'.count g = k.count g := count_eq_of_slots (fun x => by rw [Kernel.slot, hprocs]; rfl) himages g
      have href := hi.ref g hgn
      rw [hcount, Pi.sub_apply]
      by_cases hgf : g = f
      · subst hgf
        rw [hf, one_self]
        show (0 : Int) = _
        omega
      · rw [hg g hgf, one_ne hgf]
        omega
    · exact hi.range q i g (by rw [hprocs] at h; exact h)
    · rw [hprocs] at hq ⊢
      exact hi.dead q hq i
    · rw [hprocs] at hq ⊢
      exact hi.hard q hq
    · by_cases hgf : g = f
      · rw [hgf]
        exact hobjf
      · rw [hg g hgf] at h0 ⊢
        exact hi.nothing g h0
    · have hgf : g ≠ f := fun h => by
        rw [h, hobjf] at ho
        cases ho
      rw [hg g hgf] at ho
      have hne : (k.files f).object ≠ some o := fun h => hgf (hi.unique g f o ho h)
      rw [hopen, if_neg hne]
      exact hi.isOpen g o ho
    · have hgf : g ≠ f := fun h => by
        rw [h, hobjf] at ho
        cases ho
      have hgf' : g' ≠ f := fun h => by
        rw [h, hobjf] at ho'
        cases ho'
      rw [hg g hgf] at ho
      rw [hg g' hgf'] at ho'
      exact hi.unique g g' o ho ho'
    · exact closeObject_free (k := k₁) hi.free _
  · refine ⟨fun g h0 => ?_, fun g h0 => ?_, fun g o ho h0 => ?_, fun o ho => ?_⟩
    · by_cases hgf : g = f
      · rw [hgf, hf]
      · rw [hg g hgf]
        exact h0
    · have hgf : g ≠ f := fun h => h0 (by rw [h, hf])
      rw [hg g hgf]
    · by_cases hgf : g = f
      · rw [hopen, if_pos (hgf ▸ ho)]
      · rw [hg g hgf] at h0
        rw [hi.nothing g h0] at ho
        cases ho
    · rw [hopen] at ho
      split at ho
      · cases ho
      · exact ho

theorem Inv.fileclose (hi : Inv e k) (h1 : 1 ≤ (k.files f).ref) :
    ∃ k', fileclose f k = .ok k' ∧ Inv (e - one (some f)) k' ∧ Later k k' ∧ k'.procs = k.procs ∧ k'.owner = k.owner ∧
      k'.world.cur = k.world.cur ∧ ∀ g, g ≠ f → k'.files g = k.files g := by
  by_cases h2 : 1 < (k.files f).ref
  · exact hi.fileclose_shared h2
  · exact hi.fileclose_last (by omega)

end Primitives

end Exaros.Files
