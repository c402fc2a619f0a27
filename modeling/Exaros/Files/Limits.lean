import Exaros.Files.Runs

/-!
# Descriptors and their limit

`prlimit64` writes the limit of a process as the caller gives it, and `fdalloc` goes by that limit and not by
the size of the table. `looked` are the indices of `ofile` the loop of `fdalloc` reads; the last of them is the
one it writes, if it writes. What lies behind the table is part of `ofile` here, at the indices from `NOFILE` on.
-/

namespace Exaros.Files

open Run
open Function (update update_self update_of_ne update_idem)

def RLIMIT_NOFILE : Nat := 7

/-- The indices of `ofile` that the loop of `fdalloc` reads. -/
def Proc.looked (proc : Proc) : List Nat :=
  match (List.range proc.hard).find? fun fd => (proc.ofile fd).isNone with
  | none => List.range proc.hard
  | some fd => List.range (fd + 1)

/-- The limit keeps `fdalloc` in the table, or a free descriptor stops it there. -/
def Proc.Room (proc : Proc) : Prop := proc.hard ≤ NOFILE ∨ ∃ fd < NOFILE, proc.ofile fd = none

/-! ## Calls -/

/-- The process block at the call of `fdalloc` in `openWith`. -/
def openTables (p : Nat) (k : Kernel) : List Proc :=
  match filealloc k with
  | none => []
  | some (_, k) => [k.procs p]

/-- The process block at each call of `fdalloc` that a system call makes. -/
def Op.tables (op : Op) (k : Kernel) : List Proc :=
  match op with
  | .openEntry p none _ | .openInterp p => openTables p k
  | .openTmp p name flags =>
    if flags &&& O_CREATE ≠ 0 then
      match tmpfileAlloc name k with
      | .error _ => []
      | .ok (_, k) => openTables p k
    else
      match tmpfileName name k with
      | none => []
      | some _ => openTables p k
  | .device p major omode => if omode &&& O_CREATE ≠ 0 ∨ major < 0 ∨ NDEV ≤ major then [] else openTables p k
  | .dup p fd | .fcntl p fd =>
    match k.argfd p fd with
    | none => []
    | some _ => [k.procs p]
  | .pipe p _ =>
    match pipeNew k with
    | .ok (some (rf, _), k) =>
      k.procs p ::
        match fdalloc p rf k with
        | (none, _) => []
        | (some _, k) => [k.procs p]
    | _ => []
  | .socket p page =>
    match filealloc k with
    | none => []
    | some (_, k) =>
      match socketAlloc page k with
      | .error _ => []
      | .ok (_, k) => [k.procs p]
  | .accept p sockfd pending page =>
    match k.argfd p sockfd with
    | none => []
    | some f =>
      if (k.files f).type ≠ .socket ∨ pending = false then []
      else
        match socketAlloc page k with
        | .error _ => []
        | .ok (_, k) => openTables p k
  | .create .. | .openEntry .. | .dup3 .. | .close .. | .fork .. | .exit .. => []

/-- The indices of the loop over descriptors in `processFork`. -/
def Op.copied (op : Op) (k : Kernel) : List Nat :=
  match op with
  | .fork _ c _ pgdir => List.range ((setupProc c pgdir k).procs c).hard
  | _ => []

/-- A system call of `Op`, or `prlimit64`; `newLimit` is what `newLimit.hard` holds where a limit is given. -/
inductive Call
  | system (op : Op)
  | prlimit (p pid resource : Nat) (newLimit : Option Nat)

/-- `syscallPrlimit64`; `none` is the panic. -/
def syscallPrlimit64 (p pid resource : Nat) (newLimit : Option Nat) (k : Kernel) : Option Kernel :=
  if pid ≠ 0 then none
  else
    match newLimit with
    | some hard =>
      if resource = RLIMIT_NOFILE then some { k with procs := update k.procs p { k.procs p with hard := hard } }
      else some k
    | none => some k

namespace Call

def run (call : Call) (k : Kernel) : Option Kernel :=
  match call with
  | .system op => (exec op k).toOption
  | .prlimit p pid resource newLimit => syscallPrlimit64 p pid resource newLimit k

def Enabled (call : Call) (k : Kernel) : Prop :=
  match call with
  | .system op => op.Enabled k
  | .prlimit p _ _ _ => p < PROCESS_TOTAL_NUMBER ∧ (k.procs p).live = true

/-- The process block at each call of `fdalloc`. -/
def tables (call : Call) (k : Kernel) : List Proc :=
  match call with
  | .system op => op.tables k
  | .prlimit .. => []

/-- Every index of `ofile` that `fdalloc` and the loop of `processFork` read or write. -/
def indices (call : Call) (k : Kernel) : List Nat :=
  (call.tables k).flatMap Proc.looked ++
    match call with
    | .system op => op.copied k
    | .prlimit .. => []

/-- Every call of `fdalloc` has room. -/
def Meets (call : Call) (k : Kernel) : Prop := ∀ proc ∈ call.tables k, proc.Room

end Call

/-- The kernel and the indices so far. -/
structure History where
  kernel : Kernel
  log : List Nat

namespace History

inductive Step (ok : Call → Kernel → Prop) : History → History → Prop
  | call {h : History} {k' : Kernel} (call : Call) : call.Enabled h.kernel → ok call h.kernel → call.run h.kernel = some k' →
      Step ok h ⟨k', call.indices h.kernel ++ h.log⟩

def Start (h : History) : Prop := h.kernel.Init ∧ h.log = []

def Reached (ok : Call → Kernel → Prop) (h : History) : Prop := Reach Start (Step ok) h

end History

/-! ## One call of `fdalloc` -/

section Looked

variable {proc : Proc} {k k' : Kernel} {p f fd : Nat}

/-- The descriptor that is given out is the last index looked at. -/
theorem fdalloc_looked (h : fdalloc p f k = (some fd, k')) : fd ∈ (k.procs p).looked := by
  unfold fdalloc at h
  split at h
  · cases h
  · rename_i found hfind
    cases h
    unfold Proc.looked
    rw [hfind]
    exact List.mem_range.mpr (Nat.lt_succ_self fd)

/-- **The loop of `fdalloc` stays in the table** exactly where it has room. -/
theorem looked_lt_iff : (∀ i ∈ proc.looked, i < NOFILE) ↔ proc.Room := by
  unfold Proc.looked Proc.Room
  cases hfind : (List.range proc.hard).find? fun fd => (proc.ofile fd).isNone with
  | none =>
    have hall : ∀ fd < proc.hard, proc.ofile fd ≠ none := fun fd hfd hnone => by
      have := List.find?_eq_none.mp hfind fd (List.mem_range.mpr hfd)
      rw [hnone] at this
      exact this rfl
    constructor
    · intro hlt
      by_contra hno
      have hhard : NOFILE < proc.hard := Nat.lt_of_not_le fun hle => hno (.inl hle)
      exact Nat.lt_irrefl _ (hlt NOFILE (List.mem_range.mpr hhard))
    · rintro (hle | ⟨fd, hfd, hnone⟩) i hi
      · exact Nat.lt_of_lt_of_le (List.mem_range.mp hi) hle
      · have hhard : proc.hard ≤ fd := Nat.le_of_not_lt fun hlt => hall fd hlt hnone
        exact Nat.lt_trans (Nat.lt_of_lt_of_le (List.mem_range.mp hi) hhard) hfd
  | some fd =>
    obtain ⟨hfree, hmem, hfirst⟩ := List.find?_range_eq_some.mp hfind
    have hhard := List.mem_range.mp hmem
    have hnone : proc.ofile fd = none := Option.isNone_iff_eq_none.mp hfree
    constructor
    · intro hlt
      exact .inr ⟨fd, hlt fd (List.mem_range.mpr (Nat.lt_succ_self fd)), hnone⟩
    · intro hroom i hi
      have hi : i ≤ fd := Nat.lt_succ_iff.mp (List.mem_range.mp hi)
      refine Nat.lt_of_le_of_lt hi ?_
      rcases hroom with hle | ⟨free, hlt, hn⟩
      · exact Nat.lt_of_lt_of_le hhard hle
      · refine Nat.lt_of_le_of_lt (Nat.le_of_not_lt fun hbefore => ?_) hlt
        have := hfirst free hbefore
        rw [hn] at this
        cases this

end Looked

/-! ## What the calls write -/

/-- A slot that names a file after a call named it before, or its index is in `l`. -/
def Fills (k k' : Kernel) (l : List Nat) : Prop :=
  ∀ q i g, (k'.procs q).ofile i = some g → (k.procs q).ofile i = some g ∨ i ∈ l

section Fills

variable {k k₁ k' : Kernel} {l l' : List Nat} {p f fd : Nat} {r : Int}

theorem Fills.of_procs (h : k'.procs = k.procs) : Fills k k' l := fun q i g hg => by
  rw [h] at hg
  exact .inl hg

theorem Fills.trans (h : Fills k k₁ l) (h' : Fills k₁ k' l') : Fills k k' (l ++ l') := fun q i g hg => by
  rcases h' q i g hg with hg | hi
  · exact (h q i g hg).imp_right (List.mem_append_left _)
  · exact .inr (List.mem_append_right _ hi)

theorem Fills.mono (h : Fills k k' l) (hl : ∀ i ∈ l, i ∈ l') : Fills k k' l' := fun q i g hg => (h q i g hg).imp_right (hl i)

/-- A part of the call that leaves the tables alone. -/
theorem Fills.before (hprocs : k₁.procs = k.procs) (h : Fills k₁ k' l) : Fills k k' l := fun q i g hg => by
  rw [← hprocs]
  exact h q i g hg

theorem Fills.after (h : Fills k k₁ l) (hprocs : k'.procs = k₁.procs) : Fills k k' l := fun q i g hg => by
  rw [hprocs] at hg
  exact h q i g hg

/-- A new block with the old table. -/
theorem Fills.update (h : Fills k k₁ l) {proc : Proc} (hprocs : k'.procs = update k₁.procs p proc)
    (hofile : proc.ofile = (k₁.procs p).ofile) : Fills k k' l := fun q i g hg => by
  refine h q i g ?_
  rw [hprocs] at hg
  by_cases hq : q = p
  · subst hq
    rwa [update_self, hofile] at hg
  · rwa [update_of_ne hq] at hg

theorem fills_setSlot (k : Kernel) (p fd : Nat) (v : Option Nat) : Fills k (k.setSlot p fd v) [fd] := fun q i g hg => by
  by_cases hq : q = p
  · subst hq
    rw [setSlot_procs_self] at hg
    by_cases hi : i = fd
    · exact .inr (List.mem_singleton.mpr hi)
    · exact .inl ((update_of_ne hi v _).symm.trans hg)
  · rw [setSlot_procs_ne k hq] at hg
    exact .inl hg

/-- Giving a slot back. -/
theorem Fills.clear (h : Fills k k₁ l) (p fd : Nat) : Fills k (k₁.setSlot p fd none) l := fun q i g hg => by
  refine h q i g ?_
  by_cases hq : q = p
  · subst hq
    rw [setSlot_procs_self] at hg
    by_cases hi : i = fd
    · rw [hi] at hg
      cases (update_self fd none (k₁.procs q).ofile).symm.trans hg
    · exact (update_of_ne hi none _).symm.trans hg
  · rwa [setSlot_procs_ne k₁ hq] at hg

theorem procs_filealloc (h : filealloc k = some (f, k')) : k'.procs = k.procs := by
  unfold filealloc at h
  split at h
  · cases h
  · cases h
    rfl

theorem procs_filedup (h : filedup f k = .ok k') : k'.procs = k.procs := by
  unfold filedup at h
  split at h
  · cases h
  · cases h
    rfl

theorem procs_fileclose (h : fileclose f k = .ok k') : k'.procs = k.procs := by
  unfold fileclose at h
  dsimp only at h
  split at h
  · cases h
  · split at h
    · cases h
      rfl
    · split at h
      all_goals
        cases h
        rfl

theorem procs_socketAlloc {page : Bool} {s : Nat} (h : socketAlloc page k = .ok (s, k')) : k'.procs = k.procs := by
  unfold socketAlloc at h
  split at h
  · cases h
  · split at h
    · cases h
      rfl
    · cases h

theorem procs_pipeNew {ends : Option (Nat × Nat)} (h : pipeNew k = .ok (ends, k')) : k'.procs = k.procs := by
  unfold pipeNew at h
  split at h
  · cases h
    rfl
  · rename_i f0 k₀ h₀
    split at h
    · obtain ⟨k₁, hclose, h⟩ := Loop.map_ok h
      cases h
      exact (procs_fileclose hclose).trans (procs_filealloc h₀)
    · rename_i f1 k₁ h₁
      split at h
      · cases h
      · cases h
        exact (procs_filealloc h₁).trans (procs_filealloc h₀)

/-- `fdalloc` writes where it looked. -/
theorem fills_fdalloc {new : Option Nat} (h : fdalloc p f k = (new, k')) : Fills k k' (k.procs p).looked := by
  cases new with
  | none =>
    unfold fdalloc at h
    split at h
    · cases h
      exact .of_procs rfl
    · cases h
  | some fd =>
    have hmem := fdalloc_looked h
    unfold fdalloc at h
    split at h
    · cases h
    · cases h
      refine (fills_setSlot k p fd (some f)).mono fun i hi => ?_
      rw [List.mem_singleton.mp hi]
      exact hmem

/-- An open fills a slot that it has looked at. -/
theorem fills_openWith {fail : Int} {fill : File → File} (h : openWith p fail fill k = .ok (r, k')) :
    Fills k k' ((openTables p k).flatMap Proc.looked) := by
  obtain ⟨⟨pair, k₁⟩, hpair, h⟩ := Loop.map_ok h
  unfold allocPair at hpair
  split at hpair
  · cases hpair
    cases h
    exact .of_procs rfl
  · rename_i f k₂ hfile
    unfold openTables
    rw [hfile]
    rw [List.flatMap_singleton]
    have hprocs := procs_filealloc hfile
    split at hpair
    · rename_i k₃ hfd
      obtain ⟨k₄, hclose, hk₄⟩ := Loop.map_ok hpair
      cases hk₄
      cases h
      exact ((fills_fdalloc hfd).before hprocs).after (procs_fileclose hclose)
    · rename_i fd k₃ hfd
      cases hpair
      cases h
      exact ((fills_fdalloc hfd).before hprocs).after rfl

theorem procs_closeBoth {rf wf : Nat} (h : closeBoth rf wf k = .ok (r, k')) : k'.procs = k.procs := by
  obtain ⟨k₁, h₁, h⟩ := Loop.bind_ok h
  obtain ⟨k₂, h₂, h⟩ := Loop.map_ok h
  cases h
  exact (procs_fileclose h₂).trans (procs_fileclose h₁)

theorem fills_forkSlot {c i : Nat} (h : forkSlot p c k i = .ok k') : Fills k k' [i] := by
  unfold forkSlot at h
  split at h
  · cases h
    exact .of_procs rfl
  · obtain ⟨k₁, hdup, rfl⟩ := Loop.map_ok h
    exact (fills_setSlot k₁ c i _).before (procs_filedup hdup)

theorem fills_forkSlots {c : Nat} (is : List Nat) (h : is.foldlM (forkSlot p c) k = .ok k') : Fills k k' is := by
  induction is generalizing k with
  | nil =>
    cases h
    exact .of_procs rfl
  | cons i is ih =>
    rw [List.foldlM_cons] at h
    obtain ⟨k₁, h₁, h⟩ := Loop.bind_ok h
    exact (fills_forkSlot h₁).trans (ih h)

/-- A pipe fills two. -/
theorem fills_pipe {copied : Bool} (h : syscallPipe p copied k = .ok (r, k')) :
    Fills k k' (((Op.pipe p copied).tables k).flatMap Proc.looked) := by
  obtain ⟨⟨ends, k₁⟩, hends, h⟩ := Loop.bind_ok h
  have hprocs := procs_pipeNew hends
  unfold Op.tables
  rw [hends]
  cases ends with
  | none =>
    cases h
    exact .of_procs hprocs
  | some e =>
    obtain ⟨rf, wf⟩ := e
    dsimp only at h ⊢
    rw [List.flatMap_cons]
    cases hfd : fdalloc p rf k₁ with
    | mk new k₂ =>
      have hfirst := (fills_fdalloc hfd).before hprocs
      rw [hfd] at h
      cases new with
      | none =>
        rw [List.flatMap_nil, List.append_nil]
        exact hfirst.after (procs_closeBoth h)
      | some fd0 =>
        dsimp only at h ⊢
        rw [List.flatMap_singleton]
        cases hfd' : fdalloc p wf k₂ with
        | mk new' k₃ =>
          have hboth := hfirst.trans (fills_fdalloc hfd')
          rw [hfd'] at h
          cases new' with
          | none => exact (hboth.clear p fd0).after (procs_closeBoth h)
          | some fd1 =>
            dsimp only at h
            split at h
            · cases h
              exact hboth
            · exact ((hboth.clear p fd0).clear p fd1).after (procs_closeBoth h)

theorem fills_socket {page : Bool} (h : createSocket p page k = .ok (r, k')) :
    Fills k k' (((Op.socket p page).tables k).flatMap Proc.looked) := by
  unfold createSocket at h
  split at h
  · cases h
  · rename_i f k₁ hfile
    obtain ⟨⟨s, k₂⟩, hsocket, h⟩ := Loop.bind_ok h
    unfold Op.tables
    dsimp only at h ⊢
    rw [hfile]
    dsimp only
    rw [hsocket]
    rw [List.flatMap_singleton]
    generalize hfd : fdalloc p f _ = new at h
    obtain ⟨fd, k₃⟩ := new
    cases h
    exact (fills_fdalloc hfd).before ((procs_socketAlloc hsocket).trans (procs_filealloc hfile))

/-- An accepted connection fills one. -/
theorem fills_accept {sockfd : Int} {pending page : Bool} (h : accept p sockfd pending page k = .ok (r, k')) :
    Fills k k' (((Op.accept p sockfd pending page).tables k).flatMap Proc.looked) := by
  unfold accept at h
  unfold Op.tables
  split at h
  · cases h
  · rename_i f harg
    dsimp only
    rw [harg]
    dsimp only
    split at h
    · cases h
    · rename_i htype
      split at h
      · cases h
        exact .of_procs rfl
      · rename_i hpending
        rw [if_neg fun hor => hor.elim htype hpending]
        obtain ⟨⟨s, k₁⟩, hsocket, h⟩ := Loop.bind_ok h
        rw [hsocket]
        dsimp only at h ⊢
        split at h
        · cases h
        · rename_i f' k₂ hfile
          unfold openTables
          rw [hfile]
          rw [List.flatMap_singleton]
          generalize hfd : fdalloc p f' _ = new at h
          obtain ⟨fd, k₃⟩ := new
          cases h
          exact (fills_fdalloc hfd).before ((procs_filealloc hfile).trans (procs_socketAlloc hsocket))

/-- A descriptor for a file that is open already. -/
theorem fills_shared {new : Option Nat} (hfd : fdalloc p f k = (new, k₁)) (hdup : filedup f k₁ = .ok k') :
    Fills k k' ([k.procs p].flatMap Proc.looked) := by
  rw [List.flatMap_singleton]
  exact (fills_fdalloc hfd).after (procs_filedup hdup)

theorem fills_dup {d : Int} (h : syscallDup p d k = .ok (r, k')) : Fills k k' (((Op.dup p d).tables k).flatMap Proc.looked) := by
  unfold syscallDup at h
  unfold Op.tables
  split at h
  · cases h
    exact .of_procs rfl
  · rename_i f harg
    dsimp only
    rw [harg]
    split at h
    · rename_i hfd
      cases h
      exact List.flatMap_singleton .. ▸ fills_fdalloc hfd
    · rename_i fd k₁ hfd
      obtain ⟨k₂, hdup, h⟩ := Loop.map_ok h
      cases h
      exact fills_shared hfd hdup

theorem fills_fcntl {d : Int} (h : fcntlDupfd p d k = .ok (r, k')) :
    Fills k k' (((Op.fcntl p d).tables k).flatMap Proc.looked) := by
  unfold fcntlDupfd at h
  unfold Op.tables
  split at h
  · cases h
    exact .of_procs rfl
  · rename_i f harg
    dsimp only
    rw [harg]
    generalize hfd : fdalloc p f k = new at h
    obtain ⟨fd, k₁⟩ := new
    obtain ⟨k₂, hdup, h⟩ := Loop.map_ok h
    cases h
    exact fills_shared hfd hdup

/-- So does a temporary file. -/
theorem fills_openTmp {name : List UInt8} {flags : Nat} (h : tmpfileOpenAt p name flags k = .ok (r, k')) :
    Fills k k' (((Op.openTmp p name flags).tables k).flatMap Proc.looked) := by
  unfold tmpfileOpenAt at h
  unfold Op.tables
  dsimp only
  by_cases hcreate : flags &&& O_CREATE ≠ 0
  · rw [if_pos hcreate] at h ⊢
    obtain ⟨⟨t, k₁⟩, htmp, h⟩ := Loop.bind_ok h
    rw [htmp]
    have hprocs : k₁.procs = k.procs := by
      unfold tmpfileAlloc at htmp
      split at htmp
      · cases htmp
      · cases htmp
        rfl
    exact Fills.before hprocs (fills_openWith h)
  · rw [if_neg hcreate] at h ⊢
    cases hname : tmpfileName name k with
    | none =>
      rw [hname] at h
      cases h
      exact .of_procs rfl
    | some t =>
      rw [hname] at h
      exact fills_openWith h

theorem fills_device {major : Int} {omode : Nat} (h : syscallDevice p major omode k = .ok (r, k')) :
    Fills k k' (((Op.device p major omode).tables k).flatMap Proc.looked) := by
  unfold syscallDevice at h
  unfold Op.tables
  dsimp only
  split at h
  · cases h
  · rename_i hcreate
    split at h
    · cases h
      exact .of_procs rfl
    · rename_i hmajor
      rw [if_neg fun hor => hor.elim hcreate hmajor]
      exact fills_openWith h

theorem fills_close {d : Int} (h : syscallClose p d k = .ok (r, k')) : Fills k k' l := by
  unfold syscallClose at h
  split at h
  · cases h
    exact .of_procs rfl
  · obtain ⟨k₁, hclose, h⟩ := Loop.map_ok h
    cases h
    exact (Fills.clear (.of_procs rfl) p d.toNat).after (procs_fileclose hclose)

theorem fills_setupProc (c : Nat) (pgdir : Ppn) (k : Kernel) : Fills k (setupProc c pgdir k) l :=
  Fills.update (.of_procs rfl) rfl rfl

theorem fills_freeSlots (is : List Nat) (h : is.foldlM (freeSlot p) k = .ok k') : Fills k k' l := by
  refine Loop.foldlM_inv (Q := fun k' => Fills k k' l) h (.of_procs rfl) fun k₁ i k₂ hk hi => ?_
  unfold freeSlot at hi
  split at hi
  · cases hi
    exact hk
  · obtain ⟨k₃, hclose, rfl⟩ := Loop.map_ok hi
    exact (hk.after (procs_fileclose hclose)).clear p i

theorem fills_exit (h : processFree p k = .ok k') : Fills k k' l := by
  unfold processFree at h
  generalize List.range NOFILE = slots at h
  obtain ⟨k₁, hslots, rfl⟩ := Loop.map_ok h
  exact (fills_freeSlots slots hslots).update rfl rfl

/-- A call that returns something. -/
theorem Fills.call {x : Except Halt (Int × Kernel)} (h : x.map Prod.snd = .ok k') (hx : ∀ r, x = .ok (r, k') → Fills k k' l) :
    Fills k k' (l ++ []) := by
  obtain ⟨⟨r, k₁⟩, hcall, rfl⟩ := Loop.map_ok h
  rw [List.append_nil]
  exact hx r hcall

/-- **Every index a call writes** a file at is one of `indices`, `dup3` apart, which checks the descriptor it is given. -/
theorem exec_fills {op : Op} (hop : ∀ p fd fdnew, op ≠ .dup3 p fd fdnew) (h : exec op k = .ok k') :
    Fills k k' ((Call.system op).indices k) := by
  unfold exec at h
  unfold Call.indices Call.tables Op.copied
  cases op with
  | create p th pgdir =>
    cases h
    exact (fills_setupProc p pgdir k).after rfl
  | openEntry p found flags =>
    refine .call h fun r hcall => ?_
    cases found with
    | some e =>
      cases hcall
      exact .of_procs rfl
    | none =>
      unfold openEntry at hcall
      unfold Op.tables
      exact fills_openWith hcall
  | openTmp p name flags => exact .call h fun r => fills_openTmp
  | openInterp p => exact .call h fun r => fills_openWith
  | device p major omode => exact .call h fun r => fills_device
  | dup p d => exact .call h fun r => fills_dup
  | dup3 p fd fdnew => exact absurd rfl (hop p fd fdnew)
  | fcntl p d => exact .call h fun r => fills_fcntl
  | close p d => exact .call h fun r => fills_close
  | pipe p copied => exact .call h fun r => fills_pipe
  | socket p page => exact .call h fun r => fills_socket
  | accept p sockfd pending page => exact .call h fun r => fills_accept
  | fork p c th pgdir =>
    have h : processFork p c th pgdir k = .ok k' := h
    unfold processFork at h
    dsimp only at h ⊢
    generalize List.range ((setupProc c pgdir k).procs c).hard = slots at h ⊢
    obtain ⟨k₁, hslots, rfl⟩ := Loop.map_ok h
    exact ((fills_setupProc c pgdir k).trans (fills_forkSlots slots hslots)).after rfl
  | exit p => exact fills_exit h

theorem fills_prlimit {pid resource : Nat} {newLimit : Option Nat} (h : syscallPrlimit64 p pid resource newLimit k = some k') :
    Fills k k' l := by
  unfold syscallPrlimit64 at h
  split at h
  · cases h
  · split at h
    · split at h
      · cases h
        exact Fills.update (.of_procs rfl) rfl rfl
      · cases h
        exact .of_procs rfl
    · cases h
      exact .of_procs rfl

/-- `dup3` fills the slot it is given, which it compares with `NOFILE`. -/
theorem fills_dup3 {d fdnew : Int} (h : exec (.dup3 p d fdnew) k = .ok k') : ∃ l, Fills k k' l ∧ ∀ i ∈ l, i < NOFILE := by
  obtain ⟨⟨r, k₁⟩, hcall, rfl⟩ := Loop.map_ok h
  unfold syscallDupAndSet at hcall
  split at hcall
  · cases hcall
    exact ⟨[], .of_procs rfl, fun i hi => by cases hi⟩
  · rename_i f _
    split at hcall
    · cases hcall
      exact ⟨[], .of_procs rfl, fun i hi => by cases hi⟩
    · rename_i hrange
      obtain ⟨k₂, hprocs, hcall⟩ : ∃ k₂ : Kernel, k₂.procs = k.procs ∧
          (filedup f (k₂.setSlot p fdnew.toNat (some f))).map (fun k => (fdnew, k)) = .ok (r, k₁) := by
        split at hcall
        · exact ⟨k, rfl, hcall⟩
        · obtain ⟨k₂, hclose, hcall⟩ := Loop.bind_ok hcall
          exact ⟨k₂, procs_fileclose hclose, hcall⟩
      obtain ⟨k₃, hdup, hcall⟩ := Loop.map_ok hcall
      cases hcall
      refine ⟨[fdnew.toNat], ((fills_setSlot k₂ p _ _).before hprocs).after (procs_filedup hdup), fun i hi => ?_⟩
      rw [List.mem_singleton.mp hi]
      omega

end Fills

/-! ## Runs -/

/-- The loop of `processFork` goes by the limit of the new process. -/
theorem copied_lt (op : Op) (k : Kernel) : ∀ i ∈ op.copied k, i < NOFILE := by
  intro i hi
  unfold Op.copied at hi
  split at hi
  · rename_i c _ pgdir
    have hhard : ((setupProc c pgdir k).procs c).hard = NOFILE := by
      show Proc.hard (update k.procs c _ c) = NOFILE
      rw [update_self]
    rw [hhard] at hi
    exact List.mem_range.mp hi
  · cases hi

theorem indices_lt_iff (call : Call) (k : Kernel) : (∀ i ∈ call.indices k, i < NOFILE) ↔ call.Meets k := by
  constructor
  · intro h proc hproc
    refine looked_lt_iff.mp fun i hi => h i ?_
    exact List.mem_append_left _ (List.mem_flatMap.mpr ⟨proc, hproc, hi⟩)
  · intro h i hi
    rcases List.mem_append.mp hi with hi | hi
    · obtain ⟨proc, hproc, hi⟩ := List.mem_flatMap.mp hi
      exact looked_lt_iff.mpr (h proc hproc) i hi
    · cases call with
      | system op => exact copied_lt op k i hi
      | prlimit => cases hi

/-- **Every index is in the table**, over every run in which `fdalloc` always has room, and the next call keeps
it so exactly if it has room as well. -/
theorem indices_in_table {h : History} (hr : History.Reached Call.Meets h) :
    (∀ i ∈ h.log, i < NOFILE) ∧ ∀ call : Call, (∀ i ∈ call.indices h.kernel, i < NOFILE) ↔ call.Meets h.kernel := by
  refine ⟨?_, fun call => indices_lt_iff call h.kernel⟩
  have hinit : ∀ h : History, h.Start → ∀ i ∈ h.log, i < NOFILE := fun h hs i hi => by
    rw [hs.2] at hi
    cases hi
  refine Reach.invariant hr hinit fun h h' hlog hstep => ?_
  cases hstep with
  | call call _ hmeets _ =>
    intro i hi
    rcases List.mem_append.mp hi with hi | hi
    · exact (indices_lt_iff call h.kernel).mpr hmeets i hi
    · exact hlog i hi

theorem openTables_created : openTables 0 created = [created.procs 0] := by
  unfold openTables
  rw [filealloc_created]
  rfl

/-- Process 0 has been made and has opened a file. -/
theorem opened_logged {ok : Call → Kernel → Prop} (hcreate : ok (.system (.create 0 0 dirPage)) boot)
    (hopen : ok (.system (.openEntry 0 none 0)) created) : ∃ log, log ≠ [] ∧ History.Reached ok ⟨opened, log⟩ := by
  have hboot : History.Reached ok ⟨boot, []⟩ := .init ⟨boot_init, rfl⟩
  have henabled : (Call.system (.create 0 0 dirPage)).Enabled boot := ⟨rfl, by decide, rfl, rfl⟩
  have henabled' : (Call.system (.openEntry 0 none 0)).Enabled created := ⟨rfl, by decide, rfl⟩
  have hrun : (Call.system (.openEntry 0 none 0)).run created = some opened := by
    unfold Call.run
    dsimp only
    rw [exec_open]
    rfl
  have hcreated := hboot.step (.call _ henabled hcreate (congrArg Except.toOption exec_create))
  have hopened := hcreated.step (.call _ henabled' hopen hrun)
  refine ⟨_, fun hnil => ?_, hopened⟩
  have hempty : (Call.system (.openEntry 0 none 0)).indices created = [] := (List.append_eq_nil_iff.mp hnil).1
  have hzero : 0 ∈ (Call.system (.openEntry 0 none 0)).indices created := by
    have htable : created.procs 0 ∈ openTables 0 created := by
      rw [openTables_created]
      exact List.mem_singleton_self _
    refine List.mem_append_left _ (List.mem_flatMap.mpr ⟨created.procs 0, htable, ?_⟩)
    exact fdalloc_looked (fdalloc_created rfl 0)
  rw [hempty] at hzero
  cases hzero

/-- One process opens a file, and the index is below the limit. -/
theorem indices_in_table_opened : ∃ h, History.Reached Call.Meets h ∧ h.log ≠ [] ∧ ∀ i ∈ h.log, i < NOFILE := by
  have hmeets : (Call.system (.openEntry 0 none 0)).Meets created := fun proc hproc => by
    have hproc : proc ∈ openTables 0 created := hproc
    rw [openTables_created] at hproc
    rw [List.mem_singleton.mp hproc]
    exact .inl (Nat.le_refl NOFILE)
  have hcreate : (Call.system (.create 0 0 dirPage)).Meets boot := fun proc hproc => by cases hproc
  obtain ⟨log, hne, h⟩ := opened_logged hcreate hmeets
  exact ⟨_, h, hne, (indices_in_table h).1⟩

/-- **No file behind the table**: after every run in which `fdalloc` always has room, the slots that name files are
those of the table, whatever else was called. -/
theorem files_in_table {h : History} (hr : History.Reached Call.Meets h) {q i g : Nat}
    (hg : (h.kernel.procs q).ofile i = some g) : i < NOFILE := by
  have hinit : ∀ h : History, h.Start → ∀ q i g, (h.kernel.procs q).ofile i = some g → i < NOFILE := fun h hs q i g hg => by
    obtain ⟨-, -, -, -, hprocs, -⟩ := hs.1
    rw [(hprocs q).2 i] at hg
    cases hg
  refine Reach.invariant hr hinit (fun h h' hall hstep => ?_) q i g hg
  cases hstep with
  | call call _ hmeets hrun =>
    obtain ⟨l, hfills, hl⟩ : ∃ l, Fills h.kernel _ l ∧ ∀ i ∈ l, i < NOFILE := by
      cases call with
      | system op =>
        have hexec := Loop.ok_of_toOption hrun
        by_cases hop : ∃ p fd fdnew, op = .dup3 p fd fdnew
        · obtain ⟨p, fd, fdnew, rfl⟩ := hop
          exact fills_dup3 hexec
        · exact ⟨_, exec_fills (fun p fd fdnew heq => hop ⟨p, fd, fdnew, heq⟩) hexec,
            (indices_lt_iff (.system op) h.kernel).mpr hmeets⟩
      | prlimit p pid resource newLimit => exact ⟨[], fills_prlimit hrun, fun i hi => by cases hi⟩
    intro q i g hg
    exact (hfills q i g hg).elim (hall q i g) (hl i)

/-- The file that was opened is in the table. -/
theorem files_in_table_opened : ∃ h : History, History.Reached Call.Meets h ∧ ∃ i, (h.kernel.procs 0).ofile i = some 1 ∧ i < NOFILE := by
  have hmeets : (Call.system (.openEntry 0 none 0)).Meets created := fun proc hproc => by
    rw [List.mem_singleton.mp (openTables_created ▸ hproc : proc ∈ [created.procs 0])]
    exact .inl (Nat.le_refl NOFILE)
  obtain ⟨log, -, h⟩ := opened_logged (fun proc hproc => by cases hproc) hmeets
  have hfile : (opened.procs 0).ofile 0 = some 1 := rfl
  exact ⟨_, h, 0, hfile, files_in_table h hfile⟩

/-! ## A raised limit -/

/-- Process 0 with the limit `hard` and `n + 1` descriptors for one file. -/
def crowded (hard n : Nat) : Proc := ⟨true, fun fd => if fd ≤ n then some 1 else none, hard, dirPage⟩

def shared (n : Nat) : File := ⟨.entry, n + 1, true, false, 0, 0, 0⟩

/-- The kernel with these files and processes. -/
def holding (files : Nat → File) (procs : Nat → Proc) : Kernel :=
  ⟨opened.world, files, procs, opened.sockets, opened.tmpfiles, opened.images, opened.owner⟩

def filled (hard n : Nat) : Kernel :=
  holding (update opened.files 1 (shared n)) (update opened.procs 0 (crowded hard n))

theorem filled_proc (hard n : Nat) : (filled hard n).procs 0 = crowded hard n := by
  show update opened.procs 0 (crowded hard n) 0 = _
  rw [update_self]

theorem prlimit_opened (hard : Nat) : (Call.prlimit 0 0 RLIMIT_NOFILE (some hard)).run opened = some (filled hard 0) := by
  have hfile : update opened.files 1 (shared 0) = opened.files := Function.update_eq_self_iff.mpr rfl
  have hproc : crowded hard 0 = { opened.procs 0 with hard := hard } := by
    show (⟨true, _, hard, dirPage⟩ : Proc) = ⟨true, _, hard, dirPage⟩
    congr 1
    funext fd
    cases fd with
    | zero => rfl
    | succ fd => rfl
  unfold filled
  rw [hfile, hproc]
  rfl

/-- The first free descriptor. -/
theorem crowded_find {hard n : Nat} (hn : n + 1 < hard) :
    ((List.range (crowded hard n).hard).find? fun fd => ((crowded hard n).ofile fd).isNone) = some (n + 1) := by
  refine List.find?_range_eq_some.mpr ⟨?_, List.mem_range.mpr hn, fun j hj => ?_⟩
  · show (if n + 1 ≤ n then some 1 else none).isNone = true
    rw [if_neg (Nat.not_succ_le_self n)]
    rfl
  · show (!(if j ≤ n then some 1 else none).isNone) = true
    rw [if_pos (Nat.le_of_lt_succ hj)]
    rfl

theorem enabled_dup (hard n : Nat) : (Call.system (.dup 0 0)).Enabled (filled hard n) :=
  ⟨rfl, by decide, congrArg Proc.live (filled_proc hard n)⟩

theorem argfd_filled (hard n : Nat) : (filled hard n).argfd 0 0 = some 1 := by
  unfold Kernel.argfd
  rw [if_pos (by decide), filled_proc]
  show (if 0 ≤ n then some 1 else none) = some 1
  rw [if_pos (Nat.zero_le n)]

theorem crowded_succ (hard n : Nat) :
    { crowded hard n with ofile := update (crowded hard n).ofile (n + 1) (some 1) } = crowded hard (n + 1) := by
  show (⟨true, _, hard, dirPage⟩ : Proc) = ⟨true, _, hard, dirPage⟩
  congr 1
  funext fd
  by_cases hfd : fd = n + 1
  · rw [hfd, update_self, if_pos (Nat.le_refl _)]
  · rw [update_of_ne hfd]
    show (if fd ≤ n then some 1 else none) = _
    by_cases hle : fd ≤ n
    · rw [if_pos hle, if_pos (Nat.le_succ_of_le hle)]
    · rw [if_neg hle, if_neg fun h => (Nat.le_or_eq_of_le_succ h).elim hle hfd]

/-- One descriptor more. -/
theorem dup_filled {hard n : Nat} (hn : n + 1 < hard) :
    (Call.system (.dup 0 0)).run (filled hard n) = some (filled hard (n + 1)) := by
  have halloc : fdalloc 0 1 (filled hard n) = (some (n + 1), (filled hard n).setSlot 0 (n + 1) (some 1)) := by
    unfold fdalloc
    rw [filled_proc, crowded_find hn]
  have hslot : (filled hard n).setSlot 0 (n + 1) (some 1) =
      holding (update opened.files 1 (shared n)) (update opened.procs 0 (crowded hard (n + 1))) := by
    unfold Kernel.setSlot
    rw [filled_proc, crowded_succ]
    unfold filled holding
    dsimp only
    rw [update_idem]
  have hdup : filedup 1 ((filled hard n).setSlot 0 (n + 1) (some 1)) = .ok (filled hard (n + 1)) := by
    have hfile : (holding (update opened.files 1 (shared n))
        (update opened.procs 0 (crowded hard (n + 1)))).files 1 = shared n := by
      show update opened.files 1 (shared n) 1 = _
      rw [update_self]
    unfold filedup
    rw [hslot, hfile, if_neg (by show ¬ (n : Int) + 1 < 1; omega)]
    unfold Kernel.setFile filled holding
    rw [update_idem]
    rfl
  unfold Call.run exec syscallDup
  dsimp only
  rw [argfd_filled]
  dsimp only
  rw [halloc]
  dsimp only
  rw [hdup]
  rfl

theorem indices_dup {hard n : Nat} (hn : n + 1 < hard) :
    (Call.system (.dup 0 0)).indices (filled hard n) = List.range (n + 2) := by
  unfold Call.indices Call.tables Op.tables
  dsimp only
  rw [argfd_filled]
  rw [filled_proc, List.flatMap_singleton]
  unfold Proc.looked
  rw [crowded_find hn]
  exact List.append_nil _

/-- With its limit raised process 0 takes every descriptor of the table. -/
theorem filled_reached {hard : Nat} (n : Nat) (hn : n < hard) :
    ∃ log, History.Reached (fun _ _ => True) ⟨filled hard n, log⟩ := by
  induction n with
  | zero =>
    have hopened : ∃ log, log ≠ [] ∧ History.Reached (fun _ _ => True) ⟨opened, log⟩ := opened_logged trivial trivial
    obtain ⟨log, -, h⟩ := hopened
    have henabled : (Call.prlimit 0 0 RLIMIT_NOFILE (some hard)).Enabled opened := ⟨by decide, rfl⟩
    exact ⟨_, h.step (.call _ henabled trivial (prlimit_opened hard))⟩
  | succ n ih =>
    obtain ⟨log, h⟩ := ih (Nat.lt_of_succ_lt hn)
    exact ⟨_, h.step (.call _ (enabled_dup hard n) trivial (dup_filled hn))⟩

/-- One `dup` more gives out the descriptor `NOFILE`. -/
theorem dup_behind_table : ∃ h, History.Reached (fun _ _ => True) h ∧ NOFILE ∈ h.log ∧
    (h.kernel.procs 0).ofile NOFILE = some 1 := by
  have hn : 1023 + 1 < 2000 := by decide
  obtain ⟨log, h⟩ := filled_reached 1023 (Nat.lt_of_succ_lt hn)
  have hindices := indices_dup hn
  have hreached := h.step (.call _ (enabled_dup 2000 1023) trivial (dup_filled hn))
  have hproc := filled_proc 2000 (1023 + 1)
  generalize filled 2000 (1023 + 1) = k at hreached hproc
  refine ⟨_, hreached, List.mem_append_left _ ?_, ?_⟩
  · show NOFILE ∈ (Call.system (.dup 0 0)).indices (filled 2000 1023)
    rw [hindices]
    exact List.mem_range.mpr (by decide)
  · show (k.procs 0).ofile NOFILE = some 1
    rw [hproc]
    show (if NOFILE ≤ 1023 + 1 then some 1 else none) = some 1
    rw [if_pos (by decide)]

end Exaros.Files
