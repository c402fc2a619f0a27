import Exaros.Lib.Bitmap
import Exaros.Lib.Linked
import Exaros.Lib.Run
import Exaros.Process.Exec

/-!
# The pool of segment maps

`kernel/process/segment.c`, and what `processFork`, `exec` and `processFree` do with it. The maps of a process
are a list through `next`, and a bit of `segmentMapBitmap` is set for each map in use. A call of `exec` reads
the file between its steps on the pool, so other processes may take steps there; the copies of a fork and the
release of a whole list are made in one go.
-/

namespace Exaros.Segments

open Loop Run
open Exec (Phdr PT_LOAD u32 appendLoad)
open Function (update update_self update_of_ne update_idem update_eq_self)

def SEGMENT_MAP_NUMBER : Nat := 1024

/-- What a segment map says of its segment. -/
structure Segment where
  src : Option Nat
  srcOffset : Nat
  loadAddr : Nat
  len : Nat
  flag : Pte
deriving DecidableEq

structure SegmentMap extends Segment where
  next : Option Nat

inductive State
  | unused
  | live
  | zombie
deriving DecidableEq

/-- A call of `exec`: the file is open, or `left` program headers are still to be read. -/
inductive Call
  | opened (p : Nat)
  | traversing (p src interpOffset left : Nat)
deriving DecidableEq

def Call.process : Call → Nat
  | .opened p => p
  | .traversing p _ _ _ => p

structure World where
  segmentMapBitmap : Bitmap.Words
  segmentMaps : Nat → SegmentMap
  segmentMapHead : Nat → Option Nat
  state : Nat → State
  /-- the calls of `exec` that threads are in -/
  calls : Nat → Option Call

/-- Where a step stops for good. -/
inductive Halt
  /-- `segmentMapAlloc`: "segment run out!" -/
  | runOut
  /-- a list has no end -/
  | endless
deriving DecidableEq

/-! ## The functions -/

/-- **`segmentMapAlloc`** -/
def segmentMapAlloc (s : World) : Except Halt (Nat × World) :=
  match Bitmap.findClear s.segmentMapBitmap (SEGMENT_MAP_NUMBER / 64) 0 with
  | some sm => .ok (sm, { s with segmentMapBitmap := Bitmap.set s.segmentMapBitmap sm })
  | none => .error .runOut

/-- **`segmentMapAppend`** -/
def segmentMapAppend (p sm : Nat) (s : World) : World :=
  { s with
    segmentMaps := update s.segmentMaps sm { s.segmentMaps sm with next := s.segmentMapHead p }
    segmentMapHead := update s.segmentMapHead p (some sm) }

/-- **`segmentMapFree`** -/
def segmentMapFree (sm : Nat) (s : World) : World :=
  { s with segmentMapBitmap := Bitmap.clear s.segmentMapBitmap sm }

/-- The loop of `processSegmentMapFree` from `sm` on. -/
def freeFrom : Nat → Option Nat → World → Except Halt World
  | 0, _, _ => .error .endless
  | _ + 1, none, s => .ok s
  | n + 1, some sm, s => freeFrom n (s.segmentMaps sm).next (segmentMapFree sm s)

/-- No list is longer than the pool. -/
def listFuel : Nat := SEGMENT_MAP_NUMBER + 1

/-- **`processSegmentMapFree`** -/
def processSegmentMapFree (p : Nat) (s : World) : Except Halt World := do
  let s ← freeFrom listFuel (s.segmentMapHead p) s
  .ok { s with segmentMapHead := update s.segmentMapHead p none }

/-- The loop of `processFork` over the parent's maps from `psm` on, for the child `p`. -/
def copyFrom (p : Nat) : Nat → Option Nat → World → Except Halt World
  | 0, _, _ => .error .endless
  | _ + 1, none, s => .ok s
  | n + 1, some psm, s => do
    let (new, s) ← segmentMapAlloc s
    let s := { s with segmentMaps := update s.segmentMaps new (s.segmentMaps psm) }
    let s := segmentMapAppend p new s
    copyFrom p n (s.segmentMaps psm).next s

/-- A map of `segmentTraverse`, allocated, filled in and appended. -/
def addSegment (p : Nat) (seg : Segment) (s : World) : Except Halt World := do
  let (sm, s) ← segmentMapAlloc s
  let s := { s with segmentMaps := update s.segmentMaps sm { s.segmentMaps sm with toSegment := seg } }
  .ok (segmentMapAppend p sm s)

/-- The map of the part of a segment that lies in the file. -/
def fileSegment (src interpOffset : Nat) (ph : Phdr) : Segment :=
  ⟨some src, ph.offset, u64 (ph.vaddr + interpOffset), u32 ph.filesz, PTE_EXECUTE_BIT ||| PTE_READ_BIT ||| PTE_WRITE_BIT⟩

/-- The map of the part that starts as zeros. -/
def bssSegment (interpOffset : Nat) (ph : Phdr) : Segment :=
  ⟨none, 0, u64 (ph.vaddr + ph.filesz + interpOffset), u32 (ph.memsz - ph.filesz), PTE_READ_BIT ||| PTE_WRITE_BIT ||| MAP_ZERO⟩

/-- One header in `segmentTraverse`. -/
def loadHeader (p src interpOffset : Nat) (ph : Phdr) (s : World) : Except Halt World :=
  if ph.type = PT_LOAD then do
    let s ← (if 0 < ph.filesz then addSegment p (fileSegment src interpOffset ph) s else .ok s)
    if ph.filesz < ph.memsz then addSegment p (bssSegment interpOffset ph) s else .ok s
  else .ok s

/-! ## Runs -/

inductive Event
  /-- the kernel sets up a process of its own -/
  | create (p : Nat)
  | fork (parent child : Nat)
  /-- thread `t` is in `exec` and has found its file, by its path or as the interpreter of a script -/
  | exec (t p : Nat)
  /-- the file has an ELF header with `phnum` program headers -/
  | elf (t src interpOffset phnum : Nat)
  | phdr (t : Nat) (ph : Phdr)
  /-- `exec` returns, also when it does not find the interpreter of a script -/
  | done (t : Nat)
  | exit (p : Nat)
  /-- the parent waits for the process -/
  | reap (p : Nat)

def Enabled (s : World) : Event → Prop
  | .create p => s.state p = .unused
  | .fork parent child => s.state parent = .live ∧ s.state child = .unused
  | .exec t p => s.state p = .live ∧ (s.calls t = none ∨ s.calls t = some (.opened p))
  | .elf t _ _ _ => ∃ p, s.calls t = some (.opened p)
  | .phdr t _ => ∃ p src interpOffset left, s.calls t = some (.traversing p src interpOffset (left + 1))
  | .done t => (∃ p, s.calls t = some (.opened p)) ∨ ∃ p src interpOffset, s.calls t = some (.traversing p src interpOffset 0)
  | .exit p => s.state p = .live
  | .reap p => s.state p = .zombie

def setState (s : World) (p : Nat) (st : State) : World := { s with state := update s.state p st }

def setCall (s : World) (t : Nat) (c : Option Call) : World := { s with calls := update s.calls t c }

def perform (s : World) : Event → Except Halt World
  | .create p => .ok (setState s p .live)
  | .fork parent child => copyFrom child listFuel (s.segmentMapHead parent) (setState s child .live)
  | .exec t p => (processSegmentMapFree p s).map fun s => setCall s t (some (.opened p))
  | .elf t src interpOffset phnum =>
    match s.calls t with
    | some (.opened p) => .ok (setCall s t (some (.traversing p src interpOffset phnum)))
    | _ => .ok s
  | .phdr t ph =>
    match s.calls t with
    | some (.traversing p src interpOffset (left + 1)) =>
      (loadHeader p src interpOffset ph s).map fun s => setCall s t (some (.traversing p src interpOffset left))
    | _ => .ok s
  | .done t => .ok (setCall s t none)
  | .exit p => (processSegmentMapFree p s).map fun s =>
      { setState s p .zombie with calls := fun t => if (s.calls t).map Call.process = some p then none else s.calls t }
  | .reap p => .ok (setState s p .unused)

structure Initial (s : World) : Prop where
  segmentMapBitmap : s.segmentMapBitmap = fun _ => 0
  segmentMapHead : ∀ p, s.segmentMapHead p = none
  state : ∀ p, s.state p = .unused
  calls : ∀ t, s.calls t = none

def Next (s s' : World) : Prop := ∃ e, Enabled s e ∧ perform s e = .ok s'

/-! ## The invariant -/

def World.next (s : World) (sm : Nat) : Option Nat := (s.segmentMaps sm).next

def World.segment (s : World) (sm : Nat) : Segment := (s.segmentMaps sm).toSegment

/-- `lists` are the lists of the processes: they are apart, and the bitmap has their maps. -/
structure Inv (s : World) (lists : Nat → List Nat) : Prop where
  cells : ∀ p, Linked.Cells s.next (s.segmentMapHead p) (lists p)
  used : ∀ sm, Bitmap.get s.segmentMapBitmap sm = true ↔ ∃ p, sm ∈ lists p
  apart : ∀ p q, p ≠ q → (lists p).Disjoint (lists q)
  lt : ∀ p, ∀ sm ∈ lists p, sm < SEGMENT_MAP_NUMBER
  quiet : ∀ p, s.state p ≠ .live → lists p = []
  calls : ∀ t c, s.calls t = some c → s.state c.process = .live

theorem Initial.inv {s : World} (h : Initial s) : Inv s fun _ => [] where
  cells := fun p => by
    rw [h.segmentMapHead p]
    exact .nil
  used := fun sm => by
    rw [h.segmentMapBitmap]
    simp [Bitmap.get]
  apart := fun _ _ _ => List.disjoint_nil_left _
  lt := fun _ _ hi => (List.not_mem_nil hi).elim
  quiet := fun _ _ => rfl
  calls := fun t c hc => by
    rw [h.calls t] at hc
    cases hc

section Pool

variable {s s₁ s' : World} {lists lists₁ lists' : Nat → List Nat} {p : Nat} {seg : Segment} {segs segs' : List Segment}

theorem Inv.length_lt (h : Inv s lists) (p : Nat) : (lists p).length < listFuel := by
  have hsub : lists p ⊆ List.range SEGMENT_MAP_NUMBER := fun i hi => List.mem_range.mpr (h.lt p i hi)
  have hle := (List.subperm_of_subset (h.cells p).nodup hsub).length_le
  rw [List.length_range] at hle
  exact Nat.lt_succ_of_le hle

/-- **`segmentMapAlloc`** stops just when every map is in use. -/
theorem segmentMapAlloc_error {e : Halt} :
    segmentMapAlloc s = .error e ↔ e = .runOut ∧ ∀ sm < SEGMENT_MAP_NUMBER, Bitmap.get s.segmentMapBitmap sm = true := by
  unfold segmentMapAlloc
  cases hfind : Bitmap.findClear s.segmentMapBitmap (SEGMENT_MAP_NUMBER / 64) 0 with
  | none =>
    simp only [Except.error.injEq]
    refine ⟨fun he => ⟨he.symm, fun sm hsm => ?_⟩, fun h => h.1.symm⟩
    cases hbit : Bitmap.get s.segmentMapBitmap sm with
    | true => rfl
    | false =>
      have hend : sm < (0 + SEGMENT_MAP_NUMBER / 64) * 64 := hsm
      obtain ⟨c, hc⟩ := Bitmap.exists_findClear (Nat.zero_mul 64 ▸ Nat.zero_le sm) hend hbit
      rw [hfind] at hc
      cases hc
  | some sm =>
    obtain ⟨-, hlt, hclear, -⟩ := Bitmap.findClear_eq_some hfind
    simp only [reduceCtorEq, false_iff, not_and]
    intro _ hall
    rw [hall sm hlt] at hclear
    cases hclear

theorem segmentMapAlloc_ok {sm : Nat} (h : segmentMapAlloc s = .ok (sm, s')) :
    sm < SEGMENT_MAP_NUMBER ∧ Bitmap.get s.segmentMapBitmap sm = false ∧
      s' = { s with segmentMapBitmap := Bitmap.set s.segmentMapBitmap sm } := by
  unfold segmentMapAlloc at h
  split at h
  · rename_i c hc
    cases h
    have hfound := Bitmap.findClear_eq_some hc
    exact ⟨hfound.2.1, hfound.2.2.1, rfl⟩
  · cases h

/-- A clear map becomes the first of `p`. -/
def place (p sm : Nat) (seg : Segment) (s : World) : World :=
  { s with
    segmentMapBitmap := Bitmap.set s.segmentMapBitmap sm
    segmentMaps := update s.segmentMaps sm ⟨seg, s.segmentMapHead p⟩
    segmentMapHead := update s.segmentMapHead p (some sm) }

/-- Whatever link the filled map had, **`segmentMapAppend`** sets it. -/
theorem segmentMapAppend_eq_place (p sm : Nat) (c : SegmentMap) (s : World) :
    segmentMapAppend p sm { s with
      segmentMapBitmap := Bitmap.set s.segmentMapBitmap sm, segmentMaps := update s.segmentMaps sm c } =
      place p sm c.toSegment s := by
  unfold segmentMapAppend place
  simp only [update_self, update_idem]

/-- The list of `p` has grown by `segs`, the last one in front; all other maps are as they were. -/
structure Grew (p : Nat) (segs : List Segment) (s : World) (lists : Nat → List Nat) (s' : World)
    (lists' : Nat → List Nat) : Prop where
  inv : Inv s' lists'
  mine : ∃ new, lists' = update lists p (new ++ lists p) ∧ new.map s'.segment = segs.reverse
  kept : ∀ q, ∀ sm ∈ lists q, s'.segmentMaps sm = s.segmentMaps sm
  heads : ∀ q, q ≠ p → s'.segmentMapHead q = s.segmentMapHead q
  state : s'.state = s.state
  calls : s'.calls = s.calls

theorem Grew.refl (h : Inv s lists) (p : Nat) : Grew p [] s lists s lists where
  inv := h
  mine := ⟨[], by rw [List.nil_append, update_eq_self], rfl⟩
  kept := fun _ _ _ => rfl
  heads := fun _ _ => rfl
  state := rfl
  calls := rfl

theorem Grew.mem (h : Grew p segs s lists s₁ lists₁) {q sm : Nat} (hi : sm ∈ lists q) : sm ∈ lists₁ q := by
  obtain ⟨new, rfl, -⟩ := h.mine
  by_cases hq : q = p
  · subst hq
    rw [update_self]
    exact List.mem_append_right _ hi
  · rw [update_of_ne hq]
    exact hi

theorem Grew.trans (h : Grew p segs s lists s₁ lists₁) (h' : Grew p segs' s₁ lists₁ s' lists') :
    Grew p (segs ++ segs') s lists s' lists' where
  inv := h'.inv
  mine := by
    obtain ⟨new, hlists, hnew⟩ := h.mine
    obtain ⟨new', hlists', hnew'⟩ := h'.mine
    have hp : lists₁ p = new ++ lists p := by rw [hlists, update_self]
    refine ⟨new' ++ new, ?_, ?_⟩
    · rw [hlists', hp, hlists, update_idem, List.append_assoc]
    · rw [List.map_append, hnew', List.reverse_append, ← hnew]
      refine congrArg _ (List.map_congr_left fun i hi => congrArg SegmentMap.toSegment (h'.kept p i ?_))
      rw [hp]
      exact List.mem_append_left _ hi
  kept := fun q i hi => (h'.kept q i (h.mem hi)).trans (h.kept q i hi)
  heads := fun q hq => (h'.heads q hq).trans (h.heads q hq)
  state := h'.state.trans h.state
  calls := h'.calls.trans h.calls

/-- A segment taken for a process goes to the front of its list. -/
theorem Inv.place (h : Inv s lists) {sm : Nat} (hlt : sm < SEGMENT_MAP_NUMBER) (hclear : Bitmap.get s.segmentMapBitmap sm = false)
    (hlive : s.state p = .live) (seg : Segment) :
    Grew p [seg] s lists (place p sm seg s) (update lists p (sm :: lists p)) := by
  have hnew : ∀ q, sm ∉ lists q := fun q hmem => by
    rw [(h.used sm).mpr ⟨q, hmem⟩] at hclear
    cases hclear
  have hnode : ∀ q, ∀ i ∈ lists q, (Segments.place p sm seg s).segmentMaps i = s.segmentMaps i := fun q i hi =>
    update_of_ne (fun e : i = sm => hnew q (e ▸ hi)) ..
  have hself : (Segments.place p sm seg s).segmentMaps sm = ⟨seg, s.segmentMapHead p⟩ := update_self ..
  have hinv : Inv (Segments.place p sm seg s) (update lists p (sm :: lists p)) := by
    refine ⟨fun q => ?_, fun i => ?_, fun q r hqr => ?_, fun q i hi => ?_, fun q hq => ?_, h.calls⟩
    · by_cases hq : q = p
      · subst hq
        rw [update_self, show (Segments.place q sm seg s).segmentMapHead q = some sm from update_self ..]
        exact (h.cells q).push (fun i hi => congrArg SegmentMap.next (hnode q i hi)) (congrArg SegmentMap.next hself)
      · rw [update_of_ne hq,
          show (Segments.place p sm seg s).segmentMapHead q = s.segmentMapHead q from update_of_ne hq ..]
        exact (h.cells q).congr fun i hi => congrArg SegmentMap.next (hnode q i hi)
    · show Bitmap.get (Bitmap.set s.segmentMapBitmap sm) i = true ↔ _
      rw [Bitmap.get_set, Bool.or_eq_true, decide_eq_true_eq, h.used]
      constructor
      · rintro (rfl | ⟨q, hq⟩)
        · exact ⟨p, by rw [update_self]; exact List.mem_cons_self⟩
        · by_cases hqp : q = p
          · subst hqp
            exact ⟨q, by rw [update_self]; exact List.mem_cons_of_mem _ hq⟩
          · exact ⟨q, by rw [update_of_ne hqp]; exact hq⟩
      · rintro ⟨q, hq⟩
        by_cases hqp : q = p
        · subst hqp
          rw [update_self] at hq
          exact (List.mem_cons.mp hq).imp id fun hq => ⟨q, hq⟩
        · rw [update_of_ne hqp] at hq
          exact .inr ⟨q, hq⟩
    · by_cases hq : q = p
      · subst hq
        rw [update_self, update_of_ne (Ne.symm hqr)]
        exact List.disjoint_cons_left.mpr ⟨hnew r, h.apart q r hqr⟩
      · rw [update_of_ne hq]
        by_cases hr : r = p
        · subst hr
          rw [update_self]
          exact List.disjoint_cons_right.mpr ⟨hnew q, h.apart q r hqr⟩
        · rw [update_of_ne hr]
          exact h.apart q r hqr
    · by_cases hq : q = p
      · subst hq
        rw [update_self] at hi
        rcases List.mem_cons.mp hi with rfl | hi
        · exact hlt
        · exact h.lt q i hi
      · rw [update_of_ne hq] at hi
        exact h.lt q i hi
    · have hne : q ≠ p := by
        rintro rfl
        exact hq hlive
      rw [update_of_ne hne]
      exact h.quiet q hq
  refine ⟨hinv, ⟨[sm], rfl, ?_⟩, hnode, fun q hq => update_of_ne hq .., rfl, rfl⟩
  rw [List.map_singleton, List.reverse_singleton]
  exact congrArg (fun c : SegmentMap => [c.toSegment]) hself

/-- How a function on the pool may end: it ran out of maps, or the list of `p` has grown by `segs`. -/
def Grows (p : Nat) (segs : List Segment) (s : World) (lists : Nat → List Nat) : Except Halt World → Prop :=
  Outcome (fun e => e = .runOut) fun s' => ∃ lists', Grew p segs s lists s' lists'

theorem Inv.addSegment (h : Inv s lists) (hlive : s.state p = .live) (seg : Segment) :
    Grows p [seg] s lists (addSegment p seg s) := by
  cases halloc : segmentMapAlloc s with
  | error e =>
    rw [Segments.addSegment, halloc]
    exact .error (segmentMapAlloc_error.mp halloc).1
  | ok r =>
    obtain ⟨sm, s₁⟩ := r
    obtain ⟨hlt, hclear, rfl⟩ := segmentMapAlloc_ok halloc
    rw [Segments.addSegment, halloc]
    refine .ok ⟨update lists p (sm :: lists p), ?_⟩
    exact segmentMapAppend_eq_place p sm { s.segmentMaps sm with toSegment := seg } s ▸ h.place hlt hclear hlive seg

theorem Grows.bind {x : Except Halt World} {f : World → Except Halt World} (h : Grows p segs s lists x)
    (hf : ∀ s₁ lists₁, Grew p segs s lists s₁ lists₁ → Grows p segs' s₁ lists₁ (f s₁)) :
    Grows p (segs ++ segs') s lists (x >>= f) := by
  refine Outcome.bind h fun s₁ hs₁ => ?_
  obtain ⟨lists₁, hgrew⟩ := hs₁
  refine (hf s₁ lists₁ hgrew).mono (fun _ he => he) fun s' hs' => ?_
  obtain ⟨lists', hgrew'⟩ := hs'
  exact ⟨lists', hgrew.trans hgrew'⟩

/-- The maps `segmentTraverse` makes of a header. -/
def headerSegments (src interpOffset : Nat) (ph : Phdr) : List Segment :=
  if ph.type = PT_LOAD then
    (if 0 < ph.filesz then [fileSegment src interpOffset ph] else []) ++
      (if ph.filesz < ph.memsz then [bssSegment interpOffset ph] else [])
  else []

/-- The segments of one program header. -/
theorem Inv.loadHeader (h : Inv s lists) (hlive : s.state p = .live) (src interpOffset : Nat) (ph : Phdr) :
    Grows p (headerSegments src interpOffset ph) s lists (loadHeader p src interpOffset ph s) := by
  have hnone : ∀ {s : World} {lists : Nat → List Nat}, Inv s lists → Grows p [] s lists (.ok s) := fun h =>
    .ok ⟨_, .refl h p⟩
  unfold Segments.loadHeader headerSegments
  by_cases htype : ph.type = PT_LOAD
  · rw [if_pos htype, if_pos htype]
    refine Grows.bind ?_ fun s₁ lists₁ hgrew => ?_
    · by_cases hfile : 0 < ph.filesz
      · rw [if_pos hfile, if_pos hfile]
        exact h.addSegment hlive _
      · rw [if_neg hfile, if_neg hfile]
        exact hnone h
    · have hlive₁ : s₁.state p = .live := (congrFun hgrew.state p).trans hlive
      by_cases hbss : ph.filesz < ph.memsz
      · rw [if_pos hbss, if_pos hbss]
        exact hgrew.inv.addSegment hlive₁ _
      · rw [if_neg hbss, if_neg hbss]
        exact hnone hgrew.inv
  · rw [if_neg htype, if_neg htype]
    exact hnone h

/-- **`processFork`** copies the maps of the parent, the first one first. -/
theorem Inv.copyFrom {n : Nat} {psm : Option Nat} {l : List Nat} {q : Nat} (h : Inv s lists) (hlive : s.state p = .live)
    (hl : Linked.Cells s.next psm l) (hmem : ∀ sm ∈ l, sm ∈ lists q) (hn : l.length < n) :
    Grows p (l.map s.segment) s lists (copyFrom p n psm s) := by
  induction l generalizing n psm s lists with
  | nil =>
    cases hl
    cases n with
    | zero => cases hn
    | succ n => exact .ok ⟨_, .refl h p⟩
  | cons sm l ih =>
    cases hl with
    | cons hl =>
      cases n with
      | zero => cases hn
      | succ n =>
        have hstep : Segments.copyFrom p (n + 1) (some sm) s =
            (Segments.addSegment p (s.segment sm) s >>= fun s₁ => Segments.copyFrom p n (s₁.segmentMaps sm).next s₁) := by
          rw [Segments.copyFrom, Segments.addSegment]
          cases halloc : segmentMapAlloc s with
          | error e => rfl
          | ok r =>
            obtain ⟨new, s₁⟩ := r
            obtain ⟨-, -, rfl⟩ := segmentMapAlloc_ok halloc
            simp only [ok_bind]
            rw [segmentMapAppend_eq_place, segmentMapAppend_eq_place]
            rfl
        rw [hstep, List.map_cons, ← List.singleton_append]
        refine (h.addSegment hlive _).bind fun s₁ lists₁ hgrew => ?_
        have hnode : ∀ i ∈ sm :: l, s₁.segmentMaps i = s.segmentMaps i := fun i hi => hgrew.kept q i (hmem i hi)
        have hrest : l.map s.segment = l.map s₁.segment := List.map_congr_left fun i hi =>
          congrArg SegmentMap.toSegment (hnode i (List.mem_cons_of_mem _ hi)).symm
        rw [hrest, hnode sm List.mem_cons_self]
        refine ih hgrew.inv ((congrFun hgrew.state p).trans hlive) ?_ (fun i hi => ?_) (Nat.lt_of_succ_lt_succ hn)
        · exact hl.congr fun i hi => congrArg SegmentMap.next (hnode i (List.mem_cons_of_mem _ hi))
        · exact hgrew.mem (hmem i (List.mem_cons_of_mem _ hi))

/-- The loop of **`processSegmentMapFree`** clears the bits of the list; the links stay. -/
theorem freeFrom_ok {n : Nat} {sm : Option Nat} {l : List Nat} {s : World} (hl : Linked.Cells s.next sm l) (hn : l.length < n) :
    ∃ bm, freeFrom n sm s = .ok { s with segmentMapBitmap := bm } ∧
      ∀ i, Bitmap.get bm i = (!decide (i ∈ l) && Bitmap.get s.segmentMapBitmap i) := by
  induction l generalizing n sm s with
  | nil =>
    cases hl
    cases n with
    | zero => cases hn
    | succ n => exact ⟨s.segmentMapBitmap, rfl, fun i => by simp⟩
  | cons a l ih =>
    cases hl with
    | cons hl =>
      cases n with
      | zero => cases hn
      | succ n =>
        have hl' : Linked.Cells (segmentMapFree a s).next ((segmentMapFree a s).next a) l := hl
        obtain ⟨bm, hrun, hbm⟩ := ih hl' (Nat.lt_of_succ_lt_succ hn)
        refine ⟨bm, hrun, fun i => ?_⟩
        rw [hbm, show (segmentMapFree a s).segmentMapBitmap = Bitmap.clear s.segmentMapBitmap a from rfl, Bitmap.get_clear]
        by_cases hi : i = a
        · simp [hi]
        · simp [hi]

/-- **`processSegmentMapFree`** gives back the maps of the process, and no other. -/
theorem Inv.free (h : Inv s lists) (p : Nat) :
    ∃ s', processSegmentMapFree p s = .ok s' ∧ Inv s' (update lists p []) ∧ s'.segmentMaps = s.segmentMaps ∧
      s'.state = s.state ∧ s'.calls = s.calls := by
  obtain ⟨bm, hrun, hbm⟩ := freeFrom_ok (h.cells p) (h.length_lt p)
  refine ⟨{ s with segmentMapBitmap := bm, segmentMapHead := update s.segmentMapHead p none }, ?_, ?_, rfl, rfl, rfl⟩
  · rw [processSegmentMapFree, hrun]
    rfl
  · refine ⟨fun q => ?_, fun i => ?_, fun q r hqr => ?_, fun q i hi => ?_, fun q hq => ?_, h.calls⟩
    · by_cases hq : q = p
      · subst hq
        rw [update_self]
        simp only [update_self]
        exact .nil
      · rw [update_of_ne hq]
        simp only [update_of_ne hq]
        exact h.cells q
    · show Bitmap.get bm i = true ↔ _
      rw [hbm, Bool.and_eq_true, h.used]
      constructor
      · rintro ⟨hi, q, hq⟩
        have hqp : q ≠ p := by
          rintro rfl
          simp [hq] at hi
        exact ⟨q, by rw [update_of_ne hqp]; exact hq⟩
      · rintro ⟨q, hq⟩
        by_cases hqp : q = p
        · subst hqp
          rw [update_self] at hq
          cases hq
        · rw [update_of_ne hqp] at hq
          have hi : i ∉ lists p := fun hi => h.apart q p hqp hq hi
          exact ⟨by simp [hi], q, hq⟩
    · by_cases hq : q = p
      · subst hq
        rw [update_self]
        exact List.disjoint_nil_left _
      · rw [update_of_ne hq]
        by_cases hr : r = p
        · subst hr
          rw [update_self]
          exact List.disjoint_nil_right _
        · rw [update_of_ne hr]
          exact h.apart q r hqr
    · by_cases hq : q = p
      · subst hq
        rw [update_self] at hi
        cases hi
      · rw [update_of_ne hq] at hi
        exact h.lt q i hi
    · by_cases hqp : q = p
      · rw [hqp, update_self]
      · rw [update_of_ne hqp]
        exact h.quiet q hq

end Pool

/-! ## The steps -/

section Steps

variable {s s' : World} {lists : Nat → List Nat} {e : Event}

/-- The pool stays, the states of processes and the calls of `exec` change. -/
theorem Inv.restate (h : Inv s lists) {state : Nat → State} {calls : Nat → Option Call}
    (hquiet : ∀ p, state p ≠ .live → s.state p ≠ .live ∨ lists p = [])
    (hcalls : ∀ t c, calls t = some c → state c.process = .live) :
    Inv { s with state := state, calls := calls } lists where
  cells := h.cells
  used := h.used
  apart := h.apart
  lt := h.lt
  quiet := fun p hp => (hquiet p hp).elim (h.quiet p) id
  calls := hcalls

theorem Inv.setCall (h : Inv s lists) (t : Nat) {c : Option Call} (hc : ∀ c', c = some c' → s.state c'.process = .live) :
    Inv (setCall s t c) lists := by
  refine h.restate (fun p hp => .inl hp) fun u c' hu => ?_
  by_cases hut : u = t
  · subst hut
    rw [update_self] at hu
    exact hc c' hu
  · rw [update_of_ne hut] at hu
    exact h.calls u c' hu

/-- A process that is not live becomes one. -/
theorem Inv.setLive (h : Inv s lists) (p : Nat) : Inv (setState s p .live) lists := by
  refine h.restate (fun q hq => ?_) fun t c hc => ?_
  · by_cases hqp : q = p
    · subst hqp
      rw [update_self] at hq
      exact (hq rfl).elim
    · rw [update_of_ne hqp] at hq
      exact .inl hq
  · by_cases hcp : c.process = p
    · rw [hcp, update_self]
    · rw [update_of_ne hcp]
      exact h.calls t c hc

theorem Inv.fork (h : Inv s lists) (parent child : Nat) :
    Grows child ((lists parent).map s.segment) (setState s child .live) lists (perform s (.fork parent child)) := by
  have hlive : (setState s child .live).state child = .live := update_self ..
  exact (h.setLive child).copyFrom hlive (h.cells parent) (fun _ hi => hi) (h.length_lt parent)

/-- The end of a process takes its maps and its calls away. -/
theorem Inv.exit (h : Inv s lists) (p : Nat) : ∃ s', perform s (.exit p) = .ok s' ∧ Inv s' (update lists p []) ∧
    s'.segmentMaps = s.segmentMaps ∧ (∀ q, q ≠ p → s'.state q = s.state q) ∧
    ∀ t c, s'.calls t = some c → s.calls t = some c := by
  obtain ⟨s₁, hrun, hinv, hmaps, hstate, hcalls⟩ := h.free p
  refine ⟨{ setState s₁ p .zombie with
    calls := fun t => if (s₁.calls t).map Call.process = some p then none else s₁.calls t }, ?_, ?_, hmaps, fun q hq => ?_,
    fun t c hc => ?_⟩
  · rw [Segments.perform, hrun]
    rfl
  · refine hinv.restate (fun q hq => ?_) fun t c hc => ?_
    · by_cases hqp : q = p
      · rw [hqp, update_self]
        exact .inr rfl
      · rw [show (setState s₁ p .zombie).state q = s₁.state q from update_of_ne hqp ..] at hq
        exact .inl hq
    · by_cases hcp : (s₁.calls t).map Call.process = some p
      · rw [if_pos hcp] at hc
        cases hc
      · rw [if_neg hcp] at hc
        have hne : c.process ≠ p := fun e => hcp (by rw [hc, Option.map_some, e])
        rw [show (setState s₁ p .zombie).state c.process = s₁.state c.process from update_of_ne hne ..]
        exact hinv.calls t c hc
  · exact (update_of_ne hq ..).trans (congrFun hstate q)
  · have hc : (if (s₁.calls t).map Call.process = some p then none else s₁.calls t) = some c := hc
    split at hc
    · cases hc
    · rwa [hcalls] at hc

theorem Inv.reap {p : Nat} (h : Inv s lists) (he : Enabled s (.reap p)) : Inv (setState s p .unused) lists := by
  have hz : s.state p = .zombie := he
  refine h.restate (fun q hq => ?_) fun t c hc => ?_
  · by_cases hqp : q = p
    · have hdead : s.state q ≠ .live := fun hlive => by
        rw [hqp, hz] at hlive
        cases hlive
      exact .inl hdead
    · rw [update_of_ne hqp] at hq
      exact .inl hq
  · have hlive := h.calls t c hc
    have hne : c.process ≠ p := fun e => by
      rw [e, hz] at hlive
      cases hlive
    rw [update_of_ne hne]
    exact hlive

/-- **Every step** keeps the lists, or runs out of segments. -/
theorem Inv.perform (h : Inv s lists) (he : Enabled s e) :
    Outcome (fun e => e = .runOut) (fun s' => ∃ lists', Inv s' lists') (perform s e) := by
  cases e with
  | create p => exact .ok ⟨lists, h.setLive p⟩
  | fork parent child =>
    refine (h.fork _ _).mono (fun _ he => he) fun s' hs' => ?_
    obtain ⟨lists', hgrew⟩ := hs'
    exact ⟨lists', hgrew.inv⟩
  | exec t p =>
    obtain ⟨s₁, hrun, hinv, -, hstate, -⟩ := h.free p
    rw [Segments.perform, hrun]
    refine .ok ⟨_, hinv.setCall t fun c hc => ?_⟩
    cases hc
    exact (congrFun hstate p).trans he.1
  | elf t src interpOffset phnum =>
    obtain ⟨p, hcall⟩ := he
    rw [Segments.perform, hcall]
    refine .ok ⟨lists, h.setCall t fun c hc => ?_⟩
    cases hc
    exact h.calls t (.opened p) hcall
  | phdr t ph =>
    obtain ⟨p, src, interpOffset, left, hcall⟩ := he
    have hlive := h.calls t _ hcall
    rw [Segments.perform, hcall]
    refine (h.loadHeader hlive src interpOffset ph).map fun s₁ hs₁ => ?_
    obtain ⟨lists₁, hgrew⟩ := hs₁
    refine ⟨lists₁, hgrew.inv.setCall t fun c hc => ?_⟩
    cases hc
    exact (congrFun hgrew.state p).trans hlive
  | done t => exact .ok ⟨lists, h.setCall t fun c hc => by cases hc⟩
  | exit p =>
    obtain ⟨s', hrun, hinv, -⟩ := h.exit p
    rw [hrun]
    exact .ok ⟨_, hinv⟩
  | reap p => exact .ok ⟨lists, h.reap he⟩

theorem inv_of_reach (h : Reach Initial Next s) : ∃ lists, Inv s lists := by
  have hinit : ∀ s, Initial s → ∃ lists, Inv s lists := fun s hs => ⟨_, hs.inv⟩
  refine h.invariant hinit fun s s' hinv hstep => ?_
  obtain ⟨lists, hinv⟩ := hinv
  obtain ⟨e, he, hrun⟩ := hstep
  exact (hinv.perform he).of_ok hrun

/-- The maps in use are the disjoint union of the lists of the live processes, each of them finite. Only an
exhausted pool stops a step, and a fork gives the child a copy of each map of its parent, whose own list stays
as it was. -/
theorem segment_maps_have_one_owner (h : Reach Initial Next s) :
    ∃ lists : Nat → List Nat,
      (∀ p, Linked.Cells s.next (s.segmentMapHead p) (lists p) ∧ (lists p).Nodup) ∧
      (∀ p, s.state p ≠ .live → lists p = []) ∧
      (∀ p q, p ≠ q → (lists p).Disjoint (lists q)) ∧
      (∀ sm, Bitmap.get s.segmentMapBitmap sm = true ↔ ∃ p, s.state p = .live ∧ sm ∈ lists p) ∧
      (∀ e halt, Enabled s e → perform s e = .error halt → halt = .runOut) ∧
      ∀ parent child s', Enabled s (.fork parent child) → perform s (.fork parent child) = .ok s' →
        s'.segmentMapHead parent = s.segmentMapHead parent ∧
        (∀ sm ∈ lists parent, s'.segmentMaps sm = s.segmentMaps sm) ∧
        ∃ copies, Linked.Cells s'.next (s'.segmentMapHead child) copies ∧
          (copies.map s'.segment).Perm ((lists parent).map s.segment) := by
  obtain ⟨lists, hinv⟩ := inv_of_reach h
  refine ⟨lists, fun p => ⟨hinv.cells p, (hinv.cells p).nodup⟩, hinv.quiet, hinv.apart, fun sm => ?_,
    fun e halt he herr => (hinv.perform he).of_error herr, fun parent child s' he hrun => ?_⟩
  · rw [hinv.used]
    constructor
    · rintro ⟨p, hp⟩
      have hlive : s.state p = .live := by
        by_contra hdead
        rw [hinv.quiet p hdead] at hp
        cases hp
      exact ⟨p, hlive, hp⟩
    · rintro ⟨p, -, hp⟩
      exact ⟨p, hp⟩
  · obtain ⟨lists', hgrew⟩ := (hinv.fork parent child).of_ok hrun
    have hne : parent ≠ child := fun e => by
      have hchild := he.2
      rw [← e, he.1] at hchild
      cases hchild
    have hdead : s.state child ≠ .live := fun hlive => by
      rw [he.2] at hlive
      cases hlive
    obtain ⟨new, rfl, hnew⟩ := hgrew.mine
    have hcells := hgrew.inv.cells child
    rw [update_self, hinv.quiet child hdead, List.append_nil] at hcells
    exact ⟨hgrew.heads parent hne, hgrew.kept parent, new, hcells, hnew ▸ List.reverse_perm _⟩

end Steps

def boot : World where
  segmentMapBitmap := fun _ => 0
  segmentMaps := fun _ => ⟨⟨none, 0, 0, 0, 0⟩, none⟩
  segmentMapHead := fun _ => none
  state := fun _ => .unused
  calls := fun _ => none

/-- A process with a program of one segment, partly zeros, forks. -/
theorem segment_maps_have_one_owner_fork : ∃ s s', Reach Initial Next s ∧ perform s (.fork 0 1) = .ok s' ∧
    s.segmentMapHead 0 = some 1 ∧ s'.segmentMapHead 1 = some 3 ∧ s'.segmentMapHead 0 = some 1 := by
  have h₀ : Reach Initial Next boot := .init ⟨rfl, fun _ => rfl, fun _ => rfl, fun _ => rfl⟩
  have h₁ := h₀.step ⟨.create 0, rfl, rfl⟩
  have h₂ := h₁.step ⟨.exec 7 0, ⟨rfl, .inl rfl⟩, rfl⟩
  have h₃ := h₂.step ⟨.elf 7 5 0 1, ⟨0, rfl⟩, rfl⟩
  have h₄ := h₃.step ⟨.phdr 7 ⟨PT_LOAD, 0, 4096, 16, 32⟩, ⟨0, 5, 0, 0, rfl⟩, rfl⟩
  obtain ⟨_, -, -, -, -, -, hfork⟩ := segment_maps_have_one_owner h₄
  exact ⟨_, _, h₄, rfl, rfl, rfl, (hfork 0 1 _ ⟨rfl, rfl⟩ rfl).1⟩

end Exaros.Segments
