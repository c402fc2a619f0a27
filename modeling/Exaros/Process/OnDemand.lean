import Exaros.Process.Copies
import Exaros.Process.LazyPage

/-!
# Loading on demand

`segmentTraverse` leaves two maps for a `PT_LOAD` header, and `passiveAlloc` brings a page in from all maps that meet it,
in the process that called `exec` or in one that a chain of forks made of it, whose list is a copy of its parent's the
other way round. The result is what loading the whole file at once gives, but for the length of a map: it is kept in 32 bits,
and a zero part of 4 GiB or more is cut short.
-/

namespace Exaros.Segments

open Exec (Phdr PT_LOAD u32)
open Run

/-! ## Programs -/

/-- A program: its file, the offset it is loaded at and its program headers. -/
structure Program where
  src : Nat
  interpOffset : Nat
  phs : List Phdr
  file : List UInt8

namespace Program

variable (g : Program)

def loads : List Phdr := g.phs.filter fun ph => ph.type = PT_LOAD

/-- Where the contents of a header go. -/
def base (ph : Phdr) : Nat := ph.vaddr + g.interpOffset

/-- The address is in the range of a header. -/
def Within (ph : Phdr) (a : Nat) : Prop := g.base ph ≤ a ∧ a < g.base ph + ph.memsz

/-- The maps that `segmentTraverse` makes. -/
def segments : List Segment := g.phs.flatMap (headerSegments g.src g.interpOffset)

/-- The ranges lie apart below the stack, and what is to come from the file is there. -/
structure Valid : Prop where
  size : g.file.length < 2 ^ 32
  memsz : ∀ ph ∈ g.loads, ph.filesz ≤ ph.memsz
  inFile : ∀ ph ∈ g.loads, ph.offset + ph.filesz ≤ g.file.length
  below : ∀ ph ∈ g.loads, g.base ph + ph.memsz ≤ USER_STACK_BOTTOM
  apart : g.loads.Pairwise fun ph ph' => ∀ a, g.Within ph a → ¬ g.Within ph' a

/-- The two parts of a header with the permissions they are mapped with. -/
def parts (ph : Phdr) : List (Nat × Nat × Pte) :=
  [(g.base ph, g.base ph + ph.filesz, PTE_EXECUTE_BIT ||| PTE_READ_BIT ||| PTE_WRITE_BIT),
   (g.base ph + ph.filesz, g.base ph + ph.memsz, PTE_READ_BIT ||| PTE_WRITE_BIT)]

/-- The page of `va` after a fault, mapped by `e`: what loading the file at once gives it, and the permissions of the
parts that meet it. -/
structure Loaded (va : Nat) (e : Pte) (data : Idx → BitVec 64) : Prop where
  file : ∀ ph ∈ g.loads, ∀ k < ph.memsz, (g.base ph + k) / PAGE_SIZE = va / PAGE_SIZE →
    pageByte data (g.base ph + k) = if k < ph.filesz then g.file.getD (ph.offset + k) 0 else 0
  rest : ∀ a, a / PAGE_SIZE = va / PAGE_SIZE → (∀ ph ∈ g.loads, ¬ g.Within ph a) → pageByte data a = 0
  perm : ∃ y perm, e = touchPte y (PTE_USER_BIT ||| perm) ∧ ∀ i, perm.getLsbD i = true ↔
    ∃ ph ∈ g.loads, ∃ part ∈ g.parts ph,
      (∃ a, a / PAGE_SIZE = va / PAGE_SIZE ∧ part.1 ≤ a ∧ a < part.2.1) ∧ part.2.2.getLsbD i = true

/-- A process with these maps gets every page of the program right at its first fault there, whatever memory is then. -/
def LoadsOnDemand (read : Nat → Nat → Nat → List UInt8) (segs : List Segment) : Prop :=
  ∀ (img : Image) (dirs : Finset Ppn) (m : Mem) (d : Ppn) (va : Nat), MemInv img m dirs → d ∈ dirs →
    view m d (vpn va) = none → 3 ≤ m.freePageList.length →
    (∃ ph ∈ g.loads, ∃ a, a / PAGE_SIZE = va / PAGE_SIZE ∧ g.Within ph a) →
    ∃ m' e, passiveAlloc read segs d va m = .ok (pte2Ppn e <<< PAGE_SHIFT + vaOffset va, m') ∧
      view m' d (vpn va) = some e ∧ g.Loaded va e (m'.ram (pte2Ppn e))

end Program

/-! ## The maps of a program -/

section Maps

variable {g : Program} {ph : Phdr} {seg : Segment} {a : Nat}

theorem mem_headerSegments {src interpOffset : Nat} : seg ∈ headerSegments src interpOffset ph ↔ ph.type = PT_LOAD ∧
    ((0 < ph.filesz ∧ seg = fileSegment src interpOffset ph) ∨ (ph.filesz < ph.memsz ∧ seg = bssSegment interpOffset ph)) := by
  unfold headerSegments
  split
  · next htype =>
    rw [List.mem_append]
    refine ⟨fun h => ⟨htype, h.imp (fun h => ?_) fun h => ?_⟩, fun h => h.2.imp (fun h => ?_) fun h => ?_⟩
    · split at h
      · exact ⟨‹_›, List.mem_singleton.mp h⟩
      · cases h
    · split at h
      · exact ⟨‹_›, List.mem_singleton.mp h⟩
      · cases h
    · rw [if_pos h.1]
      exact List.mem_singleton.mpr h.2
    · rw [if_pos h.1]
      exact List.mem_singleton.mpr h.2
  · next htype => exact ⟨fun h => (by cases h), fun h => absurd h.1 htype⟩

theorem mem_segments : seg ∈ g.segments ↔ ∃ ph ∈ g.loads, (0 < ph.filesz ∧ seg = fileSegment g.src g.interpOffset ph) ∨
    (ph.filesz < ph.memsz ∧ seg = bssSegment g.interpOffset ph) := by
  unfold Program.segments Program.loads
  rw [List.mem_flatMap]
  constructor
  · intro h
    obtain ⟨ph, hph, hseg⟩ := h
    obtain ⟨htype, hseg⟩ := mem_headerSegments.mp hseg
    exact ⟨ph, List.mem_filter.mpr ⟨hph, decide_eq_true htype⟩, hseg⟩
  · intro h
    obtain ⟨ph, hph, hseg⟩ := h
    obtain ⟨hph, htype⟩ := List.mem_filter.mp hph
    exact ⟨ph, hph, mem_headerSegments.mpr ⟨of_decide_eq_true htype, hseg⟩⟩

theorem stack_bottom_lt : USER_STACK_BOTTOM < 2 ^ 64 := by decide

/-- The map of the part in the file is as long as the part. -/
theorem fileSegment_fields (h : g.Valid) (hph : ph ∈ g.loads) :
    (fileSegment g.src g.interpOffset ph).loadAddr = g.base ph ∧ (fileSegment g.src g.interpOffset ph).len = ph.filesz := by
  have hsize := h.size
  have hfile := h.inFile ph hph
  have hbelow := h.below ph hph
  have hbottom := stack_bottom_lt
  unfold Program.base at *
  exact ⟨Nat.mod_eq_of_lt (by omega), Nat.mod_eq_of_lt (by omega)⟩

/-- The map of the zeros starts where they do, and may be shorter. -/
theorem bssSegment_fields (h : g.Valid) (hph : ph ∈ g.loads) : (bssSegment g.interpOffset ph).loadAddr = g.base ph + ph.filesz ∧
    (bssSegment g.interpOffset ph).len = u32 (ph.memsz - ph.filesz) := by
  have hmem := h.memsz ph hph
  have hbelow := h.below ph hph
  have hbottom := stack_bottom_lt
  unfold Program.base at *
  refine ⟨?_, rfl⟩
  show u64 (ph.vaddr + ph.filesz + g.interpOffset) = _
  rw [show ph.vaddr + ph.filesz + g.interpOffset = ph.vaddr + g.interpOffset + ph.filesz by omega]
  exact Nat.mod_eq_of_lt (by omega)

theorem u32_le (x : Nat) : u32 x ≤ x := Nat.mod_le ..

theorem inFile_fileSegment (src interpOffset : Nat) (ph : Phdr) : (fileSegment src interpOffset ph).InFile := by
  show (PTE_EXECUTE_BIT ||| PTE_READ_BIT ||| PTE_WRITE_BIT) &&& MAP_ZERO = 0
  decide

theorem not_inFile_bssSegment (interpOffset : Nat) (ph : Phdr) : ¬ (bssSegment interpOffset ph).InFile := by
  show ¬ (PTE_READ_BIT ||| PTE_WRITE_BIT ||| MAP_ZERO) &&& MAP_ZERO = 0
  decide

/-- What a map holds is in the range of its header. -/
theorem within_of_holds (h : g.Valid) (hph : ph ∈ g.loads)
    (hseg : seg = fileSegment g.src g.interpOffset ph ∨ seg = bssSegment g.interpOffset ph) (ha : seg.Holds a) :
    g.Within ph a := by
  have hmem := h.memsz ph hph
  obtain ⟨hlo, hhi⟩ := ha
  rcases hseg with rfl | rfl
  · obtain ⟨haddr, hlen⟩ := fileSegment_fields h hph
    rw [haddr] at hlo
    rw [haddr, hlen] at hhi
    exact ⟨hlo, by omega⟩
  · obtain ⟨haddr, hlen⟩ := bssSegment_fields h hph
    have hle := u32_le (ph.memsz - ph.filesz)
    rw [haddr] at hlo
    rw [haddr, hlen] at hhi
    exact ⟨by omega, by omega⟩

theorem sound_segments (h : g.Valid) : ∀ seg ∈ g.segments, seg.Sound g.src g.file := by
  intro seg hseg
  obtain ⟨ph, hph, hseg⟩ := mem_segments.mp hseg
  have hmem := h.memsz ph hph
  have hbelow := h.below ph hph
  rcases hseg with ⟨-, rfl⟩ | ⟨-, rfl⟩
  · obtain ⟨haddr, hlen⟩ := fileSegment_fields h hph
    refine ⟨by rw [haddr, hlen]; omega, fun _ => ⟨rfl, ?_⟩⟩
    rw [hlen]
    exact h.inFile ph hph
  · obtain ⟨haddr, hlen⟩ := bssSegment_fields h hph
    have hle := u32_le (ph.memsz - ph.filesz)
    exact ⟨by rw [haddr, hlen]; omega, fun hfile => absurd hfile (not_inFile_bssSegment _ _)⟩

/-- No two segments of a program overlap. -/
theorem apart_segments (h : g.Valid) : g.segments.Pairwise Segment.Apart := by
  unfold Program.segments
  rw [List.pairwise_flatMap]
  constructor
  · intro ph hph
    by_cases htype : ph.type = PT_LOAD
    · have hload : ph ∈ g.loads := List.mem_filter.mpr ⟨hph, decide_eq_true htype⟩
      obtain ⟨hfile, hlen⟩ := fileSegment_fields h hload
      obtain ⟨hbss, -⟩ := bssSegment_fields h hload
      have hapart : (fileSegment g.src g.interpOffset ph).Apart (bssSegment g.interpOffset ph) := fun a ha ha' => by
        unfold Segment.Holds at ha ha'
        rw [hfile, hlen] at ha
        rw [hbss] at ha'
        omega
      unfold headerSegments
      rw [if_pos htype]
      split
      · split
        · exact List.pairwise_pair.mpr hapart
        · exact List.pairwise_singleton ..
      · split
        · exact List.pairwise_singleton ..
        · exact List.Pairwise.nil
    · unfold headerSegments
      rw [if_neg htype]
      exact List.Pairwise.nil
  · have hphs := List.pairwise_filter.mp h.apart
    refine (List.Pairwise.and_mem.mp hphs).imp fun {ph ph'} hpair seg hseg seg' hseg' a ha ha' => ?_
    obtain ⟨hph, hph', hpair⟩ := hpair
    obtain ⟨htype, hseg⟩ := mem_headerSegments.mp hseg
    obtain ⟨htype', hseg'⟩ := mem_headerSegments.mp hseg'
    have hload : ph ∈ g.loads := List.mem_filter.mpr ⟨hph, decide_eq_true htype⟩
    have hload' : ph' ∈ g.loads := List.mem_filter.mpr ⟨hph', decide_eq_true htype'⟩
    exact hpair (decide_eq_true htype) (decide_eq_true htype') a
      (within_of_holds h hload (hseg.imp (·.2) (·.2)) ha) (within_of_holds h hload' (hseg'.imp (·.2) (·.2)) ha')

end Maps

/-! ## A page of a program -/

/-- The zeros of each header fit the 32 bits of a map's length. -/
def Program.Small (g : Program) : Prop := ∀ ph ∈ g.loads, ph.memsz - ph.filesz < 2 ^ 32

section Page

variable {g : Program} {ph ph' : Phdr} {segs : List Segment} {data : Idx → BitVec 64} {a va i : Nat}

theorem eq_of_within (h : g.Valid) (hph : ph ∈ g.loads) (hph' : ph' ∈ g.loads) (ha : g.Within ph a) (ha' : g.Within ph' a) :
    ph' = ph := by
  have hsymm : Std.Symm fun ph ph' => ∀ a, g.Within ph a → ¬ g.Within ph' a := ⟨fun ph ph' h a ha' ha => h a ha ha'⟩
  by_contra hne
  exact h.apart.forall hph' hph hne a ha' ha

theorem alignDown_div (va : Nat) : alignDown va / PAGE_SIZE = va / PAGE_SIZE := by
  unfold alignDown PAGE_SIZE
  omega

/-- The contents of the maps are those of the file and zeros. -/
theorem bytes_of_contents (h : g.Valid) (hperm : segs.Perm g.segments) (hdata : Contents g.file (alignDown va) segs data) :
    (∀ ph ∈ g.loads, ∀ k < ph.memsz, (g.base ph + k) / PAGE_SIZE = va / PAGE_SIZE →
      pageByte data (g.base ph + k) = if k < ph.filesz then g.file.getD (ph.offset + k) 0 else 0) ∧
    ∀ a, a / PAGE_SIZE = va / PAGE_SIZE → (∀ ph ∈ g.loads, ¬ g.Within ph a) → pageByte data a = 0 := by
  refine ⟨fun ph hph k hk hpage => ?_, fun a hpage hno => ?_⟩
  · obtain ⟨haddr, hlen⟩ := fileSegment_fields h hph
    split
    · next hfile =>
      have hseg : fileSegment g.src g.interpOffset ph ∈ segs :=
        hperm.mem_iff.mpr (mem_segments.mpr ⟨ph, hph, .inl ⟨by omega, rfl⟩⟩)
      have hholds : (fileSegment g.src g.interpOffset ph).Holds (g.base ph + k) := by
        unfold Segment.Holds
        rw [haddr, hlen]
        omega
      rw [hdata.inFile _ hseg (inFile_fileSegment ..) _ (hpage.trans (alignDown_div va).symm) hholds, haddr,
        Nat.add_sub_cancel_left]
      rfl
    · next hzero =>
      refine hdata.zero _ (hpage.trans (alignDown_div va).symm) fun seg hseg hfile hholds => ?_
      obtain ⟨ph', hph', hseg'⟩ := mem_segments.mp (hperm.mem_iff.mp hseg)
      have hwithin := within_of_holds h hph' (hseg'.imp (·.2) (·.2)) hholds
      obtain rfl := eq_of_within h hph hph' ⟨by omega, by omega⟩ hwithin
      rcases hseg' with ⟨-, rfl⟩ | ⟨-, rfl⟩
      · have hhi := hholds.2
        rw [haddr, hlen] at hhi
        omega
      · exact not_inFile_bssSegment _ _ hfile
  · refine hdata.zero a (hpage.trans (alignDown_div va).symm) fun seg hseg _ hholds => ?_
    obtain ⟨ph, hph, hseg⟩ := mem_segments.mp (hperm.mem_iff.mp hseg)
    exact hno ph hph (within_of_holds h hph (hseg.imp (·.2) (·.2)) hholds)

theorem getLsbD_foldl_or (l : List Segment) (perm : Pte) :
    (l.foldl (fun perm seg => perm ||| (seg.flag &&& ~~~ MAP_ZERO)) perm).getLsbD i = true ↔
      perm.getLsbD i = true ∨ ∃ seg ∈ l, (seg.flag &&& ~~~ MAP_ZERO).getLsbD i = true := by
  induction l generalizing perm with
  | nil => simp
  | cons seg l ih =>
    rw [List.foldl_cons, ih, BitVec.getLsbD_or, Bool.or_eq_true, or_assoc, List.exists_mem_cons_iff]

theorem getLsbD_permOf (pageStart : Nat) : (permOf pageStart segs).getLsbD i = true ↔
    ∃ seg ∈ segs, seg.meets pageStart = true ∧ (seg.flag &&& ~~~ MAP_ZERO).getLsbD i = true := by
  unfold permOf
  rw [getLsbD_foldl_or]
  simp [and_assoc]

/-- A map meets a page where it holds an address of it. -/
theorem meets_iff_holds {src pageStart : Nat} {file : List UInt8} {seg : Segment} (h : seg.Sound src file)
    (hp : UserPage pageStart) :
    seg.meets pageStart = true ↔ ∃ a, a / PAGE_SIZE = pageStart / PAGE_SIZE ∧ seg.Holds a := by
  constructor
  · intro hmeets
    have hbounds := (meets_iff h hp).mp hmeets
    obtain ⟨hmod, -⟩ := hp
    refine ⟨max seg.loadAddr pageStart, ?_, Nat.le_max_left .., by omega⟩
    unfold PAGE_SIZE at *
    omega
  · intro hex
    obtain ⟨a, hpage, ha⟩ := hex
    exact meets_of_holds h hp hpage ha

theorem userPage_of_lt (hva : va < USER_STACK_BOTTOM) : UserPage (alignDown va) := by
  have hbottom : USER_STACK_BOTTOM ≤ VA_MAX := by decide
  unfold UserPage alignDown PAGE_SIZE
  omega

/-- The permissions of the maps are those of the parts, when no part is cut short. -/
theorem perm_of_parts (h : g.Valid) (hsmall : g.Small) (hperm : segs.Perm g.segments) (hva : va < USER_STACK_BOTTOM) :
    (permOf (alignDown va) segs).getLsbD i = true ↔ ∃ ph ∈ g.loads, ∃ part ∈ g.parts ph,
      (∃ a, a / PAGE_SIZE = va / PAGE_SIZE ∧ part.1 ≤ a ∧ a < part.2.1) ∧ part.2.2.getLsbD i = true := by
  have hp := userPage_of_lt hva
  have hfile : (PTE_EXECUTE_BIT ||| PTE_READ_BIT ||| PTE_WRITE_BIT) &&& ~~~ MAP_ZERO =
      PTE_EXECUTE_BIT ||| PTE_READ_BIT ||| PTE_WRITE_BIT := by decide
  have hbss : (PTE_READ_BIT ||| PTE_WRITE_BIT ||| MAP_ZERO) &&& ~~~ MAP_ZERO = PTE_READ_BIT ||| PTE_WRITE_BIT := by decide
  rw [getLsbD_permOf]
  constructor
  · intro hex
    obtain ⟨seg, hseg, hmeets, hbit⟩ := hex
    have hseg := hperm.mem_iff.mp hseg
    obtain ⟨a, hpage, ha⟩ := (meets_iff_holds (sound_segments h seg hseg) hp).mp hmeets
    rw [alignDown_div] at hpage
    obtain ⟨ph, hph, hcase⟩ := mem_segments.mp hseg
    rcases hcase with ⟨-, rfl⟩ | ⟨-, rfl⟩
    · obtain ⟨haddr, hlen⟩ := fileSegment_fields h hph
      unfold Segment.Holds at ha
      rw [haddr, hlen] at ha
      exact ⟨ph, hph, _, List.mem_cons_self, ⟨a, hpage, ha⟩, hfile ▸ hbit⟩
    · obtain ⟨haddr, hlen⟩ := bssSegment_fields h hph
      have hle := u32_le (ph.memsz - ph.filesz)
      unfold Segment.Holds at ha
      rw [haddr, hlen] at ha
      exact ⟨ph, hph, _, List.mem_cons_of_mem _ List.mem_cons_self, ⟨a, hpage, ha.1, by dsimp only; omega⟩, hbss ▸ hbit⟩
  · intro hex
    obtain ⟨ph, hph, part, hpart, ⟨a, hpage, hlo, hhi⟩, hbit⟩ := hex
    rw [← alignDown_div va] at hpage
    rcases List.mem_cons.mp hpart with rfl | hpart
    · obtain ⟨haddr, hlen⟩ := fileSegment_fields h hph
      dsimp only at hlo hhi hbit
      have hseg : fileSegment g.src g.interpOffset ph ∈ g.segments := mem_segments.mpr ⟨ph, hph, .inl ⟨by omega, rfl⟩⟩
      refine ⟨_, hperm.mem_iff.mpr hseg, (meets_iff_holds (sound_segments h _ hseg) hp).mpr ⟨a, hpage, ?_⟩, ?_⟩
      · unfold Segment.Holds
        rw [haddr, hlen]
        exact ⟨hlo, hhi⟩
      · exact hfile.symm ▸ hbit
    · obtain rfl := List.mem_singleton.mp hpart
      obtain ⟨haddr, hlen⟩ := bssSegment_fields h hph
      dsimp only at hlo hhi hbit
      have hlen32 : u32 (ph.memsz - ph.filesz) = ph.memsz - ph.filesz := Nat.mod_eq_of_lt (hsmall ph hph)
      have hseg : bssSegment g.interpOffset ph ∈ g.segments := mem_segments.mpr ⟨ph, hph, .inr ⟨by omega, rfl⟩⟩
      refine ⟨_, hperm.mem_iff.mpr hseg, (meets_iff_holds (sound_segments h _ hseg) hp).mpr ⟨a, hpage, ?_⟩, ?_⟩
      · unfold Segment.Holds
        rw [haddr, hlen, hlen32]
        omega
      · exact hbss.symm ▸ hbit

/-- Maps of a program as the memory model has them. -/
theorem exists_maps (hperm : segs.Perm g.segments) :
    ∃ maps : List Exaros.SegmentMap, maps.map (fun s => (s.loadAddr, s.len, s.flag)) = segs.map Segment.key := by
  have hflag : ∀ seg ∈ segs, seg.flag = PTE_EXECUTE_BIT ||| PTE_READ_BIT ||| PTE_WRITE_BIT ∨
      seg.flag = PTE_READ_BIT ||| PTE_WRITE_BIT ||| MAP_ZERO := fun seg hseg => by
    obtain ⟨ph, -, hcase⟩ := mem_segments.mp (hperm.mem_iff.mp hseg)
    rcases hcase with ⟨-, rfl⟩ | ⟨-, rfl⟩
    · exact .inl rfl
    · exact .inr rfl
  clear hperm
  induction segs with
  | nil => exact ⟨[], rfl⟩
  | cons seg segs ih =>
    obtain ⟨maps, hmaps⟩ := ih fun s hs => hflag s (List.mem_cons_of_mem _ hs)
    refine ⟨⟨seg.loadAddr, seg.len, seg.flag, hflag seg List.mem_cons_self⟩ :: maps, ?_⟩
    rw [List.map_cons, List.map_cons, hmaps]
    rfl

theorem lt_of_within (h : g.Valid) (hph : ph ∈ g.loads) (hpage : a / PAGE_SIZE = va / PAGE_SIZE) (ha : g.Within ph a) :
    va < USER_STACK_BOTTOM := by
  have hbelow := h.below ph hph
  have hbottom : USER_STACK_BOTTOM = 0x3EFFFFD * PAGE_SIZE := by decide
  obtain ⟨-, hhi⟩ := ha
  rw [hbottom]
  unfold PAGE_SIZE at *
  omega

section Fault

variable {read : Nat → Nat → Nat → List UInt8}

/-- A program whose zeros fit loads on demand, whatever the order of its maps. -/
theorem loadsOnDemand_of_small (h : g.Valid) (hsmall : g.Small) (hread : Reads read g.src g.file)
    (hperm : segs.Perm g.segments) : g.LoadsOnDemand read segs := by
  intro img dirs m d va hinv hd hv hmem hin
  obtain ⟨ph, hph, a, hpage, hwithin⟩ := hin
  have hva := lt_of_within h hph hpage hwithin
  have hp := userPage_of_lt hva
  obtain ⟨maps, hkeys⟩ := exists_maps hperm
  have hsound : ∀ seg ∈ segs, seg.Sound g.src g.file := fun seg hseg => sound_segments h seg (hperm.mem_iff.mp hseg)
  have hsymm : ∀ {seg seg' : Segment}, seg.Apart seg' → seg'.Apart seg := fun hapart a ha' ha => hapart a ha ha'
  have hapart : segs.Pairwise Segment.Apart := (hperm.pairwise_iff hsymm).mpr (apart_segments h)
  obtain ⟨data, heq, hdata⟩ := passiveAlloc_eq (d := d) hkeys hva (by omega : 0 < m.freePageList.length) hread h.size hsound
    hapart
  -- the page meets one of the two maps of the header
  have hmeets : segs.any (·.meets (alignDown va)) = true := by
    have hex : ∃ seg ∈ g.segments, seg.Holds a := by
      have hlen32 : u32 (ph.memsz - ph.filesz) = ph.memsz - ph.filesz := Nat.mod_eq_of_lt (hsmall ph hph)
      unfold Program.Within at hwithin
      by_cases hfile : a < g.base ph + ph.filesz
      · obtain ⟨haddr, hlen⟩ := fileSegment_fields h hph
        refine ⟨_, mem_segments.mpr ⟨ph, hph, .inl ⟨by omega, rfl⟩⟩, ?_⟩
        unfold Segment.Holds
        rw [haddr, hlen]
        omega
      · obtain ⟨haddr, hlen⟩ := bssSegment_fields h hph
        refine ⟨_, mem_segments.mpr ⟨ph, hph, .inr ⟨by omega, rfl⟩⟩, ?_⟩
        unfold Segment.Holds
        rw [haddr, hlen, hlen32]
        omega
    obtain ⟨seg, hseg, hholds⟩ := hex
    refine List.any_eq_true.mpr ⟨seg, hperm.mem_iff.mpr hseg, ?_⟩
    exact meets_of_holds (sound_segments h seg hseg) hp (hpage.trans (alignDown_div va).symm) hholds
  have hcontents := hdata hmeets
  have hstack : ¬ (USER_STACK_BOTTOM ≤ va ∧ va < USER_STACK_TOP) := by omega
  have hlazy : Lazy maps va := by
    rw [← any_of_keys hkeys, List.any_eq_true] at hmeets
    exact .inr hmeets
  have hmissing := missing_le (hasTable m d) (vpn va)
  obtain ⟨y, m', hok, b⟩ := hinv.passiveAlloc_exact hd hv data hlazy (by omega)
  have hlazyPerm : lazyPerm maps va = PTE_USER_BIT ||| permOf (alignDown va) segs := by
    unfold lazyPerm permOf
    rw [if_neg hstack, perm_of_keys hkeys]
  have hy : pte2Ppn (touchPte y (lazyPerm maps va)) = y := pte2Ppn_touchPte b.managed (permOk_lazyPerm maps va)
  have hram : m'.ram (pte2Ppn (touchPte y (lazyPerm maps va))) = data := by
    rw [b.filled.page]
    exact if_neg hstack
  obtain ⟨hbytes, hrest⟩ := bytes_of_contents h hperm hcontents
  refine ⟨m', touchPte y (lazyPerm maps va), ?_, b.filled.change.view_self hd, ?_, ?_, ?_⟩
  · rw [heq, hy]
    exact hok
  · rw [hram]
    exact hbytes
  · rw [hram]
    exact hrest
  · exact ⟨y, permOf (alignDown va) segs, by rw [hlazyPerm], fun i => perm_of_parts h hsmall hperm hva⟩

/-- With zeros of 4 GiB or more, there is a page of the program that no map meets. -/
theorem exists_unmet (h : g.Valid) (hph : ph ∈ g.loads) (hlarge : 2 ^ 32 ≤ ph.memsz - ph.filesz)
    (hperm : segs.Perm g.segments) :
    ∃ va < USER_STACK_BOTTOM, (∃ a, a / PAGE_SIZE = va / PAGE_SIZE ∧ g.Within ph a) ∧
      ∀ seg ∈ segs, seg.meets (alignDown va) = false := by
  have hbelow := h.below ph hph
  have hgap : u32 (ph.memsz - ph.filesz) + 2 ^ 32 ≤ ph.memsz - ph.filesz := by
    unfold u32 at *
    omega
  -- the first page behind what is left of the zeros
  obtain ⟨va, hva⟩ : ∃ va, va =
    (g.base ph + ph.filesz + u32 (ph.memsz - ph.filesz) + (PAGE_SIZE - 1)) / PAGE_SIZE * PAGE_SIZE := ⟨_, rfl⟩
  have hup : g.base ph + ph.filesz + u32 (ph.memsz - ph.filesz) ≤ va ∧
      va < g.base ph + ph.filesz + u32 (ph.memsz - ph.filesz) + PAGE_SIZE ∧ va % PAGE_SIZE = 0 := by
    rw [hva]
    unfold PAGE_SIZE
    omega
  have hsize : PAGE_SIZE = 4096 := rfl
  have hlt : va < USER_STACK_BOTTOM := by omega
  have hwithin : ∀ a, a / PAGE_SIZE = va / PAGE_SIZE → g.Within ph a ∧
      g.base ph + ph.filesz + u32 (ph.memsz - ph.filesz) ≤ a := fun a hpage => by
    unfold Program.Within
    rw [hsize] at hpage hup
    omega
  refine ⟨va, hlt, ⟨va, rfl, (hwithin va rfl).1⟩, fun seg hseg => ?_⟩
  have hseg := hperm.mem_iff.mp hseg
  rw [← Bool.not_eq_true, meets_iff_holds (sound_segments h seg hseg) (userPage_of_lt hlt)]
  intro hex
  obtain ⟨a, hpage, ha⟩ := hex
  rw [alignDown_div] at hpage
  obtain ⟨hin, hbehind⟩ := hwithin a hpage
  obtain ⟨ph', hph', hcase⟩ := mem_segments.mp hseg
  obtain rfl := eq_of_within h hph hph' hin (within_of_holds h hph' (hcase.imp (·.2) (·.2)) ha)
  have hhi := ha.2
  rcases hcase with ⟨-, rfl⟩ | ⟨-, rfl⟩
  · obtain ⟨haddr, hlen⟩ := fileSegment_fields h hph
    rw [haddr, hlen] at hhi
    omega
  · obtain ⟨haddr, hlen⟩ := bssSegment_fields h hph
    rw [haddr, hlen] at hhi
    omega

/-- A fault there stops the kernel. -/
theorem not_loadsOnDemand (h : g.Valid) (hph : ph ∈ g.loads) (hlarge : 2 ^ 32 ≤ ph.memsz - ph.filesz)
    (hperm : segs.Perm g.segments) : ¬ g.LoadsOnDemand read segs := by
  intro hall
  obtain ⟨va, hva, hin, hunmet⟩ := exists_unmet h hph hlarge hperm
  obtain ⟨dirs, d, m, hinv, hd, -, hlen, hempty⟩ := exists_emptyProcess
  obtain ⟨m', e, hok, -⟩ := hall _ dirs m d va hinv hd (hempty _) (by omega) ⟨ph, hph, hin⟩
  have hloop : segs.foldlM (lazyTurn read (alignDown va)) ⟨none, 0, m⟩ = .ok ⟨none, 0, m⟩ := by
    clear hall hperm hok
    induction segs with
    | nil => rfl
    | cons seg segs ih =>
      have hturn : lazyTurn read (alignDown va) ⟨none, 0, m⟩ seg = .ok ⟨none, 0, m⟩ :=
        if_neg (of_decide_eq_false (hunmet seg List.mem_cons_self))
      rw [List.foldlM_cons, hturn, Loop.ok_bind]
      exact ih fun s hs => hunmet s (List.mem_cons_of_mem _ hs)
  unfold passiveAlloc at hok
  have hstack : ¬ (USER_STACK_BOTTOM ≤ va ∧ va < USER_STACK_TOP) := by omega
  rw [if_neg hstack, hloop] at hok
  cases hok

end Fault

end Page

/-! ## Over a run -/

theorem Listed.unique {s : World} {p : Nat} {segs segs' : List Segment} (h : Listed s p segs) (h' : Listed s p segs') :
    segs' = segs := by
  obtain ⟨l, hcells, rfl⟩ := h
  obtain ⟨l', hcells', rfl⟩ := h'
  rw [hcells.unique hcells']

/-- In every run from `exec` on, every process that runs the program gets each of its pages right at the first fault
there, exactly if the zeros of each header are less than 4 GiB. -/
theorem loads_on_demand_iff {g : Program} {read : Nat → Nat → Nat → List UInt8} {s₀ : World} {p : Nat} (h : g.Valid)
    (hread : Reads read g.src g.file) (hstart : Started g.segments.reverse s₀ p) :
    (∀ s R q, Descent s₀ p s R → R q → ∃ segs, Listed s q segs ∧ g.LoadsOnDemand read segs) ↔
      ∀ ph ∈ g.loads, ph.memsz - ph.filesz < 2 ^ 32 := by
  constructor
  · intro hall ph hph
    by_contra hlarge
    obtain ⟨segs, hlisted, hloads⟩ := hall s₀ _ p .start rfl
    obtain rfl := hstart.listed.unique hlisted
    exact not_loadsOnDemand h hph (Nat.not_lt.mp hlarge) (List.reverse_perm _) hloads
  · intro hsmall s R q run hq
    obtain ⟨segs, hlisted, hperm⟩ := listed_of_descent hstart run hq
    exact ⟨segs, hlisted, loadsOnDemand_of_small h hsmall hread (hperm.trans (List.reverse_perm _))⟩

/-- A program with one header, of which `filesz` bytes are in the file. -/
def oneHeader (filesz memsz : Nat) : Program :=
  ⟨5, 0, [⟨PT_LOAD, 0, 0x10000, filesz, memsz⟩], List.replicate filesz 7⟩

/-- `metaRead` of one file. -/
def readFile (file : List UInt8) (_ off n : Nat) : List UInt8 := (file.drop off).take n

theorem reads_readFile (src : Nat) (file : List UInt8) : Reads (readFile file) src file := fun _ _ _ _ => rfl

theorem valid_oneHeader {filesz memsz : Nat} (hfile : filesz < 2 ^ 32) (hle : filesz ≤ memsz) (hmem : memsz ≤ 2 ^ 32) :
    (oneHeader filesz memsz).Valid := by
  have hloads : (oneHeader filesz memsz).loads = [⟨PT_LOAD, 0, 0x10000, filesz, memsz⟩] := rfl
  have hlen : (oneHeader filesz memsz).file.length = filesz := List.length_replicate
  have hbottom : 0x10000 + 2 ^ 32 ≤ USER_STACK_BOTTOM := by decide
  refine ⟨by rw [hlen]; exact hfile, ?_, ?_, ?_, ?_⟩
  · rw [hloads]
    exact List.forall_mem_singleton.mpr hle
  · rw [hloads, hlen]
    exact List.forall_mem_singleton.mpr (Nat.le_of_eq (Nat.zero_add _))
  · rw [hloads]
    refine List.forall_mem_singleton.mpr ?_
    show 0x10000 + 0 + memsz ≤ USER_STACK_BOTTOM
    omega
  · rw [hloads]
    exact List.pairwise_singleton ..

/-- A process of the kernel's own calls `exec`. -/
theorem exists_started_oneHeader : (∃ s, Started (oneHeader 16 32).segments.reverse s 0) ∧
    ∃ s, Started (oneHeader 0 (2 ^ 32)).segments.reverse s 0 := by
  have h₀ : Reach Initial Next boot := .init ⟨rfl, fun _ => rfl, fun _ => rfl, fun _ => rfl⟩
  have h₁ := h₀.step ⟨.create 0, rfl, rfl⟩
  have halone : ∀ u c, u ≠ 7 → (setState boot 0 .live).calls u = some c → c.process ≠ 0 := fun u c _ hc => by cases hc
  have he : Enabled (setState boot 0 .live) (.exec 7 0) := ⟨rfl, .inl rfl⟩
  have hexec : ∀ g : Program, ∀ s₁ s₂ s₃ s', perform (setState boot 0 .live) (.exec 7 0) = .ok s₁ →
      perform s₁ (.elf 7 g.src g.interpOffset g.phs.length) = .ok s₂ →
      (g.phs.map (Event.phdr 7)).foldlM perform s₂ = .ok s₃ → perform s₃ (.done 7) = .ok s' →
      Started g.segments.reverse s' 0 := fun g _ _ _ _ e₁ e₂ e₃ e₄ => started_of_exec h₁ he halone e₁ e₂ e₃ e₄
  exact ⟨⟨_, hexec (oneHeader 16 32) _ _ _ _ rfl rfl rfl rfl⟩, ⟨_, hexec (oneHeader 0 (2 ^ 32)) _ _ _ _ rfl rfl rfl rfl⟩⟩

/-- A program of sixteen bytes and sixteen zeros. -/
theorem loads_on_demand_iff_small : ∃ s₀, ∀ s R q, Descent s₀ 0 s R → R q →
    ∃ segs, Listed s q segs ∧ (oneHeader 16 32).LoadsOnDemand (readFile (oneHeader 16 32).file) segs := by
  obtain ⟨s₀, hstart⟩ := exists_started_oneHeader.1
  have hvalid : (oneHeader 16 32).Valid := valid_oneHeader (by decide) (by decide) (by decide)
  refine ⟨s₀, (loads_on_demand_iff hvalid (reads_readFile _ _) hstart).mpr ?_⟩
  have hloads : (oneHeader 16 32).loads = [⟨PT_LOAD, 0, 0x10000, 16, 32⟩] := rfl
  rw [hloads]
  exact List.forall_mem_singleton.mpr (by decide)

/-- A program of 4 GiB of zeros: the length of its map is zero, and its pages are not there. -/
theorem zeros_cut_short : ∃ s₀, (oneHeader 0 (2 ^ 32)).Valid ∧ Started (oneHeader 0 (2 ^ 32)).segments.reverse s₀ 0 ∧
    ¬ ∀ s R q, Descent s₀ 0 s R → R q →
      ∃ segs, Listed s q segs ∧ (oneHeader 0 (2 ^ 32)).LoadsOnDemand (readFile (oneHeader 0 (2 ^ 32)).file) segs := by
  obtain ⟨s₀, hstart⟩ := exists_started_oneHeader.2
  have hvalid : (oneHeader 0 (2 ^ 32)).Valid := valid_oneHeader (by decide) (by decide) (by decide)
  refine ⟨s₀, hvalid, hstart, fun hall => ?_⟩
  obtain ⟨segs, hlisted, hloads⟩ := hall s₀ _ 0 .start rfl
  obtain rfl := hstart.listed.unique hlisted
  have hph : (⟨PT_LOAD, 0, 0x10000, 0, 2 ^ 32⟩ : Phdr) ∈ (oneHeader 0 (2 ^ 32)).loads := List.mem_singleton.mpr rfl
  exact not_loadsOnDemand hvalid hph (by decide) (List.reverse_perm _) hloads

end Exaros.Segments
