import Exaros.Memory.Loaded
import Exaros.Memory.Access
import Exaros.Process.Segments

/-!
# A page brought in from its segments

The loop of `passiveAlloc` over the segment maps of a process. Each map that meets the page reads its part of the file
to its place in the page; as the maps lie apart, no part overwrites another, and the order of the list does not matter.
-/

namespace Exaros.Segments

open Exec (u32)

/-! ## The loop -/

/-- The locals of `passiveAlloc`: the page, once there is one, its permissions, and memory. -/
structure Filling where
  pp : Option Ppn
  perm : Pte
  mem : Mem

/-- The page, allocated by the first map that meets it. -/
def lazyPage (s : Filling) : Except Panic (Ppn × Mem) :=
  match s.pp with
  | some pp => .ok (pp, s.mem)
  | none => (pageAlloc s.mem).elim (.error .lazySegment) .ok

/-- `metaRead` of a part of a segment into the page. -/
def readPart (read : Nat → Nat → Nat → List UInt8) (curSeg : Segment) (start stop : Nat) (pp : Ppn) (m : Mem) : Mem :=
  match curSeg.src with
  | none => m
  | some src =>
    storeBytes (pp <<< PAGE_SHIFT + start % PAGE_SIZE)
      (read src (u32 (curSeg.srcOffset + start - curSeg.loadAddr)) (u32 (stop - start))) m

/-- One turn of the loop of `passiveAlloc`. -/
def lazyTurn (read : Nat → Nat → Nat → List UInt8) (pageStart : Nat) (s : Filling) (curSeg : Segment) :
    Except Panic Filling :=
  let start := max curSeg.loadAddr pageStart
  let stop := min (u64 (curSeg.loadAddr + curSeg.len)) (u64 (pageStart + PAGE_SIZE))
  if start < stop then do
    let (pp, mem) ← lazyPage s
    let mem := if curSeg.flag &&& MAP_ZERO = 0 then readPart read curSeg start stop pp mem else mem
    return { pp := some pp, perm := s.perm ||| (curSeg.flag &&& ~~~ MAP_ZERO), mem }
  else .ok s

/-- **`passiveAlloc`** of a process with these maps. -/
def passiveAlloc (read : Nat → Nat → Nat → List UInt8) (segs : List Segment) (pgdir : Ppn) (badAddr : Nat) (m : Mem) :
    Except Panic (Nat × Mem) :=
  if USER_STACK_BOTTOM ≤ badAddr ∧ badAddr < USER_STACK_TOP then
    -- a page of the stack, which no map has a say in
    Exaros.passiveAlloc [] (fun _ => 0) pgdir badAddr m
  else do
    let s ← segs.foldlM (lazyTurn read (alignDown badAddr)) ⟨none, 0, m⟩
    match s.pp with
    | none => throw .lazySegment
    | some pp =>
      let (_, m) ← pageInsert pgdir badAddr pp (PTE_USER_BIT ||| s.perm) s.mem
      return (pp <<< PAGE_SHIFT + vaOffset badAddr, m)

/-! ## What the maps say of a page -/

/-- The map meets the page that starts at `pageStart`. -/
def Segment.meets (seg : Segment) (pageStart : Nat) : Bool :=
  max seg.loadAddr pageStart < min (u64 (seg.loadAddr + seg.len)) (u64 (pageStart + PAGE_SIZE))

/-- The address is one of the map's. -/
def Segment.Holds (seg : Segment) (a : Nat) : Prop := seg.loadAddr ≤ a ∧ a < seg.loadAddr + seg.len

/-- The contents of the map are in a file. -/
def Segment.InFile (seg : Segment) : Prop := seg.flag &&& MAP_ZERO = 0

instance (seg : Segment) : Decidable seg.InFile := inferInstanceAs (Decidable (_ = _))

/-- What a `metaRead` of at most a page reads that stays in the file. -/
def Reads (read : Nat → Nat → Nat → List UInt8) (src : Nat) (file : List UInt8) : Prop :=
  ∀ off n, off + n ≤ file.length → n ≤ PAGE_SIZE → read src off n = (file.drop off).take n

/-- A map below the stack whose part of the file is there. -/
structure Segment.Sound (src : Nat) (file : List UInt8) (seg : Segment) : Prop where
  fits : seg.loadAddr + seg.len ≤ USER_STACK_BOTTOM
  file : seg.InFile → seg.src = some src ∧ seg.srcOffset + seg.len ≤ file.length

/-- No address is in two maps. -/
def Segment.Apart (seg seg' : Segment) : Prop := ∀ a, seg.Holds a → ¬ seg'.Holds a

/-- What a page holds once some maps have been read in. -/
structure Contents (file : List UInt8) (pageStart : Nat) (segs : List Segment) (data : Idx → BitVec 64) : Prop where
  inFile : ∀ seg ∈ segs, seg.InFile → ∀ a, a / PAGE_SIZE = pageStart / PAGE_SIZE → seg.Holds a →
    pageByte data a = file.getD (seg.srcOffset + (a - seg.loadAddr)) 0
  zero : ∀ a, a / PAGE_SIZE = pageStart / PAGE_SIZE → (∀ seg ∈ segs, seg.InFile → ¬ seg.Holds a) → pageByte data a = 0

/-- The permissions of the maps that meet a page. -/
def permOf (pageStart : Nat) (segs : List Segment) : Pte :=
  (segs.filter (·.meets pageStart)).foldl (fun perm seg => perm ||| (seg.flag &&& ~~~ MAP_ZERO)) 0

section Store

variable {m : Mem} {y : Ppn} {data : Idx → BitVec 64} {pa off : Nat}

theorem storeByte_setPage (ch : UInt8) (hpa : pa / PAGE_SIZE = y) :
    ∃ data', storeByte (m.setPage y data) pa ch = m.setPage y data' := by
  refine ⟨(storeByte (m.setPage y data) pa ch).ram y, ?_⟩
  unfold storeByte Mem.write Mem.setPage
  rw [hpa]
  refine congrArg (fun ram => { m with ram := ram }) ?_
  funext p i
  by_cases hp : p = y
  · subst hp
    simp
  · simp [hp]

/-- Stores within a page change that page. -/
theorem storeBytes_setPage (bs : List UInt8) (hpa : pa / PAGE_SIZE = y) (hfit : pa % PAGE_SIZE + bs.length ≤ PAGE_SIZE) :
    ∃ data', storeBytes pa bs (m.setPage y data) = m.setPage y data' := by
  induction bs generalizing pa data with
  | nil => exact ⟨data, rfl⟩
  | cons ch bs ih =>
    obtain ⟨data₁, h₁⟩ : ∃ data₁, storeByte (m.setPage y data) pa ch = m.setPage y data₁ := storeByte_setPage ch hpa
    unfold storeBytes
    rw [h₁]
    cases bs with
    | nil => exact ⟨data₁, rfl⟩
    | cons ch' bs =>
      rw [List.length_cons, List.length_cons] at hfit
      have hsize : PAGE_SIZE = 4096 := rfl
      rw [hsize] at hpa hfit
      apply ih
      · rw [hsize]
        omega
      · rw [hsize, List.length_cons]
        omega

theorem setPage_twice (m : Mem) (y : Ppn) (data : Idx → BitVec 64) : (m.setPage y data).setPage y data = m.setPage y data := by
  refine congrArg (fun ram => { m with ram := ram }) ?_
  funext p
  dsimp only [Mem.setPage]
  split
  · rfl
  · rfl

theorem ram_setPage : (m.setPage y data).ram y = data := if_pos rfl

/-- The bytes stored in a page, and the others. -/
theorem exists_stored (m : Mem) (y : Ppn) (data : Idx → BitVec 64) (bs : List UInt8) (hfit : off + bs.length ≤ PAGE_SIZE)
    (hoff : off < PAGE_SIZE) :
    ∃ data', storeBytes (y <<< PAGE_SHIFT + off) bs (m.setPage y data) = m.setPage y data' ∧
      (∀ (i : Nat) (hi : i < bs.length), pageByte data' (off + i) = bs[i]) ∧
      ∀ x < PAGE_SIZE, (x < off ∨ off + bs.length ≤ x) → pageByte data' x = pageByte data x := by
  have hin : (y <<< PAGE_SHIFT + off) % PAGE_SIZE + bs.length ≤ PAGE_SIZE := by
    rw [page_add_mod hoff]
    exact hfit
  obtain ⟨data', hstore⟩ : ∃ data', storeBytes (y <<< PAGE_SHIFT + off) bs (m.setPage y data) = m.setPage y data' :=
    storeBytes_setPage bs (page_add_div hoff) hin
  have hbyte : ∀ x < PAGE_SIZE, pageByte data' x =
      loadByte (storeBytes (y <<< PAGE_SHIFT + off) bs (m.setPage y data)) (y <<< PAGE_SHIFT + x) := fun x hx => by
    rw [hstore, loadByte_page _ hx, ram_setPage]
  refine ⟨data', hstore, fun i hi => ?_, fun x hx hout => ?_⟩
  · rw [hbyte _ (by omega), ← Nat.add_assoc]
    exact loadByte_storeBytes_at bs _ hi
  · rw [hbyte x hx, loadByte_storeBytes_off bs _ (by omega), loadByte_page _ hx, ram_setPage]

theorem pageByte_mod (data : Idx → BitVec 64) (a : Nat) : pageByte data (a % PAGE_SIZE) = pageByte data a := by
  have hmod : a % PAGE_SIZE % 8 = a % 8 := Nat.mod_mod_of_dvd a (by decide)
  unfold pageByte
  rw [Nat.mod_mod, hmod]

end Store

/-! ## One map after the other -/

section Turn

variable {read : Nat → Nat → Nat → List UInt8} {file : List UInt8} {src pageStart a : Nat} {m m₁ : Mem} {y : Ppn}
  {data : Idx → BitVec 64} {seg : Segment} {segs rest : List Segment}

/-- A page of user memory. -/
def UserPage (pageStart : Nat) : Prop := pageStart % PAGE_SIZE = 0 ∧ pageStart < VA_MAX

theorem meets_iff (h : seg.Sound src file) (hp : UserPage pageStart) :
    seg.meets pageStart = true ↔ max seg.loadAddr pageStart < min (seg.loadAddr + seg.len) (pageStart + PAGE_SIZE) := by
  have hbottom : USER_STACK_BOTTOM < 2 ^ 63 := by decide
  have hmax : VA_MAX < 2 ^ 63 := by decide
  have hsize : PAGE_SIZE < 2 ^ 62 := by decide
  have hfits := h.fits
  have hlt := hp.2
  have hstop : u64 (seg.loadAddr + seg.len) = seg.loadAddr + seg.len := Nat.mod_eq_of_lt (by omega)
  have hend : u64 (pageStart + PAGE_SIZE) = pageStart + PAGE_SIZE := Nat.mod_eq_of_lt (by omega)
  unfold Segment.meets
  rw [hstop, hend, decide_eq_true_iff]

/-- A map that holds an address of the page meets it. -/
theorem meets_of_holds (h : seg.Sound src file) (hp : UserPage pageStart) (hpage : a / PAGE_SIZE = pageStart / PAGE_SIZE)
    (ha : seg.Holds a) : seg.meets pageStart = true := by
  rw [meets_iff h hp]
  obtain ⟨hmod, -⟩ := hp
  obtain ⟨hlo, hhi⟩ := ha
  unfold PAGE_SIZE at *
  omega

/-- A map that does not meet the page says nothing of it. -/
theorem Contents.skip (h : Contents file pageStart segs data) (hseg : seg.Sound src file) (hp : UserPage pageStart)
    (hmeets : seg.meets pageStart = false) : Contents file pageStart (segs ++ [seg]) data := by
  have hnone : ∀ a, a / PAGE_SIZE = pageStart / PAGE_SIZE → ¬ seg.Holds a := fun a hpage ha => by
    rw [meets_of_holds hseg hp hpage ha] at hmeets
    cases hmeets
  refine ⟨fun seg' hmem hfile a hpage ha => ?_, fun a hpage hno => ?_⟩
  · rcases List.mem_append.mp hmem with hmem | hmem
    · exact h.inFile seg' hmem hfile a hpage ha
    · obtain rfl := List.mem_singleton.mp hmem
      exact absurd ha (hnone a hpage)
  · exact h.zero a hpage fun seg' hmem => hno seg' (List.mem_append_left _ hmem)

/-- A map of zeros leaves the page as it is. -/
theorem Contents.bss (h : Contents file pageStart segs data) (hzero : ¬ seg.InFile) :
    Contents file pageStart (segs ++ [seg]) data := by
  refine ⟨fun seg' hmem hfile a hpage ha => ?_, fun a hpage hno => ?_⟩
  · rcases List.mem_append.mp hmem with hmem | hmem
    · exact h.inFile seg' hmem hfile a hpage ha
    · obtain rfl := List.mem_singleton.mp hmem
      exact absurd hfile hzero
  · exact h.zero a hpage fun seg' hmem => hno seg' (List.mem_append_left _ hmem)

theorem contents_nil (file : List UInt8) (pageStart : Nat) : Contents file pageStart [] fun _ => 0 := by
  refine ⟨fun seg hmem => (by cases hmem), fun a _ _ => ?_⟩
  unfold pageByte
  simp

/-- A map in the file puts its part in its place. -/
theorem Contents.load (h : Contents file pageStart segs data) (hread : Reads read src file) (hsize : file.length < 2 ^ 32)
    (hseg : seg.Sound src file) (hp : UserPage pageStart) (hmeets : seg.meets pageStart = true) (hfile : seg.InFile)
    (hapart : ∀ seg' ∈ segs, seg.Apart seg') :
    ∃ data', readPart read seg (max seg.loadAddr pageStart)
        (min (u64 (seg.loadAddr + seg.len)) (u64 (pageStart + PAGE_SIZE))) y (m.setPage y data) = m.setPage y data' ∧
      Contents file pageStart (segs ++ [seg]) data' := by
  have hbounds := (meets_iff hseg hp).mp hmeets
  obtain ⟨hsrc, hlen⟩ := hseg.file hfile
  have hfits := hseg.fits
  have hbottom : USER_STACK_BOTTOM < 2 ^ 63 := by decide
  have hstop : u64 (seg.loadAddr + seg.len) = seg.loadAddr + seg.len := Nat.mod_eq_of_lt (by omega)
  obtain ⟨hmod, hlt⟩ := hp
  have hend : u64 (pageStart + PAGE_SIZE) = pageStart + PAGE_SIZE := Nat.mod_eq_of_lt (by unfold PAGE_SIZE; omega)
  obtain ⟨start, hstart⟩ : ∃ start, start = max seg.loadAddr pageStart := ⟨_, rfl⟩
  obtain ⟨n, hn⟩ : ∃ n, min (seg.loadAddr + seg.len) (pageStart + PAGE_SIZE) = start + n :=
    ⟨min (seg.loadAddr + seg.len) (pageStart + PAGE_SIZE) - start, by omega⟩
  obtain ⟨skip, hskip⟩ : ∃ skip, start = seg.loadAddr + skip := ⟨start - seg.loadAddr, by omega⟩
  have hpage : n ≤ PAGE_SIZE := by omega
  have hinFile : seg.srcOffset + skip + n ≤ file.length := by omega
  have hoff : u32 (seg.srcOffset + start - seg.loadAddr) = seg.srcOffset + skip := by
    rw [hskip, show seg.srcOffset + (seg.loadAddr + skip) - seg.loadAddr = seg.srcOffset + skip by omega]
    exact Nat.mod_eq_of_lt (by omega)
  have hn32 : u32 n = n := Nat.mod_eq_of_lt (by omega)
  have hbytes : read src (u32 (seg.srcOffset + start - seg.loadAddr)) (u32 n) =
      (file.drop (seg.srcOffset + skip)).take n := by
    rw [hoff, hn32]
    exact hread _ _ hinFile hpage
  have hlength : ((file.drop (seg.srcOffset + skip)).take n).length = n := by
    rw [List.length_take, List.length_drop]
    omega
  have hplace : start % PAGE_SIZE = start - pageStart := by
    unfold PAGE_SIZE at *
    omega
  obtain ⟨data', hstore, hat, hout⟩ := exists_stored m y data ((file.drop (seg.srcOffset + skip)).take n)
    (show start % PAGE_SIZE + _ ≤ PAGE_SIZE by rw [hlength, hplace]; omega) (Nat.mod_lt _ (by decide))
  rw [hlength] at hout
  have hother : ∀ a, a / PAGE_SIZE = pageStart / PAGE_SIZE → ¬ seg.Holds a → pageByte data' a = pageByte data a := by
    intro a hapage ha
    rw [← pageByte_mod data', ← pageByte_mod data]
    apply hout _ (Nat.mod_lt _ (by decide))
    unfold Segment.Holds at ha
    rw [hplace]
    unfold PAGE_SIZE at *
    omega
  refine ⟨data', ?_, fun seg' hmem hfile' a hapage ha => ?_, fun a hapage hno => ?_⟩
  · unfold readPart
    rw [hsrc, hstop, hend, hn, ← hstart, Nat.add_sub_cancel_left]
    dsimp only
    rw [hbytes]
    exact hstore
  · rcases List.mem_append.mp hmem with hmem | hmem
    · rw [hother a hapage fun hin => hapart seg' hmem a hin ha]
      exact h.inFile seg' hmem hfile' a hapage ha
    · obtain rfl := List.mem_singleton.mp hmem
      obtain ⟨i, hi⟩ : ∃ i, a = start + i := ⟨a - start, by
        have := ha.1
        unfold PAGE_SIZE at *
        omega⟩
      have hin : i < n := by
        have := ha.2
        unfold PAGE_SIZE at *
        omega
      have hmodi : a % PAGE_SIZE = start % PAGE_SIZE + i := by
        unfold PAGE_SIZE at *
        omega
      rw [← pageByte_mod, hmodi, hat i (by rw [hlength]; exact hin), List.getElem_take, List.getElem_drop,
        List.getD_eq_getElem?_getD, show seg'.srcOffset + (a - seg'.loadAddr) = seg'.srcOffset + skip + i by omega,
        List.getElem?_eq_getElem (by omega), Option.getD_some]
  · rw [hother a hapage (hno seg (List.mem_append_right _ List.mem_cons_self) hfile)]
    exact h.zero a hapage fun seg' hmem => hno seg' (List.mem_append_left _ hmem)

/-- What the loop has done with some maps, when the first free page is `y`. -/
structure Looped (file : List UInt8) (pageStart : Nat) (m : Mem) (y : Ppn) (m₁ : Mem) (segs : List Segment) (s : Filling) :
    Prop where
  perm : s.perm = permOf pageStart segs
  before : segs.any (·.meets pageStart) = false → s.pp = none ∧ s.mem = m
  page : segs.any (·.meets pageStart) = true →
    s.pp = some y ∧ ∃ data, s.mem = m₁.setPage y data ∧ Contents file pageStart segs data

theorem permOf_snoc (pageStart : Nat) (segs : List Segment) (seg : Segment) : permOf pageStart (segs ++ [seg]) =
    if seg.meets pageStart then permOf pageStart segs ||| (seg.flag &&& ~~~ MAP_ZERO) else permOf pageStart segs := by
  unfold permOf
  rw [List.filter_append, List.foldl_append]
  by_cases hmeets : seg.meets pageStart = true
  · simp [hmeets]
  · simp [hmeets]

/-- A page that no map meets holds nothing of them. -/
theorem contents_of_none (hsound : ∀ seg ∈ segs, seg.Sound src file) (hp : UserPage pageStart)
    (hnone : segs.any (·.meets pageStart) = false) : Contents file pageStart segs fun _ => 0 := by
  refine ⟨fun seg hmem _ a hpage ha => ?_, fun a _ _ => (contents_nil file pageStart).zero a ‹_› fun _ h => (by cases h)⟩
  have hmeets := meets_of_holds (hsound seg hmem) hp hpage ha
  rw [List.any_eq_false] at hnone
  exact absurd hmeets (hnone seg hmem)

/-- One turn. -/
theorem Looped.turn {s : Filling} (f : Looped file pageStart m y m₁ segs s) (ha : pageAlloc m = some (y, m₁))
    (hclear : m₁ = m₁.setPage y fun _ => 0) (hread : Reads read src file) (hsize : file.length < 2 ^ 32)
    (hp : UserPage pageStart) (hsound : ∀ seg ∈ segs, seg.Sound src file) (hseg : seg.Sound src file)
    (hapart : ∀ seg' ∈ segs, seg.Apart seg') :
    ∃ s', lazyTurn read pageStart s seg = .ok s' ∧ Looped file pageStart m y m₁ (segs ++ [seg]) s' := by
  have hany : (segs ++ [seg]).any (·.meets pageStart) = (segs.any (·.meets pageStart) || seg.meets pageStart) := by
    rw [List.any_append]
    simp
  unfold lazyTurn
  by_cases hmeets : seg.meets pageStart = true
  · have hstart : max seg.loadAddr pageStart < min (u64 (seg.loadAddr + seg.len)) (u64 (pageStart + PAGE_SIZE)) :=
      decide_eq_true_iff.mp hmeets
    -- the page there is, or the first free one
    obtain ⟨data, hpage, hcontents⟩ : ∃ data, lazyPage s = .ok (y, m₁.setPage y data) ∧
        Contents file pageStart segs data := by
      unfold lazyPage
      cases hmet : segs.any (·.meets pageStart) with
      | false =>
        obtain ⟨hpp, hmem⟩ := f.before hmet
        refine ⟨fun _ => 0, ?_, contents_of_none hsound hp hmet⟩
        rw [hpp, hmem, ha, ← hclear]
        rfl
      | true =>
        obtain ⟨hpp, data, hmem, hcontents⟩ := f.page hmet
        exact ⟨data, by rw [hpp, hmem], hcontents⟩
    obtain ⟨data', hstore, hcontents'⟩ : ∃ data', (if seg.flag &&& MAP_ZERO = 0 then
        readPart read seg (max seg.loadAddr pageStart) (min (u64 (seg.loadAddr + seg.len)) (u64 (pageStart + PAGE_SIZE))) y
          (m₁.setPage y data) else m₁.setPage y data) = m₁.setPage y data' ∧
        Contents file pageStart (segs ++ [seg]) data' := by
      by_cases hfile : seg.InFile
      · obtain ⟨data', hstore, hcontents'⟩ := hcontents.load hread hsize hseg hp hmeets hfile hapart (m := m₁) (y := y)
        exact ⟨data', (if_pos hfile).trans hstore, hcontents'⟩
      · exact ⟨data, if_neg hfile, hcontents.bss hfile⟩
    rw [if_pos hstart, hpage, Loop.ok_bind]
    dsimp only
    rw [hstore]
    refine ⟨_, rfl, ?_, fun hno => ?_, fun _ => ⟨rfl, data', rfl, hcontents'⟩⟩
    · rw [permOf_snoc, if_pos hmeets, ← f.perm]
    · rw [hany, hmeets, Bool.or_true] at hno
      cases hno
  · have hmiss : seg.meets pageStart = false := Bool.eq_false_iff.mpr hmeets
    have hstart : ¬ max seg.loadAddr pageStart < min (u64 (seg.loadAddr + seg.len)) (u64 (pageStart + PAGE_SIZE)) :=
      fun h => hmeets (decide_eq_true_iff.mpr h)
    rw [if_neg hstart]
    refine ⟨s, rfl, ?_, fun hno => ?_, fun hyes => ?_⟩
    · rw [permOf_snoc, if_neg hmeets, f.perm]
    · rw [hany, hmiss, Bool.or_false] at hno
      exact f.before hno
    · rw [hany, hmiss, Bool.or_false] at hyes
      obtain ⟨hpp, data, hmem, hcontents⟩ := f.page hyes
      exact ⟨hpp, data, hmem, hcontents.skip hseg hp hmiss⟩

/-- The whole loop. -/
theorem Looped.loop {s : Filling} (f : Looped file pageStart m y m₁ segs s) (ha : pageAlloc m = some (y, m₁))
    (hclear : m₁ = m₁.setPage y fun _ => 0) (hread : Reads read src file) (hsize : file.length < 2 ^ 32)
    (hp : UserPage pageStart) (hsound : ∀ seg ∈ segs ++ rest, seg.Sound src file)
    (hapart : (segs ++ rest).Pairwise Segment.Apart) :
    ∃ s', rest.foldlM (lazyTurn read pageStart) s = .ok s' ∧ Looped file pageStart m y m₁ (segs ++ rest) s' := by
  induction rest generalizing segs s with
  | nil => exact ⟨s, rfl, (List.append_nil segs).symm ▸ f⟩
  | cons seg rest ih =>
    have hseg : seg ∈ segs ++ seg :: rest := List.mem_append_right _ List.mem_cons_self
    have hbefore : ∀ seg' ∈ segs, seg.Apart seg' := fun seg' hmem a hin hin' =>
      (List.pairwise_append.mp hapart).2.2 seg' hmem seg List.mem_cons_self a hin' hin
    obtain ⟨s₁, h₁, f₁⟩ := f.turn ha hclear hread hsize hp (fun seg' h => hsound seg' (List.mem_append_left _ h))
      (hsound seg hseg) hbefore
    obtain ⟨s', h', f'⟩ := ih f₁ (by simpa using hsound) (by simpa using hapart)
    rw [List.foldlM_cons, h₁, Loop.ok_bind]
    exact ⟨s', h', by simpa using f'⟩

end Turn

/-! ## The page that results -/

/-- What the memory model keeps of a map. -/
def Segment.key (seg : Segment) : Nat × Nat × Pte := (seg.loadAddr, seg.len, seg.flag)

section Result

variable {img : Image} {dirs : Finset Ppn} {read : Nat → Nat → Nat → List UInt8} {file : List UInt8} {src va : Nat}
  {m : Mem} {d : Ppn} {segs : List Segment} {maps : List Exaros.SegmentMap}

/-- The permissions are those of the memory model. -/
theorem perm_of_keys (hkeys : maps.map (fun s => (s.loadAddr, s.len, s.flag)) = segs.map Segment.key) (pageStart : Nat)
    (perm : Pte) : (maps.filter (·.meets pageStart)).foldl (fun perm s => perm ||| (s.flag &&& ~~~ MAP_ZERO)) perm =
      (segs.filter (·.meets pageStart)).foldl (fun perm s => perm ||| (s.flag &&& ~~~ MAP_ZERO)) perm := by
  induction segs generalizing maps perm with
  | nil =>
    rw [List.map_nil, List.map_eq_nil_iff] at hkeys
    rw [hkeys]
    rfl
  | cons seg segs ih =>
    cases maps with
    | nil => cases hkeys
    | cons s maps =>
      obtain ⟨hkey, hrest⟩ := List.cons.inj hkeys
      obtain ⟨haddr, hkey⟩ := Prod.mk.inj hkey
      obtain ⟨hlen, hflag⟩ := Prod.mk.inj hkey
      have hmeets : s.meets pageStart = seg.meets pageStart := by
        unfold Exaros.SegmentMap.meets Segment.meets
        rw [haddr, hlen]
      rw [List.filter_cons, List.filter_cons, hmeets]
      split
      · rw [List.foldl_cons, List.foldl_cons, hflag]
        exact ih hrest _
      · exact ih hrest _

theorem any_of_keys (hkeys : maps.map (fun s => (s.loadAddr, s.len, s.flag)) = segs.map Segment.key) (pageStart : Nat) :
    maps.any (·.meets pageStart) = segs.any (·.meets pageStart) := by
  have hmaps : maps.any (·.meets pageStart) = (maps.map fun s => (s.loadAddr, s.len, s.flag)).any fun k =>
      decide (max k.1 pageStart < min (u64 (k.1 + k.2.1)) (u64 (pageStart + PAGE_SIZE))) := by
    rw [List.any_map]
    rfl
  rw [hmaps, hkeys, List.any_map]
  rfl

/-- **`passiveAlloc`** is that of the memory model, for a page with the contents of the maps. -/
theorem passiveAlloc_eq (hkeys : maps.map (fun s => (s.loadAddr, s.len, s.flag)) = segs.map Segment.key)
    (hva : va < USER_STACK_BOTTOM) (hmem : 0 < m.freePageList.length) (hread : Reads read src file)
    (hsize : file.length < 2 ^ 32) (hsound : ∀ seg ∈ segs, seg.Sound src file) (hapart : segs.Pairwise Segment.Apart) :
    ∃ data, passiveAlloc read segs d va m = Exaros.passiveAlloc maps data d va m ∧
      (segs.any (·.meets (alignDown va)) = true → Contents file (alignDown va) segs data) := by
  obtain ⟨y, m₁, ha⟩ := pageAlloc_of_pos hmem
  have hclear : m₁ = m₁.setPage y fun _ => 0 := by
    unfold pageAlloc at ha
    split at ha
    · cases ha
    · cases ha
      exact (setPage_twice _ _ _).symm
  have hbottom : USER_STACK_BOTTOM ≤ VA_MAX := by decide
  have hp : UserPage (alignDown va) := by
    unfold UserPage alignDown PAGE_SIZE
    omega
  have hstart : Looped file (alignDown va) m y m₁ [] ⟨none, 0, m⟩ := ⟨rfl, fun _ => ⟨rfl, rfl⟩, fun h => (by cases h)⟩
  have hsound' : ∀ seg ∈ [] ++ segs, seg.Sound src file := hsound
  obtain ⟨s, hloop, f⟩ := hstart.loop ha hclear hread hsize hp hsound' hapart
  rw [List.nil_append] at f
  have hstack : ¬ (USER_STACK_BOTTOM ≤ va ∧ va < USER_STACK_TOP) := by omega
  have hany := any_of_keys hkeys (alignDown va)
  have hperm : (maps.filter (·.meets (alignDown va))).foldl (fun perm s => perm ||| (s.flag &&& ~~~ MAP_ZERO)) 0 =
      s.perm := (perm_of_keys hkeys _ 0).trans f.perm.symm
  unfold passiveAlloc Exaros.passiveAlloc
  rw [if_neg hstack, hloop, Loop.ok_bind]
  cases hmet : segs.any (·.meets (alignDown va)) with
  | false =>
    have hnone : maps.filter (·.meets (alignDown va)) = [] := by
      rw [hmet, List.any_eq_false] at hany
      exact List.filter_eq_nil_iff.mpr hany
    refine ⟨fun _ => 0, ?_, fun h => by cases h⟩
    rw [if_neg hstack, hnone, (f.before hmet).1]
    rfl
  | true =>
    obtain ⟨hpp, data, hdata, hcontents⟩ := f.page hmet
    refine ⟨data, ?_, fun _ => hcontents⟩
    rw [if_neg hstack, hpp, hdata, ← hperm]
    cases hfilter : maps.filter (·.meets (alignDown va)) with
    | nil =>
      rw [hmet, List.any_eq_true] at hany
      obtain ⟨x, hx, hmeets⟩ := hany
      exact absurd hmeets (List.filter_eq_nil_iff.mp hfilter x hx)
    | cons seg rest =>
      rw [ha]

end Result

end Exaros.Segments
