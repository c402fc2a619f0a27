import Exaros.Dir.Encode

/-!
# The short name of a file

What `generateShortName` makes of a name is a base of eight characters and an extension of three,
`shortForm`: the characters before and after the last dot, without blanks and dots, in upper case, the
characters a short name may not have replaced. The loop of the source finds them with one pointer that
it moves on and one to the last dot that it sets to null when the dot is behind it.

`shortTurns` is that loop on memory: where it reads the name, where it stores to `shortname`, and the
length of each `memset`. It runs along with the loop of `Exaros.Dir.Encode` on lists, whose result is
`shortForm`.
-/

namespace Exaros.Dir

open Fat

/-! ## What a short name is -/

/-- The characters of a part of the name that go into the short name. -/
def shortChars (part : List Byte) : List Byte := (part.filter fun c => ¬ skipped c).map shortChar

/-- The first `n` characters of a part of the name, with spaces up to `n`. -/
def field (n : Nat) (part : List Byte) : List Byte :=
  (shortChars part).take n ++ List.replicate (n - (shortChars part).length) space

/-- What stands before the last dot: the whole name if there is none. -/
def basePart (name : List Byte) : List Byte := if name.contains dot then name.take (lastDot name) else name

/-- What stands behind the last dot. -/
def extPart (name : List Byte) : List Byte := if name.contains dot then name.drop (lastDot name + 1) else []

/-- The short name: eight characters of the base, three of the extension. -/
def shortForm (name : List Byte) : List Byte := field 8 (basePart name) ++ field 3 (extPart name)

theorem field_length (n : Nat) (part : List Byte) : (field n part).length = n := by
  unfold field
  rw [List.length_append, List.length_take, List.length_replicate]
  omega

theorem shortForm_length (name : List Byte) : (shortForm name).length = CHAR_SHORT_NAME := by
  unfold shortForm
  rw [List.length_append, field_length, field_length]
  rfl

section Chars

variable {c : Byte} {part : List Byte}

theorem shortChars_skip (h : skipped c = true) : shortChars (c :: part) = shortChars part := by
  unfold shortChars
  rw [List.filter_cons_of_neg (by simpa using h)]

theorem shortChars_take (h : ¬ skipped c = true) : shortChars (c :: part) = shortChar c :: shortChars part := by
  unfold shortChars
  rw [List.filter_cons_of_pos (by simpa using h), List.map_cons]

theorem skipped_space : skipped space = true := by decide

theorem skipped_dot : skipped dot = true := by decide

theorem not_skipped (hs : c ≠ space) (hd : c ≠ dot) : ¬ skipped c = true := fun h =>
  (of_decide_eq_true h).elim hs hd

end Chars

/-! ## The loop on lists -/

section Loop

variable {name short : List Byte} {pos k : Nat}

/-- Behind the last dot: up to three characters more. -/
theorem shortLoop_ext (n : Nat) (h0 : (0 : Byte) ∉ name) (hdots : ∀ j, pos ≤ j → name.getD j 0 ≠ dot)
    (hn : name.length < n + pos) :
    shortLoop name n pos none short = short ++ (shortChars (name.drop pos)).take (CHAR_SHORT_NAME - short.length) := by
  induction n generalizing pos short with
  | zero =>
    rw [List.drop_eq_nil_of_le (by omega)]
    simp [shortLoop, shortChars]
  | succ n ih =>
    rw [shortLoop]
    by_cases hfull : CHAR_SHORT_NAME ≤ short.length
    · rw [if_pos hfull, Nat.sub_eq_zero_of_le hfull, List.take_zero, List.append_nil]
    rw [if_neg hfull]
    by_cases hlt : pos < name.length
    · have hget : name.getD pos 0 = name[pos] := List.getD_eq_getElem _ _ hlt
      have hne : name[pos] ≠ 0 := fun h => h0 (h ▸ List.getElem_mem hlt)
      have hd : name[pos] ≠ dot := fun h => hdots pos (Nat.le_refl pos) (hget.trans h)
      have hnot : ¬ (short.length = 8 ∧ (none : Option Nat).isSome = true) := fun h => by cases h.2
      have hrest : ∀ j, pos + 1 ≤ j → name.getD j 0 ≠ dot := fun j hj => hdots j (by omega)
      rw [hget, if_neg hne, if_neg hnot, List.drop_eq_getElem_cons hlt]
      by_cases hs : name[pos] = space
      · rw [if_pos hs, ih hrest (by omega), shortChars_skip (hs ▸ skipped_space)]
      · rw [if_neg hs, if_neg hd, ih hrest (by omega), shortChars_take (not_skipped hs hd), List.append_assoc]
        have hlen : CHAR_SHORT_NAME - short.length = CHAR_SHORT_NAME - (short ++ [shortChar name[pos]]).length + 1 := by
          rw [List.length_append, List.length_singleton]
          omega
        rw [hlen, List.take_succ_cons, List.singleton_append]
    · rw [if_pos (List.getD_eq_default _ _ (by omega)), List.drop_eq_nil_of_le (by omega)]
      simp [shortChars]

/-- A name without a dot: up to eight characters. -/
theorem shortLoop_base (n : Nat) (h0 : (0 : Byte) ∉ name) (hdots : ∀ j, name.getD j 0 ≠ dot)
    (hlen : short.length ≤ 8) (hpos : short.length ≤ pos) (hn : name.length < n + pos) :
    shortLoop name n pos (some 0) short = short ++ (shortChars (name.drop pos)).take (8 - short.length) := by
  have hnum : CHAR_SHORT_NAME = 11 := rfl
  induction n generalizing pos short with
  | zero =>
    rw [List.drop_eq_nil_of_le (by omega)]
    simp [shortLoop, shortChars]
  | succ n ih =>
    rw [shortLoop, if_neg (by omega)]
    by_cases hlt : pos < name.length
    · have hget : name.getD pos 0 = name[pos] := List.getD_eq_getElem _ _ hlt
      have hne : name[pos] ≠ 0 := fun h => h0 (h ▸ List.getElem_mem hlt)
      have hd : name[pos] ≠ dot := fun h => hdots pos (hget.trans h)
      rw [hget, if_neg hne]
      by_cases hfull : short.length = 8
      · -- `p + 1 < name`: the name has no dot
        have hbreak : (some 0).getD 0 < pos := by
          show 0 < pos
          omega
        rw [if_pos ⟨hfull, rfl⟩, if_pos hbreak, hfull, Nat.sub_self, List.take_zero, List.append_nil]
      · have hnot : ¬ (short.length = 8 ∧ (some 0).isSome = true) := fun h => hfull h.1
        rw [if_neg hnot, List.drop_eq_getElem_cons hlt]
        by_cases hs : name[pos] = space
        · rw [if_pos hs, ih hlen (by omega) (by omega), shortChars_skip (hs ▸ skipped_space)]
        · have hstored : (short ++ [shortChar name[pos]]).length = short.length + 1 := by
            rw [List.length_append, List.length_singleton]
          rw [if_neg hs, if_neg hd, ih (by omega) (by omega) (by omega), shortChars_take (not_skipped hs hd),
            List.append_assoc, hstored, show 8 - short.length = 8 - (short.length + 1) + 1 by omega, List.take_succ_cons,
            List.singleton_append]
    · rw [if_pos (List.getD_eq_default _ _ (by omega)), List.drop_eq_nil_of_le (by omega)]
      simp [shortChars]

/-- A name with a dot, from a place before its last one. -/
theorem shortLoop_dot (n : Nat) (h0 : (0 : Byte) ∉ name) (hk : LastDot name k) (hdot : name.getD k 0 = dot)
    (hlen : short.length ≤ 8) (hpos : pos ≤ k) (hn : name.length < n + pos) :
    shortLoop name n pos (some k) short =
      short ++ (shortChars ((name.take k).drop pos)).take (8 - short.length) ++
        List.replicate (8 - short.length - (shortChars ((name.take k).drop pos)).length) space ++
        (shortChars (name.drop (k + 1))).take 3 := by
  have hnum : CHAR_SHORT_NAME = 11 := rfl
  have hkl : k < name.length := by
    by_contra hge
    rw [List.getD_eq_default _ _ (by omega)] at hdot
    exact absurd hdot (by decide)
  have hafter : ∀ j, k + 1 ≤ j → name.getD j 0 ≠ dot := fun j hj => hk.after j (by omega)
  induction n generalizing pos short with
  | zero => omega
  | succ n ih =>
    have hlt : pos < name.length := by omega
    have hget : name.getD pos 0 = name[pos] := List.getD_eq_getElem _ _ hlt
    have hne : name[pos] ≠ 0 := fun h => h0 (h ▸ List.getElem_mem hlt)
    rw [shortLoop, if_neg (by omega)]
    rw [hget, if_neg hne]
    by_cases hfull : short.length = 8
    · -- the base is full: on behind the last dot
      have hgo : ¬ (some k).getD 0 < pos := Nat.not_lt.mpr hpos
      rw [if_pos ⟨hfull, rfl⟩, if_neg hgo, hfull]
      show shortLoop name n (k + 1) none short = _
      rw [shortLoop_ext n h0 hafter (by omega), hfull, hnum]
      simp
    · have hnot : ¬ (short.length = 8 ∧ (some k).isSome = true) := fun h => hfull h.1
      rw [if_neg hnot]
      by_cases hlast : pos = k
      · -- the last dot itself: the base is filled up
        subst hlast
        have hd : name[pos] = dot := hget.symm.trans hdot
        have hs : name[pos] ≠ space := by
          rw [hd]
          decide
        have hall : (some pos).all (fun q => decide (q ≤ pos)) = true := decide_eq_true (Nat.le_refl pos)
        have hfilled : (short ++ List.replicate (8 - short.length) space).length = 8 := by
          rw [List.length_append, List.length_replicate]
          omega
        have hnone : (name.take pos).drop pos = [] := List.drop_eq_nil_of_le (by rw [List.length_take]; omega)
        rw [if_neg hs, if_pos hd, if_pos hall, shortLoop_ext n h0 hafter (by omega), hfilled, hnum, hnone]
        simp [shortChars]
      · have hltk : pos < (name.take k).length := by
          rw [List.length_take]
          omega
        have hcons : (name.take k).drop pos = name[pos] :: (name.take k).drop (pos + 1) := by
          rw [List.drop_eq_getElem_cons hltk, List.getElem_take]
        have hall : ¬ ((some k).all (fun q => decide (q ≤ pos)) = true) := fun h => by
          have : k ≤ pos := of_decide_eq_true h
          omega
        rw [hcons]
        by_cases hs : name[pos] = space
        · rw [if_pos hs, ih hlen (by omega) (by omega), shortChars_skip (hs ▸ skipped_space)]
        · rw [if_neg hs]
          by_cases hd : name[pos] = dot
          · rw [if_pos hd, if_neg hall, ih hlen (by omega) (by omega), shortChars_skip (hd ▸ skipped_dot)]
          · have hstored : (short ++ [shortChar name[pos]]).length = short.length + 1 := by
              rw [List.length_append, List.length_singleton]
            rw [if_neg hd, ih (by omega) (by omega) (by omega), shortChars_take (not_skipped hs hd), hstored,
              show 8 - short.length = 8 - (short.length + 1) + 1 by omega, List.take_succ_cons, List.length_cons,
              Nat.add_sub_add_right]
            simp

/-- **`generateShortName`** makes the short form of a name. -/
theorem generateShortName_eq (h0 : (0 : Byte) ∉ name) : generateShortName name = shortForm name := by
  have hk := lastDot_spec name
  have hnum : CHAR_SHORT_NAME = 11 := rfl
  have hfuel : name.length < name.length + 1 + 0 := by omega
  have hnil : ([] : List Byte).length ≤ 8 := by decide
  unfold generateShortName shortForm basePart extPart
  by_cases hmem : dot ∈ name
  · obtain ⟨j, hj, hjdot⟩ := List.mem_iff_getElem.mp hmem
    have hhere : name.getD (lastDot name) 0 = dot := hk.here.resolve_right fun hnone =>
      hnone j ((List.getD_eq_getElem _ _ hj).trans hjdot)
    have hdot : name.contains dot = true := List.contains_iff_mem.mpr hmem
    rw [if_pos hdot, if_pos hdot, shortLoop_dot _ h0 hk hhere hnil (Nat.zero_le _) hfuel]
    simp only [List.drop_zero, List.length_nil, Nat.sub_zero, List.nil_append]
    have hbase : ((shortChars (name.take (lastDot name))).take 8).length +
        (8 - (shortChars (name.take (lastDot name))).length) = 8 := by
      rw [List.length_take]
      omega
    rw [List.append_assoc]
    congr 2
    rw [List.length_append, List.length_append, List.length_replicate, hbase, hnum, List.length_take]
    congr 1
    omega
  · have hnone : ∀ j, name.getD j 0 ≠ dot := by
      intro j hj
      by_cases hlt : j < name.length
      · rw [List.getD_eq_getElem _ _ hlt] at hj
        exact hmem (hj ▸ List.getElem_mem hlt)
      · rw [List.getD_eq_default _ _ (by omega)] at hj
        exact absurd hj (by decide)
    have hzero : lastDot name = 0 := by
      unfold lastDot
      rw [List.find?_eq_none.mpr fun j _ => by simpa using hnone j]
      rfl
    have hdot : ¬ name.contains dot = true := fun h => hmem (List.contains_iff_mem.mp h)
    rw [if_neg hdot, if_neg hdot, hzero, shortLoop_base _ h0 hnone hnil (Nat.le_refl 0) hfuel]
    unfold field
    simp only [List.drop_zero, List.length_nil, Nat.sub_zero, List.nil_append]
    rw [List.append_assoc]
    congr 1
    rw [show shortChars [] = [] from rfl, List.take_nil, List.nil_append, List.length_nil, Nat.sub_zero,
      List.replicate_append_replicate, hnum, List.length_take]
    congr 1
    omega

end Loop

/-! ## The loop on memory -/

/-- What `generateShortName` has done so far. -/
structure ShortState where
  /-- `shortname` -/
  buf : Nat → Byte
  i : Nat
  /-- the places of `name` that were read -/
  reads : List Nat
  /-- the places of `shortname` that were stored to -/
  stores : List Nat
  /-- the lengths `memset` was called with -/
  fills : List Int

/-- `shortname[i++] = c` -/
def ShortState.put (s : ShortState) (c : Byte) : ShortState :=
  { s with buf := fun x => if x = s.i then c else s.buf x, i := s.i + 1, stores := s.stores ++ [s.i] }

/-- `memset(shortname + i, ' ', 8 - i)` and `i = 8`; the length is a `u32`. -/
def ShortState.fill (s : ShortState) : ShortState :=
  let n := ((8 - s.i : Int) % 2 ^ 32).toNat
  { s with
    buf := fun x => if s.i ≤ x ∧ x < s.i + n then space else s.buf x
    i := 8
    stores := s.stores ++ (List.range n).map (s.i + ·)
    fills := s.fills ++ [8 - (s.i : Int)] }

/-- The search for the last dot, from the `j`-th character down, with what it reads. -/
def searchDot (name : List Byte) : Nat → Option Nat × List Nat
  | 0 => (none, [])
  | j + 1 => if name.getD j 0 = dot then (some j, [j]) else ((searchDot name j).1, j :: (searchDot name j).2)

/-- The first loop, for at most so many turns; `none` if it has not ended by then. -/
def shortTurns (name : List Byte) : Nat → Nat → Option Nat → ShortState → Option ShortState
  | 0, _, _, _ => none
  | n + 1, pos, p, s =>
    if CHAR_SHORT_NAME ≤ s.i then some s
    else
      let c := name.getD pos 0
      let s := { s with reads := s.reads ++ [pos] }
      if c = 0 then some s
      else if s.i = 8 ∧ p.isSome then
        if p.getD 0 < pos then some s else shortTurns name n (p.getD 0 + 1) none s
      else if c = space then shortTurns name n (pos + 1) p s
      else if c = dot then
        if p.all (· ≤ pos) then shortTurns name n (pos + 1) none s.fill else shortTurns name n (pos + 1) p s
      else shortTurns name n (pos + 1) p (s.put (shortChar c))

/-- The second loop. -/
def shortPad (s : ShortState) : ShortState :=
  if s.i < CHAR_SHORT_NAME then shortPad (s.put space) else s
termination_by CHAR_SHORT_NAME - s.i
decreasing_by
  show CHAR_SHORT_NAME - (s.i + 1) < CHAR_SHORT_NAME - s.i
  omega

/-- `generateShortName` on memory. `strlen` reads the name up to its end. -/
def runShortName (name : List Byte) (buf : Nat → Byte) : Option ShortState :=
  (shortTurns name (name.length + 1) 0 (some ((searchDot name name.length).1.getD 0))
    ⟨buf, 0, List.range (name.length + 1) ++ (searchDot name name.length).2, [], []⟩).map shortPad

theorem searchDot_fst (name : List Byte) (n : Nat) :
    (searchDot name n).1 = ((List.range n).reverse).find? fun j => name.getD j 0 = dot := by
  induction n with
  | zero => rfl
  | succ n ih =>
    rw [searchDot, List.range_succ, List.reverse_append, List.reverse_singleton, List.singleton_append, List.find?_cons]
    by_cases h : name.getD n 0 = dot
    · rw [if_pos h, decide_eq_true h]
    · rw [if_neg h, decide_eq_false h]
      exact ih

theorem searchDot_reads {name : List Byte} {n r : Nat} (h : r ∈ (searchDot name n).2) : r < n := by
  induction n with
  | zero => cases h
  | succ n ih =>
    rw [searchDot] at h
    split at h
    · rw [List.mem_singleton.mp h]
      exact Nat.lt_succ_self n
    · rcases List.mem_cons.mp h with rfl | h
      · exact Nat.lt_succ_self r
      · exact Nat.lt_succ_of_lt (ih h)

/-- The memory holds the characters stored so far, and nothing else was touched. -/
structure Holds (name : List Byte) (buf : Nat → Byte) (s : ShortState) (short : List Byte) : Prop where
  length : s.i = short.length
  stored : ∀ x, x < short.length → s.buf x = short.getD x 0
  rest : ∀ x, short.length ≤ x → s.buf x = buf x
  reads : ∀ r ∈ s.reads, r ≤ name.length
  stores : ∀ x, x ∈ s.stores ↔ x < short.length
  fills : ∀ l ∈ s.fills, 0 ≤ l

section Memory

variable {name short : List Byte} {buf : Nat → Byte} {s : ShortState} {pos k : Nat} {p : Option Nat}

theorem Holds.read (h : Holds name buf s short) (hpos : pos ≤ name.length) :
    Holds name buf { s with reads := s.reads ++ [pos] } short := by
  refine ⟨h.length, h.stored, h.rest, fun r hr => ?_, h.stores, h.fills⟩
  rcases List.mem_append.mp hr with hr | hr
  · exact h.reads r hr
  · rw [List.mem_singleton.mp hr]
    exact hpos

theorem Holds.put (h : Holds name buf s short) (c : Byte) : Holds name buf (s.put c) (short ++ [c]) := by
  have hlen : (short ++ [c]).length = short.length + 1 := by
    rw [List.length_append, List.length_singleton]
  refine ⟨?_, fun x hx => ?_, fun x hx => ?_, h.reads, fun x => ?_, h.fills⟩
  · rw [hlen, ← h.length]
    rfl
  · show (if x = s.i then c else s.buf x) = _
    rw [h.length]
    by_cases hx' : x = short.length
    · rw [if_pos hx', hx', List.getD_append_right _ _ _ _ (Nat.le_refl _), Nat.sub_self]
      rfl
    · rw [if_neg hx', List.getD_append _ _ _ _ (by omega)]
      exact h.stored x (by omega)
  · show (if x = s.i then c else s.buf x) = _
    rw [h.length, if_neg (by omega)]
    exact h.rest x (by omega)
  · show x ∈ s.stores ++ [s.i] ↔ _
    rw [List.mem_append, List.mem_singleton, h.stores, h.length, hlen]
    omega

/-- Filling up the base, of at most eight characters. -/
theorem Holds.fill (h : Holds name buf s short) (hlen : short.length ≤ 8) :
    Holds name buf s.fill (short ++ List.replicate (8 - short.length) space) := by
  have hn : ((8 - s.i : Int) % 2 ^ 32).toNat = 8 - short.length := by
    rw [h.length]
    omega
  have hlen' : (short ++ List.replicate (8 - short.length) space).length = 8 := by
    rw [List.length_append, List.length_replicate]
    omega
  refine ⟨hlen'.symm, fun x hx => ?_, fun x hx => ?_, h.reads, fun x => ?_, fun l hl => ?_⟩
  · show (if s.i ≤ x ∧ x < s.i + ((8 - s.i : Int) % 2 ^ 32).toNat then space else s.buf x) = _
    rw [hn, h.length]
    by_cases hx' : x < short.length
    · rw [if_neg (by omega), List.getD_append _ _ _ _ hx']
      exact h.stored x hx'
    · rw [if_pos (by omega), List.getD_append_right _ _ _ _ (by omega), List.getD_eq_getElem _ _ (by
        rw [List.length_replicate]
        omega), List.getElem_replicate]
  · show (if s.i ≤ x ∧ x < s.i + ((8 - s.i : Int) % 2 ^ 32).toNat then space else s.buf x) = _
    rw [hn, h.length, if_neg (by omega)]
    exact h.rest x (by omega)
  · show x ∈ s.stores ++ (List.range ((8 - s.i : Int) % 2 ^ 32).toNat).map (s.i + ·) ↔ _
    rw [hn, h.length, hlen', List.mem_append, h.stores, List.mem_map]
    constructor
    · rintro (hx | ⟨y, hy, rfl⟩)
      · omega
      · have := List.mem_range.mp hy
        omega
    · intro hx
      by_cases hx' : x < short.length
      · exact .inl hx'
      · exact .inr ⟨x - short.length, List.mem_range.mpr (by omega), by omega⟩
  · rcases List.mem_append.mp hl with hl | hl
    · exact h.fills l hl
    · rw [List.mem_singleton.mp hl, h.length]
      omega

/-- **The first loop** ends, with in memory what the loop on lists has. -/
theorem Holds.turns (n : Nat) (h : Holds name buf s short) (hk : LastDot name k) (hkl : k < name.length ∨ k = 0)
    (hp : p = some k ∧ short.length ≤ 8 ∨ p = none ∧ ∀ j, pos ≤ j → name.getD j 0 ≠ dot)
    (hpos : pos ≤ name.length) (hn : name.length < n + pos) :
    ∃ s', shortTurns name n pos p s = some s' ∧ Holds name buf s' (shortLoop name n pos p short) := by
  induction n generalizing pos p s short with
  | zero => omega
  | succ n ih =>
    have hi := h.length
    rw [shortTurns, shortLoop]
    by_cases hfull : CHAR_SHORT_NAME ≤ short.length
    · rw [if_pos (show CHAR_SHORT_NAME ≤ s.i by omega), if_pos hfull]
      exact ⟨s, rfl, h⟩
    rw [if_neg (show ¬ CHAR_SHORT_NAME ≤ s.i by omega), if_neg hfull]
    have h' := h.read hpos
    by_cases hz : name.getD pos 0 = 0
    · rw [if_pos hz, if_pos hz]
      exact ⟨_, rfl, h'⟩
    rw [if_neg hz, if_neg hz]
    have hlt : pos < name.length := by
      by_contra hge
      exact hz (List.getD_eq_default _ _ (by omega))
    by_cases h8 : short.length = 8 ∧ p.isSome = true
    · rw [if_pos (show s.i = 8 ∧ p.isSome = true from ⟨hi.trans h8.1, h8.2⟩), if_pos h8]
      rcases hp with ⟨rfl, -⟩ | ⟨rfl, -⟩
      · by_cases hbreak : (some k).getD 0 < pos
        · rw [if_pos hbreak, if_pos hbreak]
          exact ⟨_, rfl, h'⟩
        · have hle : pos ≤ k := Nat.not_lt.mp hbreak
          rw [if_neg hbreak, if_neg hbreak]
          exact ih h' (.inr ⟨rfl, fun j hj => hk.after j hj⟩) (show k + 1 ≤ _ by omega) (show _ < n + (k + 1) by omega)
      · cases h8.2
    rw [if_neg (show ¬ (s.i = 8 ∧ p.isSome = true) from fun h => h8 ⟨hi.symm.trans h.1, h.2⟩), if_neg h8]
    have hnone : p = none ∧ (∀ j, pos ≤ j → name.getD j 0 ≠ dot) → p = none ∧ ∀ j, pos + 1 ≤ j → name.getD j 0 ≠ dot :=
      fun h => ⟨h.1, fun j hj => h.2 j (by omega)⟩
    by_cases hs : name.getD pos 0 = space
    · rw [if_pos hs, if_pos hs]
      exact ih h' (hp.imp_right hnone) (by omega) (by omega)
    rw [if_neg hs, if_neg hs]
    by_cases hd : name.getD pos 0 = dot
    · rw [if_pos hd, if_pos hd]
      rcases hp with ⟨rfl, hlen⟩ | ⟨-, hdots⟩
      · have hle : pos ≤ k := by
          by_contra hgt
          exact hk.after pos (by omega) hd
        by_cases hall : (some k).all (fun q => decide (q ≤ pos)) = true
        · -- the dot is the last one
          have hkp : k ≤ pos := of_decide_eq_true hall
          rw [if_pos hall, if_pos hall]
          exact ih (h'.fill hlen) (.inr ⟨rfl, fun j hj => hk.after j (by omega)⟩) (by omega) (by omega)
        · rw [if_neg hall, if_neg hall]
          exact ih h' (.inl ⟨rfl, hlen⟩) (by omega) (by omega)
      · exact absurd hd (hdots pos (Nat.le_refl pos))
    rw [if_neg hd, if_neg hd]
    refine ih (h'.put _) ?_ (by omega) (by omega)
    rcases hp with ⟨rfl, hlen⟩ | hp
    · have hlt8 : short.length ≠ 8 := fun heq => h8 ⟨heq, rfl⟩
      refine .inl ⟨rfl, ?_⟩
      rw [List.length_append, List.length_singleton]
      omega
    · exact .inr (hnone hp)

/-- **The second loop.** -/
theorem Holds.pad (h : Holds name buf s short) :
    Holds name buf (shortPad s) (short ++ List.replicate (CHAR_SHORT_NAME - short.length) space) := by
  induction hm : CHAR_SHORT_NAME - short.length generalizing s short with
  | zero =>
    have hge : ¬ s.i < CHAR_SHORT_NAME := by
      rw [h.length]
      omega
    rw [shortPad, if_neg hge, List.replicate_zero, List.append_nil]
    exact h
  | succ m ih =>
    have hlt : s.i < CHAR_SHORT_NAME := by
      rw [h.length]
      omega
    have hlen : (short ++ [space]).length = short.length + 1 := by
      rw [List.length_append, List.length_singleton]
    have hrest := ih (h.put space) (by omega)
    rw [List.append_assoc, List.singleton_append, ← List.replicate_succ] at hrest
    rw [shortPad, if_pos hlt]
    exact hrest

/-- **The short name in memory.** For every name `generateShortName` ends, after at most one turn for each
of its characters and its end. It has read nothing behind the end, written the eleven bytes of `shortname`
and no others, none of them zero, called `memset` with no negative length, and left the short form. -/
theorem shortName_spec (name : List Byte) (h0 : (0 : Byte) ∉ name) (buf : Nat → Byte) :
    ∃ s, runShortName name buf = some s ∧ (∀ r ∈ s.reads, r ≤ name.length) ∧
      (∀ x, x ∈ s.stores ↔ x < CHAR_SHORT_NAME) ∧ (∀ x, CHAR_SHORT_NAME ≤ x → s.buf x = buf x) ∧
      (∀ x < CHAR_SHORT_NAME, s.buf x ≠ 0) ∧ (∀ l ∈ s.fills, 0 ≤ l) ∧
      (List.range CHAR_SHORT_NAME).map s.buf = shortForm name := by
  have hstart : Holds name buf ⟨buf, 0, List.range (name.length + 1) ++ (searchDot name name.length).2, [], []⟩ [] := by
    refine ⟨rfl, fun x hx => absurd hx (Nat.not_lt_zero x), fun _ _ => rfl, fun r hr => ?_, fun x => ?_,
      List.forall_mem_nil _⟩
    · rcases List.mem_append.mp hr with hr | hr
      · exact Nat.le_of_lt_succ (List.mem_range.mp hr)
      · exact Nat.le_of_lt (searchDot_reads hr)
    · exact iff_of_false List.not_mem_nil (Nat.not_lt_zero x)
  have hdot : (searchDot name name.length).1.getD 0 = lastDot name := by
    rw [searchDot_fst]
    rfl
  have hkl : lastDot name < name.length ∨ lastDot name = 0 := by
    unfold lastDot
    cases hfind : ((List.range name.length).reverse).find? fun j => name.getD j 0 = dot with
    | none => exact .inr rfl
    | some k => exact .inl (List.mem_range.mp (List.mem_reverse.mp (List.mem_of_find?_eq_some hfind)))
  have hnil : ([] : List Byte).length ≤ 8 := by decide
  have hfuel : name.length < name.length + 1 + 0 := by omega
  obtain ⟨s, hturns, hs⟩ := hstart.turns (name.length + 1) (lastDot_spec name) hkl (.inl ⟨rfl, hnil⟩) (Nat.zero_le _) hfuel
  have hend := hs.pad
  -- what the two loops leave is `generateShortName` on lists
  have hform : shortLoop name (name.length + 1) 0 (some (lastDot name)) [] ++ List.replicate (CHAR_SHORT_NAME -
      (shortLoop name (name.length + 1) 0 (some (lastDot name)) []).length) space = shortForm name :=
    generateShortName_eq h0
  rw [hform] at hend
  have hlen := shortForm_length name
  have hbytes : (List.range CHAR_SHORT_NAME).map (shortPad s).buf = shortForm name := by
    apply List.ext_getElem
    · rw [List.length_map, List.length_range, hlen]
    · intro x hx hx'
      rw [List.getElem_map, List.getElem_range, hend.stored x hx', List.getD_eq_getElem _ _ hx']
  refine ⟨shortPad s, ?_, hend.reads, fun x => ?_, fun x hx => ?_, fun x hx hzero => ?_, hend.fills, hbytes⟩
  · unfold runShortName
    rw [hdot, hturns]
    rfl
  · rw [hend.stores, hlen]
  · exact hend.rest x (by rw [hlen]; exact hx)
  · have hmem : (0 : Byte) ∈ (List.range CHAR_SHORT_NAME).map (shortPad s).buf :=
      List.mem_map.mpr ⟨x, List.mem_range.mpr hx, hzero⟩
    rw [hbytes, ← generateShortName_eq h0] at hmem
    exact zero_notMem_shortName name hmem

/-- Eight characters and more before the last of several dots, with a blank and a comma among them. -/
theorem shortName_spec_dots : ∃ s, runShortName (bytes "ab, cd.efghij.texi") (fun _ => 0) = some s ∧
    (List.range CHAR_SHORT_NAME).map s.buf = bytes "AB_CDEFGTEX" := by
  obtain ⟨s, hrun, -, -, -, -, -, hform⟩ := shortName_spec (bytes "ab, cd.efghij.texi") (by decide) (fun _ => 0)
  exact ⟨s, hrun, hform.trans (by decide)⟩

end Memory

end Exaros.Dir
