import Exaros.Dir.Decode

/-!
# Encoding a directory entry

`makeDentry` writes the entry of a file: long entries with the characters of its name, the last thirteen first, and
a short entry with a short name that `generateShortName` makes of it. Here are the bytes of these entries, and what
`dirMetaNext` finds in them one by one.
-/

namespace Exaros.Dir

open Fat

def space : Byte := 0x20

/-- `strncpy(dst, src, n)`: what it leaves in `dst`. -/
def strncpy (src : List Byte) (n : Nat) : List Byte := (Tree.cstr src).take n ++ List.replicate (n - (Tree.cstr src).length) 0

/-! ## The short name -/

/-- `illegal` of `generateShortName` -/
def illegal : List Byte := bytes "+,;=[]"

/-- A character of the short name. -/
def shortChar (c : Byte) : Byte := if 0x61 ≤ c ∧ c ≤ 0x7a then c - 0x20 else if c ∈ illegal then 0x5f else c

/-- The last dot of a name, as `generateShortName` looks for it: without one `p` stays at the name's start. -/
def lastDot (name : List Byte) : Nat :=
  (((List.range name.length).reverse).find? fun j => name.getD j 0 = dot).getD 0

/-- The loop of `generateShortName`, each turn of which moves `name` on; `pos` is where it stands and `p` the last
dot, or null, `short` what has been stored. -/
def shortLoop (name : List Byte) : Nat → Nat → Option Nat → List Byte → List Byte
  | 0, _, _, short => short
  | n + 1, pos, p, short =>
    if CHAR_SHORT_NAME ≤ short.length then short
    else
      let c := name.getD pos 0
      if c = 0 then short
      else if short.length = 8 ∧ p.isSome then
        if p.getD 0 < pos then short else shortLoop name n (p.getD 0 + 1) none short
      else if c = space then shortLoop name n (pos + 1) p short
      else if c = dot then
        -- null is before every character
        if p.all (· ≤ pos) then shortLoop name n (pos + 1) none (short ++ List.replicate (8 - short.length) space)
        else shortLoop name n (pos + 1) p short
      else shortLoop name n (pos + 1) p (short ++ [shortChar c])

def generateShortName (name : List Byte) : List Byte :=
  let short := shortLoop name (name.length + 1) 0 (some (lastDot name)) []
  short ++ List.replicate (CHAR_SHORT_NAME - short.length) space

/-- `calChecksum` -/
def calChecksum (shortname : List Byte) : Byte :=
  (shortname.take CHAR_SHORT_NAME).foldl (fun sum c => (if sum &&& 1 ≠ 0 then 0x80 else 0) + (sum >>> 1) + c) 0

/-! ## The entries -/

/-- How many long entries a name takes. -/
def lneCnt (name : List Byte) : Nat := (name.length + CHAR_LONG_NAME - 1) / CHAR_LONG_NAME

/-- The bytes of `n` wide characters from `p` on; after the terminator, `stop`, they are filled up. -/
def nameChars (name : List Byte) : Nat → Nat → Bool → List Byte
  | 0, _, _ => []
  | n + 1, p, true => 0xff :: 0xff :: nameChars name n p true
  | n + 1, p, false => name.getD p 0 :: 0 :: nameChars name n (p + 1) (name.getD p 0 = 0)

/-- `lne.order` of the entry with number `i`. -/
def longOrder (name : List Byte) (i : Nat) : Nat := if i = lneCnt name then i ||| LAST_LONG_ENTRY else i

/-- The long entry with number `i`: its order, five characters, the attributes, type and checksum, six characters,
no cluster, and two characters. -/
def longEntry (name : List Byte) (checksum : Byte) (i : Nat) : Dentry :=
  let w := nameChars name CHAR_LONG_NAME ((i - 1) * CHAR_LONG_NAME) false
  [BitVec.ofNat 8 (longOrder name i)] ++ w.take 10 ++ [BitVec.ofNat 8 ATTR_LONG_NAME, 0, checksum] ++ (w.drop 10).take 12 ++
    [0, 0] ++ w.drop 22

def le16 (x : Nat) : List Byte := [BitVec.ofNat 8 x, BitVec.ofNat 8 (x / 2 ^ 8)]

/-- The short entry of `child`, with the eleven bytes `name`. -/
def shortEntry (name : List Byte) (child : DirMeta) : Dentry :=
  name ++ [BitVec.ofNat 8 child.attr, BitVec.ofNat 8 child.reserve] ++ List.replicate 7 0 ++
    le16 (child.firstClus / 2 ^ 16) ++ List.replicate 4 0 ++ le16 child.firstClus ++
    (le16 child.fileSize ++ le16 (child.fileSize / 2 ^ 16))

/-- The entry of `.` or `..`. -/
def dotEntry (name : List Byte) (child : DirMeta) : Dentry := shortEntry name { child with attr := ATTR_DIRECTORY }

/-! ## Writing them -/

/-- Where `makeDentry` stops the kernel. -/
inductive Fault where
  /-- "makeDentry: not dir" -/
  | notDir
  /-- "makeDentry: not aligned" -/
  | notAligned
  /-- `assert(dirMeta->fileSystem == childMeta->fileSystem)` -/
  | fileSystem
  | fat (e : Panic)
deriving DecidableEq, Repr

/-- `relocClus` and `rwClus` of an entry, with the offset in its cluster. -/
def writeDentry (fs : FileSystem) (dm : DirMeta) (off : Nat) (de : Dentry) : Except Panic (Nat × FileSystem × DirMeta) :=
  match relocClus fs dm off true with
  | .error e => .error e
  | .ok (off2, fs, dm) =>
    match rwClusWrite fs dm.curClus (fun i => de.getD i 0) off2.toNat 32 with
    | .error e => .error e
    | .ok (_, fs) => .ok (off2.toNat, fs, dm)

/-- The loop over the long entries, for those up to `i`. -/
def longLoop (name : List Byte) (checksum : Byte) : Nat → FileSystem → DirMeta → Nat → Except Panic (Nat × FileSystem × DirMeta)
  | 0, fs, dm, off => .ok (off, fs, dm)
  | i + 1, fs, dm, off =>
    match writeDentry fs dm off (longEntry name checksum (i + 1)) with
    | .error e => .error e
    | .ok (_, fs, dm) => longLoop name checksum i fs dm (Fat.u32 (off + 32))

/-- `makeDentry`; what it returns is an offset again. -/
def Tree.makeDentry (t : Tree) (dir child off : Nat) : Except Fault (Nat × Tree) :=
  if ¬ t.isDir dir then .error .notDir
  else if off % 32 ≠ 0 then .error .notAligned
  else if t.fsOf dir ≠ t.fsOf child then .error .fileSystem
  else if off ≤ 32 then
    let name := if off = 0 then bytes ".          " else bytes "..         "
    match writeDentry (t.volume (t.fsOf dir)) (t.dirMetas dir) off
        (dotEntry (strncpy name CHAR_SHORT_NAME) (t.dirMetas child)) with
    | .error e => .error (.fat e)
    | .ok (off, fs, dm) => .ok (Fat.u32 (off + 32), t.setFile dir fs dm)
  else
    let name := (t.nodes child).filename
    let shortname := generateShortName name
    match longLoop name (calChecksum shortname) (lneCnt name) (t.volume (t.fsOf dir)) (t.dirMetas dir) off with
    | .error e => .error (.fat e)
    | .ok (off, fs, dm) =>
      match writeDentry fs dm off (shortEntry (strncpy shortname CHAR_SHORT_NAME) (t.dirMetas child)) with
      | .error e => .error (.fat e)
      | .ok (_, fs, dm) => .ok (Fat.u32 (off + 32), t.setFile dir fs dm)

/-! ## The first byte of the short name -/

/-- The characters `generateShortName` passes over. -/
def skipped (c : Byte) : Bool := decide (c = space ∨ c = dot)

/-- The first character of a name that is neither a space nor a dot is `0xe5`, and stands before the last dot if there
is one. -/
def ShortEmpty (name : List Byte) : Prop :=
  (name.dropWhile skipped).head? = some 0xe5 ∧ (dot ∈ name.takeWhile skipped → dot ∈ name.dropWhile skipped)

theorem shortChar_ne_zero : ∀ c : Byte, c ≠ 0 → shortChar c ≠ 0 := by decide

theorem shortChar_eq : ∀ c : Byte, shortChar c = 0xe5 ↔ c = 0xe5 := by decide

section Short

variable {name short : List Byte} {pos : Nat} {p : Option Nat} {rest : List Byte}

/-- What has been stored stays. -/
theorem shortLoop_head (n : Nat) (h : short ≠ []) : (shortLoop name n pos p short).head? = short.head? := by
  induction n generalizing pos p short with
  | zero => rfl
  | succ n ih =>
    have happ : ∀ more : List Byte, (short ++ more).head? = short.head? := fun more => List.head?_append_of_ne_nil short h
    have hne : ∀ more : List Byte, short ++ more ≠ [] := fun more => List.append_ne_nil_of_left_ne_nil h more
    rw [shortLoop]
    split
    · rfl
    · dsimp only
      split
      · rfl
      · split
        · split
          · rfl
          · exact ih h
        · split
          · exact ih h
          · split
            · split
              · exact (ih (hne _)).trans (happ _)
              · exact ih h
            · exact (ih (hne _)).trans (happ _)

theorem zero_notMem_shortLoop (n : Nat) (h : (0 : Byte) ∉ short) : (0 : Byte) ∉ shortLoop name n pos p short := by
  induction n generalizing pos p short with
  | zero => exact h
  | succ n ih =>
    rw [shortLoop]
    split
    · exact h
    · dsimp only
      split
      · exact h
      · rename_i hc
        split
        · split
          · exact h
          · exact ih h
        · split
          · exact ih h
          · split
            · split
              · refine ih fun hmem => ?_
                rcases List.mem_append.mp hmem with hmem | hmem
                · exact h hmem
                · exact absurd (List.eq_of_mem_replicate hmem) (by decide)
              · exact ih h
            · refine ih fun hmem => ?_
              rcases List.mem_append.mp hmem with hmem | hmem
              · exact h hmem
              · exact shortChar_ne_zero _ hc (List.mem_singleton.mp hmem).symm

/-- `p` is where the last dot is, or the name has none. -/
structure LastDot (name : List Byte) (p : Nat) : Prop where
  after : ∀ j, p < j → name.getD j 0 ≠ dot
  here : name.getD p 0 = dot ∨ ∀ j, name.getD j 0 ≠ dot

/-- The loop finds the last dot. -/
theorem lastDot_spec (name : List Byte) : LastDot name (lastDot name) := by
  have hout : ∀ j, name.length ≤ j → name.getD j 0 ≠ dot := fun j hj => by
    rw [List.getD_eq_default _ _ hj]
    decide
  unfold lastDot
  cases hfind : ((List.range name.length).reverse).find? fun j => name.getD j 0 = dot with
  | none =>
    have hnone : ∀ j, name.getD j 0 ≠ dot := fun j hj => by
      by_cases hlt : j < name.length
      · have := List.find?_eq_none.mp hfind j (List.mem_reverse.mpr (List.mem_range.mpr hlt))
        exact this (decide_eq_true hj)
      · exact hout j (Nat.le_of_not_lt hlt) hj
    exact ⟨fun j _ => hnone j, .inr hnone⟩
  | some k =>
    have hhere := List.find?_some hfind
    show LastDot name k
    refine ⟨fun j hj hdot => ?_, .inl (of_decide_eq_true hhere)⟩
    by_cases hlt : j < name.length
    · obtain ⟨-, as, bs, heq, has⟩ := List.find?_eq_some_iff_append.mp hfind
      have hsort : (as ++ k :: bs).Pairwise (· > ·) := by
        rw [← heq, List.pairwise_reverse]
        exact List.pairwise_lt_range
      have hmem : j ∈ as ++ k :: bs := by
        rw [← heq]
        exact List.mem_reverse.mpr (List.mem_range.mpr hlt)
      rcases List.mem_append.mp hmem with hin | hin
      · have := has j hin
        rw [hdot] at this
        exact absurd this (by decide)
      · rcases List.mem_cons.mp hin with rfl | hin
        · exact Nat.lt_irrefl _ hj
        · have := (List.pairwise_cons.mp (List.pairwise_append.mp hsort).2.1).1 j hin
          omega
    · exact hout j (Nat.le_of_not_lt hlt) hdot

theorem shortEmpty_space : ShortEmpty (space :: rest) ↔ ShortEmpty rest := by
  have hne : dot ≠ space := by decide
  unfold ShortEmpty
  rw [List.dropWhile_cons_of_pos (by decide), List.takeWhile_cons_of_pos (by decide), List.mem_cons, or_iff_right hne]

theorem shortEmpty_dot : ShortEmpty (dot :: rest) ↔ dot ∈ rest ∧ ShortEmpty rest := by
  have hsplit : dot ∈ rest ↔ dot ∈ rest.takeWhile skipped ∨ dot ∈ rest.dropWhile skipped := by
    rw [← List.mem_append, List.takeWhile_append_dropWhile]
  unfold ShortEmpty
  rw [List.dropWhile_cons_of_pos (by decide), List.takeWhile_cons_of_pos (by decide), hsplit]
  constructor
  · rintro ⟨h1, h2⟩
    have hd := h2 List.mem_cons_self
    exact ⟨.inr hd, h1, fun _ => hd⟩
  · rintro ⟨hd, h1, h2⟩
    exact ⟨h1, fun _ => hd.elim h2 id⟩

theorem shortEmpty_cons {c : Byte} (hs : c ≠ space) (hd : c ≠ dot) : ShortEmpty (c :: rest) ↔ c = 0xe5 := by
  have hc : ¬ skipped c = true := fun h => (of_decide_eq_true h).elim hs hd
  unfold ShortEmpty
  rw [List.dropWhile_cons_of_neg hc, List.takeWhile_cons_of_neg hc, List.head?_cons, Option.some.injEq]
  exact and_iff_left fun h => (List.not_mem_nil h).elim

/-- From a place before which nothing has been stored. -/
theorem shortLoop_empty_iff {k : Nat} (n : Nat) (h0 : (0 : Byte) ∉ name) (hk : LastDot name k) (hn : name.length < n + pos) :
    (shortLoop name n pos (some k) []).head?.getD space = 0xe5 ↔ ShortEmpty (name.drop pos) := by
  have hspace : (space : Byte) ≠ 0xe5 := by decide
  have hnil : ¬ ShortEmpty [] := fun h => by cases h.1
  induction n generalizing pos with
  | zero =>
    rw [List.drop_eq_nil_of_le (by omega)]
    exact iff_of_false hspace hnil
  | succ n ih =>
    rw [shortLoop, if_neg (show ¬ CHAR_SHORT_NAME ≤ ([] : List Byte).length by decide)]
    by_cases hlt : pos < name.length
    · have hget : name.getD pos 0 = name[pos] := List.getD_eq_getElem _ _ hlt
      have hne : name[pos] ≠ 0 := fun h => h0 (h ▸ List.getElem_mem hlt)
      have hnot8 : ¬ (([] : List Byte).length = 8 ∧ (some k).isSome = true) := fun h => by cases h.1
      have hnext := @ih (pos + 1) (by omega)
      rw [hget, if_neg hne, if_neg hnot8, List.drop_eq_getElem_cons hlt]
      by_cases hs : name[pos] = space
      · rw [if_pos hs, hs, shortEmpty_space]
        exact hnext
      · rw [if_neg hs]
        by_cases hd : name[pos] = dot
        · rw [if_pos hd, hd, shortEmpty_dot]
          have hle : pos ≤ k := by
            by_contra hgt
            exact hk.after pos (by omega) (hget.trans hd)
          by_cases hlast : pos = k
          · -- the last dot: the eight bytes before it are spaces
            have hall : (some k).all (fun q => decide (q ≤ pos)) = true := decide_eq_true (by omega)
            have hout : dot ∉ name.drop (pos + 1) := fun hmem => by
              obtain ⟨i, hi⟩ := List.mem_iff_getElem?.mp hmem
              rw [List.getElem?_drop] at hi
              refine hk.after (pos + 1 + i) (by omega) ?_
              rw [List.getD_eq_getElem?_getD, hi]
              rfl
            rw [if_pos hall, shortLoop_head n (by decide)]
            exact iff_of_false hspace fun h => hout h.1
          · have hall : ¬ ((some k).all (fun q => decide (q ≤ pos)) = true) := fun h => by
              have : k ≤ pos := of_decide_eq_true h
              omega
            have hin : dot ∈ name.drop (pos + 1) := by
              rcases hk.here with hdot | hnone
              · have hkl : k < name.length := by
                  by_contra hge
                  rw [List.getD_eq_default _ _ (by omega)] at hdot
                  exact absurd hdot (by decide)
                rw [List.getD_eq_getElem _ _ hkl] at hdot
                refine List.mem_iff_getElem?.mpr ⟨k - (pos + 1), ?_⟩
                rw [List.getElem?_drop, show pos + 1 + (k - (pos + 1)) = k by omega, List.getElem?_eq_getElem hkl, hdot]
              · exact absurd (hget.trans hd) (hnone pos)
            rw [if_neg hall]
            exact hnext.trans (and_iff_right hin).symm
        · rw [if_neg hd, shortLoop_head n (by simp), shortEmpty_cons hs hd]
          exact shortChar_eq _
    · rw [if_pos (List.getD_eq_default _ _ (by omega)), List.drop_eq_nil_of_le (by omega)]
      exact iff_of_false hspace hnil

theorem zero_notMem_shortName (name : List Byte) : (0 : Byte) ∉ generateShortName name := by
  intro hmem
  rcases List.mem_append.mp hmem with hmem | hmem
  · exact zero_notMem_shortLoop _ List.not_mem_nil hmem
  · exact absurd (List.eq_of_mem_replicate hmem) (by decide)

end Short

/-! ## The characters of a long entry -/

/-- The wide character a long entry has for position `p` of the name. -/
def wideChar (name : List Byte) (p : Nat) : Nat :=
  if p < name.length then (name.getD p 0).toNat else if p = name.length then 0 else 0xffff

def wide (name : List Byte) (b m : Nat) : List Nat := (List.range m).map fun k => wideChar name (b + k)

section Long

variable {name : List Byte} {i : Nat}

theorem wide_length (name : List Byte) (b m : Nat) : (wide name b m).length = m := by
  unfold wide
  rw [List.length_map, List.length_range]

theorem nameChars_length (name : List Byte) (n p : Nat) (stop : Bool) : (nameChars name n p stop).length = 2 * n := by
  induction n generalizing p stop with
  | zero => rfl
  | succ n ih =>
    cases stop with
    | false =>
      rw [nameChars, List.length_cons, List.length_cons, ih]
      omega
    | true =>
      rw [nameChars, List.length_cons, List.length_cons, ih]
      omega

/-- The two bytes of a wide character. -/
theorem nameChars_get (h0 : (0 : Byte) ∉ name) (n : Nat) {p j : Nat} (stop : Bool) (hp : stop = false → p ≤ name.length)
    (hj : j < n) :
    (nameChars name n p stop).getD (2 * j) 0 = BitVec.ofNat 8 (if stop then 0xffff else wideChar name (p + j)) ∧
    (nameChars name n p stop).getD (2 * j + 1) 0 =
      BitVec.ofNat 8 ((if stop then 0xffff else wideChar name (p + j)) / 2 ^ 8) := by
  induction n generalizing p j stop with
  | zero => omega
  | succ n ih =>
    cases stop with
    | true =>
      cases j with
      | zero =>
        have hlow : (0xff : Byte) = BitVec.ofNat 8 0xffff := by decide
        have hhigh : (0xff : Byte) = BitVec.ofNat 8 (0xffff / 2 ^ 8) := by decide
        exact ⟨hlow, hhigh⟩
      | succ j =>
        have hrest := @ih p j true hp (by omega)
        rw [nameChars, show 2 * (j + 1) = 2 * j + 1 + 1 by omega, List.getD_cons_succ, List.getD_cons_succ,
          List.getD_cons_succ, List.getD_cons_succ]
        exact hrest
    | false =>
      have hle := hp rfl
      cases j with
      | zero =>
        rw [nameChars]
        by_cases hlt : p < name.length
        · have hchar : wideChar name (p + 0) = (name.getD p 0).toNat := if_pos hlt
          have hbyte := (name.getD p 0).isLt
          rw [hchar]
          refine ⟨?_, ?_⟩
          · show name.getD p 0 = BitVec.ofNat 8 (name.getD p 0).toNat
            rw [BitVec.ofNat_toNat, BitVec.setWidth_eq]
          show (0 : Byte) = BitVec.ofNat 8 ((name.getD p 0).toNat / 2 ^ 8)
          rw [Nat.div_eq_of_lt hbyte]
          rfl
        · have hchar : wideChar name (p + 0) = 0 := by
            unfold wideChar
            rw [if_neg (by omega), if_pos (by omega)]
          rw [hchar, List.getD_eq_default _ _ (Nat.le_of_not_lt hlt)]
          exact ⟨rfl, rfl⟩
      | succ j =>
        rw [nameChars, show 2 * (j + 1) = 2 * j + 1 + 1 by omega, List.getD_cons_succ, List.getD_cons_succ,
          List.getD_cons_succ, List.getD_cons_succ]
        by_cases hlt : p < name.length
        · have hget : name.getD p 0 = name[p] := List.getD_eq_getElem _ _ hlt
          have hne : decide (name.getD p 0 = 0) = false := decide_eq_false fun h => h0 (h ▸ hget ▸ List.getElem_mem hlt)
          have hrest := @ih (p + 1) j false (fun _ => hlt) (by omega)
          rw [hne, show p + (j + 1) = p + 1 + j by omega]
          exact hrest
        · have hstop : decide (name.getD p 0 = 0) = true :=
            decide_eq_true (List.getD_eq_default _ _ (Nat.le_of_not_lt hlt))
          have hrest := @ih (p + 1) j true (fun h => by cases h) (by omega)
          have hchar : wideChar name (p + (j + 1)) = 0xffff := by
            unfold wideChar
            rw [if_neg (by omega), if_neg (by omega)]
          rw [hstop, hchar]
          exact hrest

theorem wideChar_lt (name : List Byte) (p : Nat) : wideChar name p < 2 ^ 16 := by
  have := (name.getD p 0).isLt
  unfold wideChar
  split
  · omega
  · split <;> omega

/-- The parts of an entry that lists of these lengths make up. -/
theorem parts_get {a c w : List Byte} {b : Byte} (ha : a.length = 3) (hc : c.length = 2) (hw : w.length = 26) (j : Nat) :
    ([b] ++ w.take 10 ++ a ++ (w.drop 10).take 12 ++ c ++ w.drop 22).getD j 0 =
      if j = 0 then b else if j < 11 then w.getD (j - 1) 0 else if j < 14 then a.getD (j - 11) 0
      else if j < 26 then w.getD (j - 4) 0 else if j < 28 then c.getD (j - 26) 0 else w.getD (j - 6) 0 := by
  simp only [List.getD_eq_getElem?_getD, List.getElem?_append, List.getElem?_take, List.getElem?_drop, List.length_append,
    List.length_take, List.length_drop, List.length_singleton, ha, hc, hw]
  grind

/-- What `longEntry` has at each place. -/
theorem longEntry_get (name : List Byte) (checksum : Byte) (i j : Nat) :
    (longEntry name checksum i).getD j 0 =
      if j = 0 then BitVec.ofNat 8 (longOrder name i)
      else if j < 11 then (nameChars name CHAR_LONG_NAME ((i - 1) * CHAR_LONG_NAME) false).getD (j - 1) 0
      else if j < 14 then [BitVec.ofNat 8 ATTR_LONG_NAME, 0, checksum].getD (j - 11) 0
      else if j < 26 then (nameChars name CHAR_LONG_NAME ((i - 1) * CHAR_LONG_NAME) false).getD (j - 4) 0
      else if j < 28 then [(0 : Byte), 0].getD (j - 26) 0
      else (nameChars name CHAR_LONG_NAME ((i - 1) * CHAR_LONG_NAME) false).getD (j - 6) 0 :=
  parts_get rfl rfl (nameChars_length name CHAR_LONG_NAME _ false) j

theorem longEntry_length (name : List Byte) (checksum : Byte) (i : Nat) : (longEntry name checksum i).length = 32 := by
  have hw := nameChars_length name CHAR_LONG_NAME ((i - 1) * CHAR_LONG_NAME) false
  unfold longEntry
  simp only [List.length_append, List.length_take, List.length_drop, List.length_cons, List.length_nil, hw]
  rfl

theorem longEntry_attr (name : List Byte) (checksum : Byte) (i : Nat) : (longEntry name checksum i).attr = ATTR_LONG_NAME := by
  unfold Dentry.attr Dentry.u8
  rw [longEntry_get]
  rfl

theorem order_facts : ∀ i ≤ 20, i < 256 ∧ i ||| LAST_LONG_ENTRY < 256 ∧ i ≠ EMPTY_ENTRY ∧ i ||| LAST_LONG_ENTRY ≠ EMPTY_ENTRY ∧
    i ||| LAST_LONG_ENTRY ≠ 0 ∧ i &&& 0xbf = i ∧ (i ||| LAST_LONG_ENTRY) &&& 0xbf = i ∧ i &&& LAST_LONG_ENTRY = 0 ∧
    (i ||| LAST_LONG_ENTRY) &&& LAST_LONG_ENTRY ≠ 0 := by
  decide

theorem lneCnt_le (hlen : name.length ≤ 255) : lneCnt name ≤ 20 := by
  have hchar : CHAR_LONG_NAME = 13 := rfl
  unfold lneCnt
  rw [hchar]
  omega

/-- The order byte of a long entry is none of the markers, and gives the number back. -/
structure Numbered (name : List Byte) (e : Dentry) (i : Nat) : Prop where
  not_end : e.order ≠ END_OF_ENTRY
  not_empty : e.order ≠ EMPTY_ENTRY
  lcnt : e.lcnt = i
  last : e.order &&& LAST_LONG_ENTRY ≠ 0 ↔ i = lneCnt name

/-- A long entry bears its number. -/
theorem longEntry_numbered (checksum : Byte) (hlen : name.length ≤ 255) (hpos : 0 < i) (hi : i ≤ lneCnt name) :
    Numbered name (longEntry name checksum i) i := by
  have hcnt := lneCnt_le hlen
  obtain ⟨hlt, hlt', hempty, hempty', hzero, hlow, hlow', hmark, hmark'⟩ := order_facts i (by omega)
  have horder : (longEntry name checksum i).order = longOrder name i := by
    unfold Dentry.order Dentry.u8
    rw [longEntry_get, if_pos rfl, BitVec.toNat_ofNat]
    refine Nat.mod_eq_of_lt ?_
    unfold longOrder
    split
    · exact hlt'
    · exact hlt
  by_cases heq : i = lneCnt name
  · have hval : (longEntry name checksum i).order = i ||| LAST_LONG_ENTRY := horder.trans (if_pos heq)
    refine ⟨?_, ?_, ?_, ?_⟩
    · rw [hval]
      exact hzero
    · rw [hval]
      exact hempty'
    · unfold Dentry.lcnt
      rw [hval]
      exact hlow'
    · rw [hval]
      exact iff_of_true hmark' heq
  · have hval : (longEntry name checksum i).order = i := horder.trans (if_neg heq)
    refine ⟨?_, ?_, ?_, ?_⟩
    · rw [hval]
      exact Nat.ne_of_gt hpos
    · rw [hval]
      exact hempty
    · unfold Dentry.lcnt
      rw [hval]
      exact hlow
    · rw [hval]
      exact iff_of_false (not_ne_iff.mpr hmark) heq

/-- Two bytes of the entry are the wide character they were made of. -/
theorem u16_of_chars (h0 : (0 : Byte) ∉ name) {e : Dentry} {p q x : Nat} (hp : p ≤ name.length) (hq : q < CHAR_LONG_NAME)
    (hlow : e.getD x 0 = (nameChars name CHAR_LONG_NAME p false).getD (2 * q) 0)
    (hhigh : e.getD (x + 1) 0 = (nameChars name CHAR_LONG_NAME p false).getD (2 * q + 1) 0) :
    e.u16 x = wideChar name (p + q) := by
  obtain ⟨h1, h2⟩ := nameChars_get h0 CHAR_LONG_NAME false (fun _ => hp) hq
  have hlt := wideChar_lt name (p + q)
  unfold Dentry.u16 Dentry.u8
  rw [hlow, hhigh, h1, h2, if_neg Bool.false_ne_true, BitVec.toNat_ofNat, BitVec.toNat_ofNat]
  omega

/-- The characters `readDentryName` sees. -/
theorem longEntry_wchars (checksum : Byte) (h0 : (0 : Byte) ∉ name) (hp : (i - 1) * CHAR_LONG_NAME ≤ name.length) :
    (longEntry name checksum i).wchars 1 5 = wide name ((i - 1) * CHAR_LONG_NAME) 5 ∧
    (longEntry name checksum i).wchars 14 6 = wide name ((i - 1) * CHAR_LONG_NAME + 5) 6 ∧
    (longEntry name checksum i).wchars 28 2 = wide name ((i - 1) * CHAR_LONG_NAME + 11) 2 := by
  have hchar : CHAR_LONG_NAME = 13 := rfl
  have hat : ∀ x q, q < CHAR_LONG_NAME → (longEntry name checksum i).getD x 0 =
        (nameChars name CHAR_LONG_NAME ((i - 1) * CHAR_LONG_NAME) false).getD (2 * q) 0 →
      (longEntry name checksum i).getD (x + 1) 0 =
        (nameChars name CHAR_LONG_NAME ((i - 1) * CHAR_LONG_NAME) false).getD (2 * q + 1) 0 →
      (longEntry name checksum i).u16 x = wideChar name ((i - 1) * CHAR_LONG_NAME + q) :=
    fun x q hq h1 h2 => u16_of_chars h0 hp hq h1 h2
  refine ⟨List.map_congr_left fun k hk => ?_, List.map_congr_left fun k hk => ?_, List.map_congr_left fun k hk => ?_⟩
  · have hlt := List.mem_range.mp hk
    refine hat (1 + 2 * k) k (by omega) ?_ ?_
    · rw [longEntry_get, if_neg (by omega), if_pos (by omega), show 1 + 2 * k - 1 = 2 * k by omega]
    · rw [longEntry_get, if_neg (by omega), if_pos (by omega), show 1 + 2 * k + 1 - 1 = 2 * k + 1 by omega]
  · have hlt := List.mem_range.mp hk
    rw [Nat.add_assoc]
    refine hat (14 + 2 * k) (5 + k) (by omega) ?_ ?_
    · rw [longEntry_get, if_neg (by omega), if_neg (by omega), if_neg (by omega), if_pos (by omega),
        show 14 + 2 * k - 4 = 2 * (5 + k) by omega]
    · rw [longEntry_get, if_neg (by omega), if_neg (by omega), if_neg (by omega), if_pos (by omega),
        show 14 + 2 * k + 1 - 4 = 2 * (5 + k) + 1 by omega]
  · have hlt := List.mem_range.mp hk
    rw [Nat.add_assoc]
    refine hat (28 + 2 * k) (11 + k) (by omega) ?_ ?_
    · rw [longEntry_get, if_neg (by omega), if_neg (by omega), if_neg (by omega), if_neg (by omega), if_neg (by omega),
        show 28 + 2 * k - 6 = 2 * (11 + k) by omega]
    · rw [longEntry_get, if_neg (by omega), if_neg (by omega), if_neg (by omega), if_neg (by omega), if_neg (by omega),
        show 28 + 2 * k + 1 - 6 = 2 * (11 + k) + 1 by omega]

/-! ## The name comes back -/

theorem snstr_zero (cs : List Nat) : snstr (0 :: cs) = List.replicate cs.length 0 := by
  unfold snstr
  rw [List.takeWhile_cons_of_neg (by decide)]
  rfl

theorem snstr_cons {c : Nat} (hc : c ≠ 0) (cs : List Nat) : snstr (c :: cs) = BitVec.ofNat 8 c :: snstr cs := by
  unfold snstr
  rw [List.takeWhile_cons_of_pos (p := fun x => decide (x ≠ 0)) (decide_eq_true hc)]
  dsimp only
  rw [List.map_cons, List.length_cons, List.length_cons, Nat.add_sub_add_right, List.cons_append]

/-- Up to the first zero `snstr` stores the low bytes of the characters. -/
theorem snstr_get (cs : List Nat) {k : Nat} (hk : k < cs.length) (hne : ∀ j < k, cs.getD j 0 ≠ 0) :
    (snstr cs).getD k 0 = BitVec.ofNat 8 (cs.getD k 0) := by
  induction cs generalizing k with
  | nil => cases hk
  | cons c cs ih =>
    by_cases hc : c = 0
    · obtain rfl : k = 0 := Nat.eq_zero_of_not_pos fun hpos => hne 0 hpos hc
      rw [hc, snstr_zero]
      cases cs <;> rfl
    · rw [snstr_cons hc]
      cases k with
      | zero => rfl
      | succ k => exact ih (Nat.lt_of_succ_lt_succ hk) fun j hj => hne (j + 1) (Nat.succ_lt_succ hj)

theorem store_length {buf s : List Byte} (h : i + s.length ≤ buf.length) : (store buf i s).length = buf.length := by
  unfold store
  simp only [List.length_append, List.length_take, List.length_drop]
  omega

theorem store_get {buf s : List Byte} (h : i + s.length ≤ buf.length) (p : Nat) :
    (store buf i s).getD p 0 = if i ≤ p ∧ p < i + s.length then s.getD (p - i) 0 else buf.getD p 0 := by
  unfold store
  simp only [List.getD_eq_getElem?_getD, List.getElem?_append, List.getElem?_take, List.getElem?_drop, List.length_append,
    List.length_take]
  grind

/-- The low bytes of the characters `cs` are those of the name from position `b` on, with its terminator. -/
def Spells (name : List Byte) (b : Nat) (cs : List Nat) : Prop :=
  ∀ q < cs.length, b + q ≤ name.length → name.getD (b + q) 0 = BitVec.ofNat 8 (cs.getD q 0)

theorem spells_wide (name : List Byte) (b m : Nat) : Spells name b (wide name b m) := by
  intro q hq hle
  rw [wide_length] at hq
  have hget : (wide name b m).getD q 0 = wideChar name (b + q) := by
    unfold wide
    rw [List.getD_eq_getElem _ _ (by rw [List.length_map, List.length_range]; exact hq), List.getElem_map, List.getElem_range]
  rw [hget]
  unfold wideChar
  by_cases hlt : b + q < name.length
  · rw [if_pos hlt, BitVec.ofNat_toNat, BitVec.setWidth_eq]
  · rw [if_neg hlt, if_pos (by omega), List.getD_eq_default _ _ (by omega)]
    rfl

/-- The name from position `lo` on, with its terminator, before which nothing has been stored. -/
structure NameAt (name buf : List Byte) (lo : Nat) : Prop where
  length : buf.length = 260
  above : ∀ p, lo ≤ p → p ≤ name.length → buf.getD p 0 = name.getD p 0
  below : ∀ p < lo, buf.getD p 0 = 0

variable {buf : List Byte}

/-- One part of the characters. -/
theorem store_chars (h0 : (0 : Byte) ∉ name) {b p : Nat} {cs : List Nat} (hcs : Spells name b cs) (hlen : b + cs.length ≤ buf.length)
    (hzero : b ≤ p → p < b + cs.length → buf.getD p 0 = 0) (hp : p ≤ name.length) :
    (store buf b (snstr cs)).getD p 0 = if b ≤ p ∧ p < b + cs.length then name.getD p 0 else buf.getD p 0 := by
  have hle := (snstr_length cs).2
  rw [store_get (by omega)]
  by_cases hin : b ≤ p ∧ p < b + cs.length
  · have hne : ∀ j < p - b, cs.getD j 0 ≠ 0 := fun j hj hz => by
      have hat := hcs j (by omega) (by omega)
      rw [hz, List.getD_eq_getElem _ _ (by omega)] at hat
      have hmem : (0 : Byte) = name[b + j] := hat.symm
      exact h0 (hmem ▸ List.getElem_mem (show b + j < name.length by omega))
    have hchar := snstr_get cs (show p - b < cs.length by omega) hne
    have hname := hcs (p - b) (by omega) (by omega)
    rw [show b + (p - b) = p by omega] at hname
    rw [← hname] at hchar
    rw [if_pos hin]
    by_cases hshort : p < b + (snstr cs).length
    · rw [if_pos ⟨hin.1, hshort⟩, hchar]
    · -- `snstr` stops one short of a terminator in the last place
      rw [if_neg fun h => hshort h.2, hzero hin.1 hin.2, ← hchar, List.getD_eq_default _ _ (by omega)]
  · rw [if_neg hin, if_neg fun h => hin ⟨h.1, by omega⟩]

/-- **The characters of a long entry** go in front of those already there. -/
theorem NameAt.readEntry (h0 : (0 : Byte) ∉ name) {e : Dentry} (hi : i < 20) (h1 : Spells name (i * CHAR_LONG_NAME) (e.wchars 1 5))
    (h2 : Spells name (i * CHAR_LONG_NAME + 5) (e.wchars 14 6)) (h3 : Spells name (i * CHAR_LONG_NAME + 11) (e.wchars 28 2))
    (h : NameAt name buf ((i + 1) * CHAR_LONG_NAME)) :
    NameAt name (readLongName buf (i * CHAR_LONG_NAME) e) (i * CHAR_LONG_NAME) := by
  have hlen := h.length
  have hchar : CHAR_LONG_NAME = 13 := rfl
  have hc1 := Dentry.wchars_length e 1 5
  have hc2 := Dentry.wchars_length e 14 6
  have hc3 := Dentry.wchars_length e 28 2
  have hl1 := (snstr_length (e.wchars 1 5)).2
  have hl2 := (snstr_length (e.wchars 14 6)).2
  have hl3 := (snstr_length (e.wchars 28 2)).2
  have hbelow := h.below
  have habove := h.above
  rw [hchar] at h1 h2 h3 hbelow habove ⊢
  unfold readLongName
  obtain ⟨buf₁, hbuf₁⟩ : ∃ buf₁, store buf (i * 13) (snstr (e.wchars 1 5)) = buf₁ := ⟨_, rfl⟩
  have hlen₁ : buf₁.length = 260 := by rw [← hbuf₁, store_length (by omega), hlen]
  obtain ⟨buf₂, hbuf₂⟩ : ∃ buf₂, store buf₁ (i * 13 + 5) (snstr (e.wchars 14 6)) = buf₂ := ⟨_, rfl⟩
  have hlen₂ : buf₂.length = 260 := by rw [← hbuf₂, store_length (by omega), hlen₁]
  rw [hbuf₁, hbuf₂]
  -- below the entry nothing is stored, in it its characters are, and behind it what was there stays
  have hout₁ : ∀ p, p < i * 13 ∨ i * 13 + 5 ≤ p → buf₁.getD p 0 = buf.getD p 0 := fun p hp' => by
    rw [← hbuf₁, store_get (by omega), if_neg (by omega)]
  have hout₂ : ∀ p, p < i * 13 + 5 ∨ i * 13 + 11 ≤ p → buf₂.getD p 0 = buf₁.getD p 0 := fun p hp' => by
    rw [← hbuf₂, store_get (by omega), if_neg (by omega)]
  have hin₁ : ∀ p, i * 13 ≤ p → p < i * 13 + 5 → p ≤ name.length → buf₁.getD p 0 = name.getD p 0 := fun p hlo hhi hple => by
    rw [← hbuf₁, store_chars h0 h1 (by omega) (fun _ _ => hbelow p (by omega)) hple, hc1, if_pos ⟨hlo, hhi⟩]
  have hin₂ : ∀ p, i * 13 + 5 ≤ p → p < i * 13 + 11 → p ≤ name.length → buf₂.getD p 0 = name.getD p 0 := fun p hlo hhi hple => by
    rw [← hbuf₂, store_chars h0 h2 (by omega) (fun _ _ => (hout₁ p (by omega)).trans (hbelow p (by omega))) hple, hc2,
      if_pos ⟨hlo, by omega⟩]
  have hzero₂ : ∀ p, i * 13 + 11 ≤ p → p < i * 13 + 13 → buf₂.getD p 0 = 0 := fun p hlo hhi =>
    (hout₂ p (by omega)).trans ((hout₁ p (by omega)).trans (hbelow p (by omega)))
  refine ⟨(store_length (by omega)).trans hlen₂, fun p hlo hple => ?_, fun p hlt => ?_⟩
  · by_cases hlast : i * 13 + 11 ≤ p ∧ p < i * 13 + 13
    · rw [store_chars h0 h3 (by omega) (fun h1 h2 => hzero₂ p h1 (by omega)) hple, hc3, if_pos (by omega)]
    · rw [store_get (by omega), if_neg (by omega)]
      by_cases hmid : i * 13 + 5 ≤ p ∧ p < i * 13 + 11
      · exact hin₂ p hmid.1 hmid.2 hple
      · rw [hout₂ p (by omega)]
        by_cases hfirst : p < i * 13 + 5
        · exact hin₁ p hlo hfirst hple
        · rw [hout₁ p (by omega)]
          exact habove p (by omega) hple
  · rw [store_get (by omega), if_neg (by omega), hout₂ p (by omega), hout₁ p (by omega)]
    exact hbelow p (by omega)

theorem NameAt.readLong (h0 : (0 : Byte) ∉ name) (checksum : Byte) (hi : i < 20) (hp : i * CHAR_LONG_NAME ≤ name.length)
    (h : NameAt name buf ((i + 1) * CHAR_LONG_NAME)) :
    NameAt name (readLongName buf (i * CHAR_LONG_NAME) (longEntry name checksum (i + 1))) (i * CHAR_LONG_NAME) := by
  obtain ⟨h1, h2, h3⟩ := longEntry_wchars checksum h0 (i := i + 1) hp
  rw [Nat.add_sub_cancel] at h1 h2 h3
  refine h.readEntry h0 hi ?_ ?_ ?_
  · rw [h1]
    exact spells_wide name _ 5
  · rw [h2]
    exact spells_wide name _ 6
  · rw [h3]
    exact spells_wide name _ 2

/-- The name as it was cleared. -/
theorem nameAt_start (name : List Byte) : NameAt name (List.replicate 260 0) (lneCnt name * CHAR_LONG_NAME) := by
  have hzero : ∀ p, (List.replicate 260 (0 : Byte)).getD p 0 = 0 := fun p => by
    rw [List.getD_eq_getElem?_getD, List.getElem?_replicate]
    split <;> rfl
  refine ⟨List.length_replicate, fun p hlo hp => ?_, fun p _ => hzero p⟩
  have hchar : CHAR_LONG_NAME = 13 := rfl
  unfold lneCnt at hlo
  rw [hchar] at hlo
  rw [hzero, List.getD_eq_default _ _ (by omega)]

/-- Read as a string, it is the name. -/
theorem NameAt.cstr (h : NameAt name buf 0) (h0 : (0 : Byte) ∉ name) (hlen : name.length ≤ FAT32_MAX_FILENAME) :
    Tree.cstr (buf.take (FAT32_MAX_FILENAME + 1)) = name := by
  have hmax : FAT32_MAX_FILENAME = 255 := rfl
  have hbuf := h.length
  have hsplit : buf.take (FAT32_MAX_FILENAME + 1) = name ++ 0 :: (buf.take (FAT32_MAX_FILENAME + 1)).drop (name.length + 1) := by
    apply List.ext_getElem?
    intro p
    by_cases hp : p ≤ name.length
    · have hat := h.above p (Nat.zero_le p) hp
      rw [List.getD_eq_getElem _ _ (by omega)] at hat
      rw [List.getElem?_take_of_lt (by omega), List.getElem?_eq_getElem (by omega), hat, List.getElem?_append]
      by_cases hlt : p < name.length
      · rw [if_pos hlt, List.getElem?_eq_getElem hlt, List.getD_eq_getElem _ _ hlt]
      · rw [if_neg hlt, List.getD_eq_default _ _ (by omega), show p - name.length = 0 by omega]
        rfl
    · rw [List.getElem?_append_right (by omega), show p - name.length = (p - (name.length + 1)) + 1 by omega,
        List.getElem?_cons_succ, List.getElem?_drop, show name.length + 1 + (p - (name.length + 1)) = p by omega]
  have hall : ∀ c ∈ name, (fun x : Byte => decide (x ≠ 0)) c = true := fun c hc => decide_eq_true fun hz => h0 (hz ▸ hc)
  unfold Tree.cstr
  rw [hsplit, List.takeWhile_append_of_pos hall, List.takeWhile_cons_of_neg (by decide), List.append_nil]

end Long

/-! ## The short entry -/

section ShortEntry

variable {name : List Byte} {child : DirMeta}

/-- The ranges of the fields that an entry stores. -/
structure Stores (child : DirMeta) : Prop where
  attr : child.attr < 2 ^ 8
  reserve : child.reserve < 2 ^ 8
  firstClus : child.firstClus < 2 ^ 32
  fileSize : child.fileSize < 2 ^ 32

theorem strncpy_length (src : List Byte) (n : Nat) : (strncpy src n).length = n := by
  unfold strncpy
  rw [List.length_append, List.length_take, List.length_replicate]
  omega

theorem shortEntry_length (hname : name.length = 11) : (shortEntry name child).length = 32 := by
  unfold shortEntry le16
  simp only [List.length_append, List.length_cons, List.length_nil, List.length_replicate, hname]

/-- What stands behind the name. -/
theorem shortEntry_get (hname : name.length = 11) (j : Nat) : (shortEntry name child).getD (11 + j) 0 =
    ([BitVec.ofNat 8 child.attr, BitVec.ofNat 8 child.reserve] ++ List.replicate 7 0 ++ le16 (child.firstClus / 2 ^ 16) ++
      List.replicate 4 0 ++ le16 child.firstClus ++ (le16 child.fileSize ++ le16 (child.fileSize / 2 ^ 16))).getD j 0 := by
  unfold shortEntry
  simp only [List.append_assoc, List.getD_eq_getElem?_getD]
  rw [List.getElem?_append_right (by omega), show 11 + j - name.length = j by omega]

theorem le16_toNat (x : Nat) : (BitVec.ofNat 8 x).toNat + 2 ^ 8 * (BitVec.ofNat 8 (x / 2 ^ 8)).toNat = x % 2 ^ 16 := by
  rw [BitVec.toNat_ofNat, BitVec.toNat_ofNat]
  omega

/-- `readDentryInfo` finds what was stored. -/
theorem shortEntry_fields (hname : name.length = 11) (hs : Stores child) :
    (shortEntry name child).attr = child.attr ∧ (shortEntry name child).nt_res = child.reserve ∧
      (shortEntry name child).firstClus = child.firstClus ∧ (shortEntry name child).file_size = child.fileSize := by
  have hat := fun j => @shortEntry_get name child hname j
  have h16 : ∀ x y, (shortEntry name child).getD (11 + x) 0 = BitVec.ofNat 8 y →
      (shortEntry name child).getD (11 + x + 1) 0 = BitVec.ofNat 8 (y / 2 ^ 8) →
      (shortEntry name child).u16 (11 + x) = y % 2 ^ 16 := fun x y h1 h2 => by
    unfold Dentry.u16 Dentry.u8
    rw [h1, h2]
    exact le16_toNat y
  have hfirst := hs.firstClus
  have hsize := hs.fileSize
  refine ⟨?_, ?_, ?_, ?_⟩
  · show ((shortEntry name child).getD (11 + 0) 0).toNat = _
    rw [hat 0]
    exact Nat.mod_eq_of_lt hs.attr
  · show ((shortEntry name child).getD (11 + 1) 0).toNat = _
    rw [hat 1]
    exact Nat.mod_eq_of_lt hs.reserve
  · show (shortEntry name child).u16 (11 + 9) * 2 ^ 16 + (shortEntry name child).u16 (11 + 15) = _
    rw [h16 9 (child.firstClus / 2 ^ 16) (hat 9) (hat 10), h16 15 child.firstClus (hat 15) (hat 16)]
    omega
  · show (shortEntry name child).u16 (11 + 17) + 2 ^ 16 * (shortEntry name child).u16 (11 + 19) = _
    rw [h16 17 child.fileSize (hat 17) (hat 18), h16 19 (child.fileSize / 2 ^ 16) (hat 19) (hat 20)]
    omega

/-- The first byte of the short entry is not the end mark, and is the empty mark for certain names only. -/
theorem shortEntry_order (h0 : (0 : Byte) ∉ name) : (shortEntry (strncpy (generateShortName name) CHAR_SHORT_NAME) child).order ≠
      END_OF_ENTRY ∧
    ((shortEntry (strncpy (generateShortName name) CHAR_SHORT_NAME) child).order = EMPTY_ENTRY ↔ ShortEmpty name) := by
  have hzero := zero_notMem_shortName name
  have hcstr : Tree.cstr (generateShortName name) = generateShortName name := by
    have hall : ∀ c ∈ generateShortName name, (fun x : Byte => decide (x ≠ 0)) c = true :=
      fun c hc => decide_eq_true fun hz => hzero (hz ▸ hc)
    exact List.takeWhile_eq_self_iff.mpr hall
  have hiff : (shortLoop name (name.length + 1) 0 (some (lastDot name)) []).head?.getD space = 0xe5 ↔ ShortEmpty (name.drop 0) :=
    shortLoop_empty_iff (name.length + 1) h0 (lastDot_spec name) (by omega)
  rw [List.drop_zero] at hiff
  -- the name is padded, so that it has a first byte
  obtain ⟨c, rest, hc⟩ : ∃ c rest, generateShortName name = c :: rest := by
    unfold generateShortName
    cases hshort : shortLoop name (name.length + 1) 0 (some (lastDot name)) [] with
    | nil => exact ⟨space, List.replicate 10 space, rfl⟩
    | cons c rest => exact ⟨c, _, rfl⟩
  have hhead : (shortLoop name (name.length + 1) 0 (some (lastDot name)) []).head?.getD space = c := by
    unfold generateShortName at hc
    cases hshort : shortLoop name (name.length + 1) 0 (some (lastDot name)) [] with
    | nil =>
      rw [hshort] at hc
      exact (List.cons.inj hc).1
    | cons d rest' =>
      rw [hshort] at hc
      exact (List.cons.inj hc).1
  have horder : (shortEntry (strncpy (generateShortName name) CHAR_SHORT_NAME) child).order = c.toNat := by
    unfold strncpy
    rw [hcstr, hc]
    rfl
  rw [horder, ← hiff, hhead]
  refine ⟨fun hz => hzero ?_, fun h => BitVec.toNat_inj.mp h, fun h => congrArg BitVec.toNat h⟩
  have hcz : c = 0 := BitVec.toNat_inj.mp hz
  rw [hc, hcz]
  exact List.mem_cons_self

end ShortEntry

end Exaros.Dir
