import Exaros.Dir.Runs

/-!
# Where decoding stores

`dirMetaNext` computes where the characters of a long entry go from a byte of the entry. Here each of its stores is
kept, with the index into `filename` or the pointer that it goes through, and the entries are found for which every
index is one of the array and `*count` is never stored to once `count` is null.
-/

namespace Exaros.Dir

open Fat

/-- What a store of `dirMetaNext` goes to. -/
inductive Target where
  /-- `childMeta->filename[i]` -/
  | filename (i : Int)
  /-- `*count` -/
  | count (null : Bool)
  /-- a field that `readDentryInfo` sets -/
  | info
deriving DecidableEq, Repr

/-- An element of the array, or what a pointer points to. -/
def Target.Inside : Target → Prop
  | .filename i => 0 ≤ i ∧ i ≤ FAT32_MAX_FILENAME
  | .count null => null = false
  | .info => True

namespace Dentry

/-- `lne.order & ~LAST_LONG_ENTRY` -/
def lcnt (e : Dentry) : Nat := e.order &&& 0xbf

def isLast (e : Dentry) : Bool := decide (e.order &&& LAST_LONG_ENTRY ≠ 0)

/-- A long entry that is in use. -/
def isLong (e : Dentry) : Bool := decide (e.attr = ATTR_LONG_NAME ∧ e.order ≠ EMPTY_ENTRY)

/-- The characters of a short name with its dot. -/
def shortLength (e : Dentry) : Nat :=
  ((e.take 8).takeWhile (· ≠ 0x20)).length + (if e.getD 8 0 ≠ 0x20 then 1 else 0) +
    (((e.drop 8).take 3).takeWhile (· ≠ 0x20)).length

end Dentry

/-- `n` stores from `filename + i` on. -/
def storesFrom (i : Int) (n : Nat) : List Target := (List.range n).map fun k => .filename (i + (k : Nat))

/-- The stores of `readDentryName(filename + i, e)`. -/
def readDentryName (i : Int) (e : Dentry) : List Target :=
  if e.attr = ATTR_LONG_NAME then
    storesFrom i (snstr (e.wchars 1 5)).length ++ storesFrom (i + 5) (snstr (e.wchars 14 6)).length ++
      storesFrom (i + 11) (snstr (e.wchars 28 2)).length
  else storesFrom i (CHAR_SHORT_NAME + 2) ++ storesFrom i e.shortLength

/-- What the loop of `dirMetaNext` reads at `off`: the entry there, if there is one. -/
def readDentry (fs : FileSystem) (dm : DirMeta) (off : Nat) : Except Halt (Option Dentry × FileSystem × DirMeta) :=
  match relocClus fs dm off false with
  | .error e => .error (.fat e)
  | .ok (off2, fs, dm) =>
    if off2 = -1 then .ok (none, fs, dm)
    else
      match rwClusRead fs dm.curClus off2.toNat 32 with
      | .error e => .error (.fat e)
      | .ok (r, entry) =>
        if r ≠ 32 ∨ Dentry.order entry = END_OF_ENTRY then .ok (none, fs, dm) else .ok (some entry, fs, dm)

/-- The first `n` entries a directory has from `off` on, up to its end. -/
def dentries : Nat → FileSystem → DirMeta → Nat → List Dentry
  | 0, _, _, _ => []
  | n + 1, fs, dm, off =>
    match readDentry fs dm off with
    | .ok (some entry, fs, dm) => entry :: dentries n fs dm (Fat.u32 (off + 32))
    | _ => []

/-- The stores of the first `n` turns of the loop of `dirMetaNext`; `null` is whether `count` has been set to 0. -/
def nextStores : Nat → FileSystem → DirMeta → Nat → Nat → Bool → List Target
  | 0, _, _, _, _, _ => []
  | n + 1, fs, dm, off, cnt, null =>
    match readDentry fs dm off with
    | .ok (some entry, fs, dm) =>
      if entry.order = EMPTY_ENTRY then nextStores n fs dm (Fat.u32 (off + 32)) (cnt + 1) null
      else if cnt ≠ 0 then [.count null]
      else if entry.attr = ATTR_LONG_NAME then
        (if entry.isLast then [.count null] else []) ++
          readDentryName (((entry.lcnt : Int) - 1) * CHAR_LONG_NAME) entry ++
          nextStores n fs dm (Fat.u32 (off + 32)) cnt (null || entry.isLast)
      else (if null then [] else .count null :: readDentryName 0 entry) ++ [.info]
    | _ => []

namespace Tree

/-- The entries directory `dir` has from `off` on. -/
def dentries (n : Nat) (t : Tree) (dir off : Nat) : List Dentry := Dir.dentries n (t.volume (t.fsOf dir)) (t.dirMetas dir) off

/-- The stores of `dirMetaNext` in its first `n` turns; the first are those of its `memset`. -/
def dirMetaNextStores (n : Nat) (t : Tree) (dir off : Nat) : List Target :=
  if ¬ t.isDir dir ∨ off % 32 ≠ 0 then []
  else storesFrom 0 (FAT32_MAX_FILENAME + 1) ++ nextStores n (t.volume (t.fsOf dir)) (t.dirMetas dir) off 0 false

end Tree

/-! ## One entry -/

theorem forall_storesFrom {i : Int} {n : Nat} :
    (∀ s ∈ storesFrom i n, s.Inside) ↔ n = 0 ∨ (0 ≤ i ∧ i + n ≤ FAT32_MAX_FILENAME + 1) := by
  constructor
  · intro h
    by_cases hn : n = 0
    · exact .inl hn
    · have hfirst : Target.Inside (.filename (i + (0 : Nat))) :=
        h _ (List.mem_map_of_mem (List.mem_range.mpr (Nat.pos_of_ne_zero hn)))
      have hlast : Target.Inside (.filename (i + (n - 1 : Nat))) := h _ (List.mem_map_of_mem (List.mem_range.mpr (by omega)))
      have h1 := hfirst.1
      have h2 := hlast.2
      exact .inr (by omega)
  · intro h s hs
    obtain ⟨k, hk, rfl⟩ := List.mem_map.mp hs
    have hlt := List.mem_range.mp hk
    show 0 ≤ i + (k : Nat) ∧ i + (k : Nat) ≤ FAT32_MAX_FILENAME
    omega

theorem snstr_length (src : List Nat) : src.length ≤ (snstr src).length + 1 ∧ (snstr src).length ≤ src.length := by
  have hle : (src.takeWhile (· ≠ 0)).length ≤ src.length := (List.takeWhile_sublist _).length_le
  have hlen : (snstr src).length =
      (src.takeWhile (· ≠ 0)).length + (src.length - (src.takeWhile (· ≠ 0)).length - 1) := by
    unfold snstr
    rw [List.length_append, List.length_map, List.length_replicate]
  omega

theorem Dentry.wchars_length (e : Dentry) (i n : Nat) : (e.wchars i n).length = n := by
  unfold Dentry.wchars
  rw [List.length_map, List.length_range]

theorem forall_append {s₁ s₂ : List Target} :
    (∀ s ∈ s₁ ++ s₂, s.Inside) ↔ (∀ s ∈ s₁, s.Inside) ∧ ∀ s ∈ s₂, s.Inside :=
  List.forall_mem_append

/-- The thirteen characters of a long entry fit for the numbers 1 to 19. -/
theorem forall_readLong {e : Dentry} (hattr : e.attr = ATTR_LONG_NAME) :
    (∀ s ∈ readDentryName (((e.lcnt : Int) - 1) * CHAR_LONG_NAME) e, s.Inside) ↔ 1 ≤ e.lcnt ∧ e.lcnt ≤ 19 := by
  have hmax : (FAT32_MAX_FILENAME : Int) = 255 := rfl
  have hchar : (CHAR_LONG_NAME : Int) = 13 := rfl
  have h1 := snstr_length (e.wchars 1 5)
  have h2 := snstr_length (e.wchars 14 6)
  have h3 := snstr_length (e.wchars 28 2)
  rw [Dentry.wchars_length] at h1 h2 h3
  unfold readDentryName
  rw [if_pos hattr, forall_append, forall_append, forall_storesFrom, forall_storesFrom, forall_storesFrom, hchar]
  omega

theorem Dentry.shortLength_le (e : Dentry) : e.shortLength ≤ CHAR_SHORT_NAME + 2 := by
  have hbase : ((e.take 8).takeWhile (· ≠ 0x20)).length ≤ 8 :=
    (List.takeWhile_sublist _).length_le.trans (List.length_take_le 8 e)
  have hext : (((e.drop 8).take 3).takeWhile (· ≠ 0x20)).length ≤ 3 :=
    (List.takeWhile_sublist _).length_le.trans (List.length_take_le 3 _)
  have hdot : (if e.getD 8 0 ≠ 0x20 then 1 else 0) ≤ 1 := by
    split
    · exact Nat.le_refl 1
    · exact Nat.zero_le 1
  have hshort : CHAR_SHORT_NAME = 11 := rfl
  unfold Dentry.shortLength
  omega

theorem forall_readShort {e : Dentry} (hattr : e.attr ≠ ATTR_LONG_NAME) : ∀ s ∈ readDentryName 0 e, s.Inside := by
  have hmax : (FAT32_MAX_FILENAME : Int) = 255 := rfl
  have hlen := e.shortLength_le
  have hshort : CHAR_SHORT_NAME = 11 := rfl
  unfold readDentryName
  rw [if_neg hattr, forall_append, forall_storesFrom, forall_storesFrom]
  omega

/-! ## A group of entries -/

/-- Empty entries with something behind them. -/
def Broken (es : List Dentry) : Prop := (∃ e ∈ es.head?, e.order = EMPTY_ENTRY) ∧ ∃ e ∈ es, e.order ≠ EMPTY_ENTRY

/-- The entries of a directory for which every store stays inside; `null` is whether `count` is null already. -/
structure Fits (null : Bool) (es : List Dentry) : Prop where
  order : ∀ e ∈ es.takeWhile Dentry.isLong, 1 ≤ e.lcnt ∧ e.lcnt ≤ 19
  once : null.toNat + (es.takeWhile Dentry.isLong).countP Dentry.isLast ≤ 1
  whole : (null = true ∨ ∃ e ∈ es.takeWhile Dentry.isLong, e.isLast = true) → ¬ Broken (es.dropWhile Dentry.isLong)

section Group

variable {null : Bool} {e : Dentry} {es : List Dentry}

theorem fits_nil : Fits null [] := by
  refine ⟨fun e he => (List.not_mem_nil he).elim, ?_, fun _ hb => ?_⟩
  · cases null <;> decide
  · obtain ⟨⟨e, he, -⟩, -⟩ := hb
    cases he

/-- Without a group only what follows matters. -/
theorem fits_of_not_long (hlong : e.isLong = false) : Fits null (e :: es) ↔ (null = true → ¬ Broken (e :: es)) := by
  have htake : (e :: es).takeWhile Dentry.isLong = [] := by rw [List.takeWhile_cons, hlong, if_neg Bool.false_ne_true]
  have hdrop : (e :: es).dropWhile Dentry.isLong = e :: es := by rw [List.dropWhile_cons, hlong, if_neg Bool.false_ne_true]
  constructor
  · intro h hnull
    have hw := h.whole (.inl hnull)
    rwa [hdrop] at hw
  · intro h
    refine ⟨fun e he => ?_, ?_, fun hl => ?_⟩
    · rw [htake] at he
      exact (List.not_mem_nil he).elim
    · rw [htake]
      cases null <;> decide
    · rw [hdrop]
      rcases hl with hl | ⟨e, he, -⟩
      · exact h hl
      · rw [htake] at he
        exact (List.not_mem_nil he).elim

theorem fits_empty (he : e.order = EMPTY_ENTRY) :
    Fits null (e :: es) ↔ (null = true → ∀ e' ∈ es, e'.order = EMPTY_ENTRY) := by
  have hlong : e.isLong = false := decide_eq_false fun h => h.2 he
  rw [fits_of_not_long hlong]
  refine imp_congr_right fun _ => ⟨fun h e' he' => ?_, fun h hb => ?_⟩
  · by_contra hne
    exact h ⟨⟨e, rfl, he⟩, e', List.mem_cons_of_mem _ he', hne⟩
  · obtain ⟨-, e', he', hne⟩ := hb
    rcases List.mem_cons.mp he' with rfl | he'
    · exact hne he
    · exact hne (h e' he')

theorem fits_short (he : e.order ≠ EMPTY_ENTRY) (hattr : e.attr ≠ ATTR_LONG_NAME) : Fits null (e :: es) := by
  have hlong : e.isLong = false := decide_eq_false fun h => hattr h.1
  rw [fits_of_not_long hlong]
  intro _ hb
  obtain ⟨⟨e', he', hempty⟩, -⟩ := hb
  cases he'
  exact he hempty

/-- When a long entry and what comes behind it fit. -/
theorem fits_long (he : e.order ≠ EMPTY_ENTRY) (hattr : e.attr = ATTR_LONG_NAME) : Fits null (e :: es) ↔
    (1 ≤ e.lcnt ∧ e.lcnt ≤ 19) ∧ ¬ (null = true ∧ e.isLast = true) ∧ Fits (null || e.isLast) es := by
  have hlong : e.isLong = true := decide_eq_true ⟨hattr, he⟩
  have htake : (e :: es).takeWhile Dentry.isLong = e :: es.takeWhile Dentry.isLong := by
    rw [List.takeWhile_cons, hlong, if_pos rfl]
  have hdrop : (e :: es).dropWhile Dentry.isLong = es.dropWhile Dentry.isLong := by
    rw [List.dropWhile_cons, hlong, if_pos rfl]
  -- the group of the rest has one entry with the mark less, or `count` is null for it
  have honce : null.toNat + (e :: es.takeWhile Dentry.isLong).countP Dentry.isLast ≤ 1 ↔
      ¬ (null = true ∧ e.isLast = true) ∧
        (null || e.isLast).toNat + (es.takeWhile Dentry.isLong).countP Dentry.isLast ≤ 1 := by
    rw [List.countP_cons]
    cases null <;> cases e.isLast <;> simp
  have hmark : (null = true ∨ ∃ e' ∈ e :: es.takeWhile Dentry.isLong, e'.isLast = true) ↔
      ((null || e.isLast) = true ∨ ∃ e' ∈ es.takeWhile Dentry.isLong, e'.isLast = true) := by
    rw [List.exists_mem_cons_iff, Bool.or_eq_true, or_assoc]
  constructor
  · intro h
    have hord := h.order
    have hone := h.once
    have hwhole := h.whole
    rw [htake] at hord hone hwhole
    rw [hdrop, hmark] at hwhole
    obtain ⟨hnot, hone⟩ := honce.mp hone
    exact ⟨hord e List.mem_cons_self, hnot, ⟨fun e' he' => hord e' (List.mem_cons_of_mem _ he'), hone, hwhole⟩⟩
  · rintro ⟨hord, hnot, h⟩
    refine ⟨?_, ?_, ?_⟩
    · rw [htake]
      exact List.forall_mem_cons.mpr ⟨hord, h.order⟩
    · rw [htake]
      exact honce.mpr ⟨hnot, h.once⟩
    · rw [htake, hdrop, hmark]
      exact h.whole

end Group

/-! ## The loop -/

section Stores

variable {fs fs' : FileSystem} {dm dm' : DirMeta} {off cnt : Nat} {null : Bool} {e : Dentry}

theorem dentries_entry (n : Nat) (h : readDentry fs dm off = .ok (some e, fs', dm')) :
    dentries (n + 1) fs dm off = e :: dentries n fs' dm' (Fat.u32 (off + 32)) := by
  rw [dentries, h]

/-- After empty entries the next one that is not stores to `*count`. -/
theorem inside_emptyRun (n : Nat) (hcnt : cnt ≠ 0) :
    (∀ s ∈ nextStores n fs dm off cnt null, s.Inside) ↔
      (null = true → ∀ e ∈ dentries n fs dm off, e.order = EMPTY_ENTRY) := by
  induction n generalizing fs dm off cnt with
  | zero => exact iff_of_true (fun s hs => (List.not_mem_nil hs).elim) fun _ e he => (List.not_mem_nil he).elim
  | succ n ih =>
    cases hread : readDentry fs dm off with
    | error h =>
      rw [nextStores, dentries, hread]
      exact iff_of_true (fun s hs => (List.not_mem_nil hs).elim) fun _ e he => (List.not_mem_nil he).elim
    | ok p =>
      obtain ⟨r, fs', dm'⟩ := p
      cases r with
      | none =>
        rw [nextStores, dentries, hread]
        exact iff_of_true (fun s hs => (List.not_mem_nil hs).elim) fun _ e he => (List.not_mem_nil he).elim
      | some e =>
        rw [dentries_entry n hread, nextStores, hread, List.forall_mem_cons]
        dsimp only
        by_cases he : e.order = EMPTY_ENTRY
        · rw [if_pos he, ih (Nat.succ_ne_zero cnt)]
          exact imp_congr_right fun _ => ⟨fun h => ⟨he, h⟩, fun h => h.2⟩
        · rw [if_neg he, if_pos hcnt]
          rw [List.forall_mem_singleton]
          cases null with
          | false => exact iff_of_true rfl fun h => absurd h Bool.false_ne_true
          | true => exact iff_of_false (fun h => Bool.false_ne_true h.symm) fun h => he (h rfl).1

/-- **The stores of the loop** stay inside exactly for the entries that fit. -/
theorem inside_nextStores (n : Nat) :
    (∀ s ∈ nextStores n fs dm off 0 null, s.Inside) ↔ Fits null (dentries n fs dm off) := by
  induction n generalizing fs dm off null with
  | zero => exact iff_of_true (fun s hs => (List.not_mem_nil hs).elim) fits_nil
  | succ n ih =>
    cases hread : readDentry fs dm off with
    | error h =>
      rw [nextStores, dentries, hread]
      exact iff_of_true (fun s hs => (List.not_mem_nil hs).elim) fits_nil
    | ok p =>
      obtain ⟨r, fs', dm'⟩ := p
      cases r with
      | none =>
        rw [nextStores, dentries, hread]
        exact iff_of_true (fun s hs => (List.not_mem_nil hs).elim) fits_nil
      | some e =>
        rw [dentries_entry n hread, nextStores, hread]
        dsimp only
        by_cases he : e.order = EMPTY_ENTRY
        · rw [if_pos he, inside_emptyRun n (Nat.succ_ne_zero 0), fits_empty he]
        · rw [if_neg he, if_neg (not_ne_iff.mpr rfl)]
          by_cases hattr : e.attr = ATTR_LONG_NAME
          · rw [if_pos hattr, forall_append, forall_append, forall_readLong hattr, ih, fits_long he hattr]
            have hmark : (∀ s ∈ (if e.isLast = true then [Target.count null] else []), s.Inside) ↔
                ¬ (null = true ∧ e.isLast = true) := by
              cases e.isLast with
              | false => exact iff_of_true (fun s hs => (List.not_mem_nil hs).elim) fun h => Bool.false_ne_true h.2
              | true =>
                rw [if_pos rfl, List.forall_mem_singleton]
                show null = false ↔ _
                cases null <;> simp
            rw [hmark]
            exact ⟨fun h => ⟨h.1.2, h.1.1, h.2⟩, fun h => ⟨⟨h.2.1, h.1⟩, h.2.2⟩⟩
          · rw [if_neg hattr, forall_append]
            refine iff_of_true ⟨?_, List.forall_mem_singleton.mpr trivial⟩ (fits_short he hattr)
            cases null with
            | false => exact List.forall_mem_cons.mpr ⟨rfl, forall_readShort hattr⟩
            | true => exact fun s hs => (List.not_mem_nil hs).elim

end Stores

/-! ## The turn of the loop, by the entry it reads -/

section Turn

variable {fs fs' : FileSystem} {dm dm' : DirMeta} {off cnt : Nat} {buf : List Byte} {last : Option Nat} {e : Dentry}

/-- A read that fails ends the loop. -/
theorem nextLoop_error (n : Nat) {h : Halt} (hread : readDentry fs dm off = .error h) :
    nextLoop (n + 1) fs dm off buf cnt last = .error h ∧ ∃ e, h = .fat e := by
  unfold readDentry at hread
  rw [nextLoop]
  cases hreloc : relocClus fs dm off false with
  | error e =>
    rw [hreloc] at hread
    cases hread
    exact ⟨rfl, e, rfl⟩
  | ok p =>
    obtain ⟨off2, fs₁, dm₁⟩ := p
    rw [hreloc] at hread
    dsimp only at hread ⊢
    by_cases hoff : off2 = -1
    · rw [if_pos hoff] at hread
      cases hread
    · rw [if_neg hoff] at hread ⊢
      cases hrw : rwClusRead fs₁ dm₁.curClus off2.toNat 32 with
      | error e =>
        rw [hrw] at hread
        cases hread
        exact ⟨rfl, e, rfl⟩
      | ok q =>
        obtain ⟨r, entry⟩ := q
        rw [hrw] at hread
        dsimp only at hread
        split at hread
        · cases hread
        · cases hread

/-- So does the end of the directory. -/
theorem nextLoop_end (n : Nat) (hread : readDentry fs dm off = .ok (none, fs', dm')) :
    nextLoop (n + 1) fs dm off buf cnt last = .ok (.none, buf, fs', dm') := by
  unfold readDentry at hread
  rw [nextLoop]
  cases hreloc : relocClus fs dm off false with
  | error e =>
    rw [hreloc] at hread
    cases hread
  | ok p =>
    obtain ⟨off2, fs₁, dm₁⟩ := p
    rw [hreloc] at hread
    dsimp only at hread ⊢
    by_cases hoff : off2 = -1
    · rw [if_pos hoff] at hread ⊢
      cases hread
      rfl
    · rw [if_neg hoff] at hread ⊢
      cases hrw : rwClusRead fs₁ dm₁.curClus off2.toNat 32 with
      | error e =>
        rw [hrw] at hread
        cases hread
      | ok q =>
        obtain ⟨r, entry⟩ := q
        rw [hrw] at hread
        dsimp only at hread ⊢
        by_cases hend : r ≠ 32 ∨ Dentry.order entry = END_OF_ENTRY
        · rw [if_pos hend] at hread ⊢
          cases hread
          rfl
        · rw [if_neg hend] at hread
          cases hread

/-- What a turn does with an entry. -/
theorem nextLoop_entry (n : Nat) (hread : readDentry fs dm off = .ok (some e, fs', dm')) :
    nextLoop (n + 1) fs dm off buf cnt last =
      if e.order = EMPTY_ENTRY then nextLoop n fs' dm' (Fat.u32 (off + 32)) buf (cnt + 1) last
      else if cnt ≠ 0 then if last.isSome then .error .null else .ok (.empty cnt, buf, fs', dm')
      else if e.attr = ATTR_LONG_NAME then
        if e.order &&& LAST_LONG_ENTRY ≠ 0 ∧ last.isSome then .error .null
        else if e.lcnt = 0 ∨ 20 < e.lcnt then .error .overrun
        else nextLoop n fs' dm' (Fat.u32 (off + 32)) (readLongName buf ((e.lcnt - 1) * CHAR_LONG_NAME) e) cnt
          (if e.order &&& LAST_LONG_ENTRY ≠ 0 then some (e.lcnt + 1) else last)
      else
        match last with
        | some count => .ok (.entry count e, buf, fs', dm')
        | none => .ok (.entry 1 e, readShortName buf e, fs', dm') := by
  unfold readDentry at hread
  rw [nextLoop]
  cases hreloc : relocClus fs dm off false with
  | error e =>
    rw [hreloc] at hread
    cases hread
  | ok p =>
    obtain ⟨off2, fs₁, dm₁⟩ := p
    rw [hreloc] at hread
    dsimp only at hread ⊢
    by_cases hoff : off2 = -1
    · rw [if_pos hoff] at hread
      cases hread
    · rw [if_neg hoff] at hread ⊢
      cases hrw : rwClusRead fs₁ dm₁.curClus off2.toNat 32 with
      | error e =>
        rw [hrw] at hread
        cases hread
      | ok q =>
        obtain ⟨r, entry⟩ := q
        rw [hrw] at hread
        dsimp only at hread ⊢
        by_cases hend : r ≠ 32 ∨ Dentry.order entry = END_OF_ENTRY
        · rw [if_pos hend] at hread
          cases hread
        · rw [if_neg hend] at hread ⊢
          cases hread
          rfl

end Turn

/-! ## The call -/

namespace Tree

/-- **Decoding a directory stores inside `filename`** and never to `*count` through null exactly for the entries
that fit: each number of a long entry is one of 1 to 19, at most one of them has the mark of the last, and no empty
entries inside the directory break off a group that has it. -/
theorem dirMetaNext_inside {t : Tree} {dir off : Nat} (hdir : t.isDir dir = true) (hoff : off % 32 = 0) (n : Nat) :
    (∀ s ∈ t.dirMetaNextStores n dir off, s.Inside) ↔ Fits false (t.dentries n dir off) := by
  have hcheck : ¬ (¬ t.isDir dir ∨ off % 32 ≠ 0) := fun h => h.elim (fun h => h hdir) fun h => h hoff
  have hmemset : ∀ s ∈ storesFrom 0 (FAT32_MAX_FILENAME + 1), s.Inside := by
    rw [forall_storesFrom]
    omega
  unfold Tree.dirMetaNextStores
  rw [if_neg hcheck, forall_append, inside_nextStores n]
  exact and_iff_right hmemset

/-! ## The first entry of a long name -/

/-- The small volume with the entry that a name of 248 characters or more begins with, the twentieth of its long
entries. -/
def longNameFs : FileSystem :=
  { smallFs 4 with
    disk := fun sec i =>
      if sec = 2 ∧ i < 32 then if i = 0 then 0x54 else if i = 11 then 0x0f else 0x61 else smallDisk 4 sec i }

theorem longName_outside : (rootSet longNameFs).isDir (rootOf 0) = true ∧
    Target.filename 258 ∈ (rootSet longNameFs).dirMetaNextStores 1 (rootOf 0) 0 := by
  decide +kernel

/-- The twentieth piece of a long name goes past the end of `filename`. -/
theorem dirMetaNext_leaves_filename : ¬ ∀ (t : Tree) (n dir off : Nat), t.isDir dir = true → off % 32 = 0 →
    ∀ s ∈ t.dirMetaNextStores n dir off, s.Inside := by
  intro h
  obtain ⟨hdir, hmem⟩ := longName_outside
  have hin := h _ 1 _ 0 hdir rfl _ hmem
  exact absurd hin.2 (by decide)

/-- The directory with the name that is too long, read from its start. -/
theorem dirMetaNext_inside_small : (∀ s ∈ (rootSet longNameFs).dirMetaNextStores 1 (rootOf 0) 0, s.Inside) ↔
    Fits false ((rootSet longNameFs).dentries 1 (rootOf 0) 0) :=
  dirMetaNext_inside longName_outside.1 rfl 1

end Tree

end Exaros.Dir
