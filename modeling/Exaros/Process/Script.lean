import Exaros.Process.Replace
import Mathlib.Data.List.GetD

/-!
# Scripts

`loadScript` reads the first 127 bytes of a script into a local array, takes the interpreter and its argument from
the first line, and calls `exec` with a vector that has these in front of the arguments it was called with. Two
things about it: what the line gives, whatever the array held before, and whether the vectors have room.
-/

namespace Exaros.Exec

/-! ## Lists cut at a byte -/

section Cut

variable {α : Type} {p q : α → Bool} {c : α}

theorem dropWhile_stop (hc : p c = false) (xs ys : List α) : (xs ++ c :: ys).dropWhile p = xs.dropWhile p ++ c :: ys := by
  induction xs with
  | nil => rw [List.nil_append, List.dropWhile_cons, hc, if_neg Bool.false_ne_true, List.dropWhile_nil, List.nil_append]
  | cons x xs ih =>
    rw [List.cons_append, List.dropWhile_cons, List.dropWhile_cons]
    split
    · exact ih
    · rfl

theorem takeWhile_stop (hc : p c = false) (xs ys : List α) : (xs ++ c :: ys).takeWhile p = xs.takeWhile p := by
  induction xs with
  | nil => rw [List.nil_append, List.takeWhile_cons, hc, if_neg Bool.false_ne_true, List.takeWhile_nil]
  | cons x xs ih =>
    rw [List.cons_append, List.takeWhile_cons, List.takeWhile_cons]
    split
    · rw [ih]
    · rfl

theorem takeWhile_congr_mem {xs : List α} (h : ∀ x ∈ xs, p x = q x) : xs.takeWhile p = xs.takeWhile q := by
  induction xs with
  | nil => rfl
  | cons x xs ih =>
    rw [List.takeWhile_cons, List.takeWhile_cons, h x List.mem_cons_self, ih fun y hy => h y (List.mem_cons_of_mem _ hy)]

theorem mem_dropWhile_of_not {x : α} (hx : p x = false) {xs : List α} (hmem : x ∈ xs) : x ∈ xs.dropWhile p := by
  have hsplit : x ∈ xs.takeWhile p ++ xs.dropWhile p := by rwa [List.takeWhile_append_dropWhile]
  rcases List.mem_append.mp hsplit with hin | hin
  · rw [List.mem_takeWhile_imp hin] at hx
    cases hx
  · exact hin

end Cut

/-! ## The line -/

/-- What a line names: the path after `#!`, and the rest as one argument, without the blanks around them. -/
def interpreter (line : List UInt8) : List UInt8 × List UInt8 :=
  let cp := ((line.rdropWhile isBlank).drop 2).dropWhile isBlank
  let path := cp.takeWhile fun c => isBlank c = false
  (path, (cp.drop path.length).dropWhile isBlank)

/-- The first line of a file, or its first 127 bytes. -/
def firstLine (file : List UInt8) : List UInt8 := (file.take (BINPRM_BUF_SIZE - 1)).takeWhile (· ≠ 0x0a)

/-- `script_head` after `metaRead` of a file; what it held before stands behind. -/
def scriptHead (file : List UInt8) (stale : Buf) : List UInt8 :=
  (List.range BINPRM_BUF_SIZE).map (fill (file.take (BINPRM_BUF_SIZE - 1)) stale)

/-- The interpreter and the argument that `loadScript` derives. -/
def derived (file : List UInt8) (stale : Buf) : Except Stop (List UInt8 × List UInt8) := scriptLine (scriptHead file stale)

/-- The array that `loadScript` fills at a level. -/
def headOf (env : Env) (level src : Nat) : List UInt8 :=
  (List.range BINPRM_BUF_SIZE).map
    (fill (env.files.metaRead src 0 (BINPRM_BUF_SIZE - 1)) (env.locals level).script_head)

/-- The magic number of a script. -/
def IsScript (file : List UInt8) : Prop := ∃ rest, file = 0x23 :: 0x21 :: rest

/-- The first line ends within the bytes that are read, and has no `NUL`. -/
def LineEnds (file : List UInt8) : Prop :=
  ∃ i < BINPRM_BUF_SIZE - 1, file[i]? = some 0x0a ∧ ∀ j < i, file[j]? ≠ some 0

section Line

variable {file L R : List UInt8} {c : UInt8}

theorem rdropWhile_magic (rest : List UInt8) :
    (0x23 :: 0x21 :: rest).rdropWhile isBlank = 0x23 :: 0x21 :: rest.rdropWhile isBlank := by
  have hblank : isBlank 0x21 = false := rfl
  unfold List.rdropWhile
  rw [List.reverse_cons, List.reverse_cons, List.append_assoc, List.singleton_append, dropWhile_stop hblank, List.reverse_append]
  rfl

/-- **The line up to a newline or `NUL`** gives the interpreter, whatever stands behind. -/
theorem scriptLine_end (hL : ∀ b ∈ L, b ≠ 0x0a ∧ b ≠ 0) (hc : c = 0x0a ∨ c = 0) (hmagic : IsScript L) :
    scriptLine (L ++ c :: R) = .ok (interpreter L) := by
  obtain ⟨rest, hrest⟩ := hmagic
  have hstop : decide (c ≠ 0x0a ∧ c ≠ 0) = false := decide_eq_false fun h => hc.elim h.1 h.2
  have hline : (L ++ c :: R).takeWhile (fun c => decide (c ≠ 0x0a ∧ c ≠ 0)) = L := by
    rw [takeWhile_stop (p := fun c : UInt8 => decide (c ≠ 0x0a ∧ c ≠ 0)) hstop]
    exact List.takeWhile_eq_self_iff.mpr fun b hb => decide_eq_true (hL b hb)
  have hne : L.length ≠ (L ++ c :: R).length := by
    rw [List.length_append, List.length_cons]
    omega
  -- the cut line, and the zeros behind it
  obtain ⟨X, hX⟩ : ∃ X, rest.rdropWhile isBlank = X := ⟨_, rfl⟩
  have hcut : L.rdropWhile isBlank = 0x23 :: 0x21 :: X := by rw [hrest, rdropWhile_magic, hX]
  have hsub : ∀ b ∈ X, b ≠ 0 := fun b hb => by
    have hpre : L.rdropWhile isBlank <+: L := List.rdropWhile_prefix isBlank L
    rw [hcut] at hpre
    exact (hL b (hpre.subset (List.mem_cons_of_mem _ (List.mem_cons_of_mem _ hb)))).2
  have hlen : (0x23 :: 0x21 :: X).length ≤ L.length := by
    rw [← hcut]
    exact (List.rdropWhile_prefix isBlank L).length_le
  obtain ⟨T, hT⟩ : ∃ T, (0x23 :: 0x21 :: X) ++ List.replicate (L.length + 1 - (0x23 :: 0x21 :: X).length) 0 ++
      (L ++ c :: R).drop (L.length + 1) = 0x23 :: 0x21 :: (X ++ 0 :: T) := by
    refine ⟨List.replicate (L.length - (0x23 :: 0x21 :: X).length) 0 ++ (L ++ c :: R).drop (L.length + 1), ?_⟩
    rw [show L.length + 1 - (0x23 :: 0x21 :: X).length = L.length - (0x23 :: 0x21 :: X).length + 1 by omega, List.replicate_succ,
      List.append_assoc]
    rfl
  have hblank : isBlank 0 = false := rfl
  obtain ⟨Y, hY⟩ : ∃ Y, X.dropWhile isBlank = Y := ⟨_, rfl⟩
  have hYne : ∀ b ∈ Y, b ≠ 0 := fun b hb => hsub b ((List.dropWhile_sublist isBlank).subset (hY ▸ hb))
  have hpath : Y.takeWhile (fun c => decide (c ≠ 0 ∧ isBlank c = false)) = Y.takeWhile fun c => decide (isBlank c = false) :=
    takeWhile_congr_mem fun b hb => decide_eq_decide.mpr ⟨fun h => h.2, fun h => ⟨hYne b hb, h⟩⟩
  unfold scriptLine interpreter
  dsimp only
  rw [hline, if_neg hne, hcut, hT]
  simp only [List.drop_succ_cons, List.drop_zero]
  rw [dropWhile_stop hblank, hY, takeWhile_stop (p := fun c : UInt8 => decide (c ≠ 0 ∧ isBlank c = false)) rfl, hpath]
  obtain ⟨P, hP⟩ : ∃ P, (Y.takeWhile fun c => decide (isBlank c = false)) = P := ⟨_, rfl⟩
  have hPlen : P.length ≤ Y.length := by
    rw [← hP]
    exact (List.takeWhile_sublist _).length_le
  rw [hP, List.drop_append_of_le_length hPlen, dropWhile_stop hblank]
  obtain ⟨A, hA⟩ : ∃ A, (Y.drop P.length).dropWhile isBlank = A := ⟨_, rfl⟩
  have hall : A.takeWhile (fun c => decide (c ≠ 0)) = A := List.takeWhile_eq_self_iff.mpr fun b hb => decide_eq_true <|
    hYne b ((List.drop_sublist _ _).subset ((List.dropWhile_sublist isBlank).subset (hA ▸ hb)))
  rw [hA, takeWhile_stop (p := fun c : UInt8 => decide (c ≠ 0)) rfl, hall, if_neg]
  rw [List.length_append, List.length_cons]
  omega

/-- With neither in it the scan leaves the array. -/
theorem scriptLine_overrun {head : List UInt8} (h : ∀ b ∈ head, b ≠ 0x0a ∧ b ≠ 0) : scriptLine head = .error .overrun := by
  have hline : head.takeWhile (fun c => decide (c ≠ 0x0a ∧ c ≠ 0)) = head :=
    List.takeWhile_eq_self_iff.mpr fun b hb => decide_eq_true (h b hb)
  unfold scriptLine
  rw [hline, if_pos rfl]

/-- What `metaRead` delivers, and stale bytes: at least one. -/
theorem scriptHead_eq (file : List UInt8) (stale : Buf) : ∃ n, 0 < n ∧ scriptHead file stale = file.take (BINPRM_BUF_SIZE - 1) ++
    (List.range n).map fun i => stale ((file.take (BINPRM_BUF_SIZE - 1)).length + i) := by
  have hle : (file.take (BINPRM_BUF_SIZE - 1)).length ≤ BINPRM_BUF_SIZE - 1 := List.length_take_le _ _
  have hsize : BINPRM_BUF_SIZE = 128 := rfl
  unfold scriptHead
  generalize file.take (BINPRM_BUF_SIZE - 1) = head at hle ⊢
  refine ⟨BINPRM_BUF_SIZE - head.length, by omega, ?_⟩
  have hfirst : (List.range head.length).map (fill head stale) = head := by
    refine List.ext_getElem (by rw [List.length_map, List.length_range]) fun i hi hi' => ?_
    rw [List.getElem_map, List.getElem_range]
    exact List.getD_eq_getElem _ _ hi'
  have hsplit : List.range BINPRM_BUF_SIZE = List.range (head.length + (BINPRM_BUF_SIZE - head.length)) := by
    rw [show head.length + (BINPRM_BUF_SIZE - head.length) = BINPRM_BUF_SIZE by omega]
  rw [hsplit, List.range_add, List.map_append, hfirst, List.map_map]
  refine congrArg (head ++ ·) (List.map_congr_left fun i _ => ?_)
  exact List.getD_eq_default _ _ (Nat.le_add_right _ _)

/-- The first byte that ends the scan, if the bytes read have one. -/
theorem exists_end (head : List UInt8) : (∀ b ∈ head, b ≠ 0x0a ∧ b ≠ 0) ∨
    ∃ L c R, head = L ++ c :: R ∧ (∀ b ∈ L, b ≠ 0x0a ∧ b ≠ 0) ∧ (c = 0x0a ∨ c = 0) := by
  induction head with
  | nil => exact .inl fun b hb => (List.not_mem_nil hb).elim
  | cons b head ih =>
    by_cases hb : b = 0x0a ∨ b = 0
    · exact .inr ⟨[], b, head, rfl, fun b hb => (List.not_mem_nil hb).elim, hb⟩
    · rw [not_or] at hb
      rcases ih with hall | ⟨L, c, R, rfl, hL, hc⟩
      · exact .inl fun x hx => (List.mem_cons.mp hx).elim (fun h => h ▸ hb) (hall x)
      · exact .inr ⟨b :: L, c, R, rfl, fun x hx => (List.mem_cons.mp hx).elim (fun h => h ▸ hb) (hL x), hc⟩

/-- A `NUL` behind the magic is in the path or in the argument. -/
theorem zero_mem_interpreter (hmagic : IsScript L) (h0 : (0 : UInt8) ∈ L) :
    (0 : UInt8) ∈ (interpreter L).1 ∨ (0 : UInt8) ∈ (interpreter L).2 := by
  obtain ⟨rest, rfl⟩ := hmagic
  have hblank : isBlank 0 = false := rfl
  have hrest : (0 : UInt8) ∈ rest := by
    rcases List.mem_cons.mp h0 with h | h
    · cases h
    · rcases List.mem_cons.mp h with h | h
      · cases h
      · exact h
  have hcut : (0 : UInt8) ∈ rest.rdropWhile isBlank := by
    exact List.mem_reverse.mpr (mem_dropWhile_of_not hblank (List.mem_reverse.mpr hrest))
  unfold interpreter
  rw [rdropWhile_magic]
  simp only [List.drop_succ_cons, List.drop_zero]
  obtain ⟨Y, hY⟩ : ∃ Y, (rest.rdropWhile isBlank).dropWhile isBlank = Y := ⟨_, rfl⟩
  have hin : (0 : UInt8) ∈ Y := hY ▸ mem_dropWhile_of_not hblank hcut
  rw [hY]
  obtain ⟨P, hP⟩ : ∃ P, (Y.takeWhile fun c => decide (isBlank c = false)) = P := ⟨_, rfl⟩
  have hpre : P ++ Y.drop P.length = Y := by
    rw [← hP]
    exact (List.prefix_append_drop (List.takeWhile_prefix _)).symm
  rw [hP]
  rw [← hpre] at hin
  exact (List.mem_append.mp hin).imp_right (mem_dropWhile_of_not hblank)

theorem not_zero_mem_interpreter (h0 : (0 : UInt8) ∉ L) : (0 : UInt8) ∉ (interpreter L).1 ∧ (0 : UInt8) ∉ (interpreter L).2 := by
  have hsub : ∀ b ∈ ((L.rdropWhile isBlank).drop 2).dropWhile isBlank, b ∈ L := fun b hb =>
    (List.rdropWhile_prefix isBlank L).subset ((List.drop_sublist _ _).subset ((List.dropWhile_sublist isBlank).subset hb))
  exact ⟨fun h => h0 (hsub 0 ((List.takeWhile_sublist _).subset h)),
    fun h => h0 (hsub 0 ((List.drop_sublist _ _).subset ((List.dropWhile_sublist isBlank).subset h)))⟩

theorem firstLine_of_end (h : file.take (BINPRM_BUF_SIZE - 1) = L ++ c :: R) (hL : ∀ b ∈ L, b ≠ 0x0a ∧ b ≠ 0) :
    firstLine file = L ++ (c :: R).takeWhile (· ≠ 0x0a) := by
  unfold firstLine
  rw [h]
  exact List.takeWhile_append_of_pos fun b hb => decide_eq_true (hL b hb).1

theorem isScript_of_append (h : file.take (BINPRM_BUF_SIZE - 1) = L ++ c :: R) (hc : c = 0x0a ∨ c = 0) (hmagic : IsScript file) :
    IsScript L := by
  obtain ⟨rest, rfl⟩ := hmagic
  have htake : (0x23 :: 0x21 :: rest).take (BINPRM_BUF_SIZE - 1) = 0x23 :: 0x21 :: rest.take (BINPRM_BUF_SIZE - 3) := rfl
  rw [htake] at h
  cases L with
  | nil =>
    have hhead := (List.cons.inj h).1
    rw [← hhead] at hc
    exact absurd hc (by decide)
  | cons a L =>
    obtain ⟨ha, htail⟩ := List.cons.inj h
    cases L with
    | nil =>
      have hhead := (List.cons.inj htail).1
      rw [← hhead] at hc
      exact absurd hc (by decide)
    | cons b L =>
      have hb := (List.cons.inj htail).1
      exact ⟨L, by rw [← ha, ← hb]⟩

/-- **What `loadScript` derives** is what the file says, whatever its buffer held before, exactly if the first line ends
within the bytes that are read and has no `NUL`. -/
theorem derived_iff (hmagic : IsScript file) :
    (∀ stale, derived file stale = .ok (interpreter (firstLine file))) ↔ LineEnds file := by
  rcases exists_end (file.take (BINPRM_BUF_SIZE - 1)) with hall | ⟨L, c, R, hsplit, hL, hc⟩
  · -- no end: with other bytes in the buffer the scan leaves it
    refine iff_of_false (fun h => ?_) fun h => ?_
    · have hbad := h fun _ => 0x78
      obtain ⟨n, -, heq⟩ := scriptHead_eq file fun _ => 0x78
      unfold derived at hbad
      rw [heq, scriptLine_overrun fun b hb => ?_] at hbad
      · cases hbad
      · rcases List.mem_append.mp hb with hb | hb
        · exact hall b hb
        · obtain ⟨i, -, rfl⟩ := List.mem_map.mp hb
          exact ⟨by decide, by decide⟩
    · obtain ⟨i, hi, hnl, -⟩ := h
      have hmem : (0x0a : UInt8) ∈ file.take (BINPRM_BUF_SIZE - 1) :=
        List.mem_iff_getElem?.mpr ⟨i, (List.getElem?_take_of_lt hi).trans hnl⟩
      exact (hall _ hmem).1 rfl
  · have hderived : ∀ stale, derived file stale = .ok (interpreter L) := fun stale => by
      obtain ⟨n, -, heq⟩ := scriptHead_eq file stale
      unfold derived
      rw [heq, hsplit, List.append_assoc, List.cons_append]
      exact scriptLine_end hL hc (isScript_of_append hsplit hc hmagic)
    have hline := firstLine_of_end hsplit hL
    have hat : ∀ i < (L ++ c :: R).length, file[i]? = (L ++ c :: R)[i]? := fun i hi => by
      rw [← hsplit] at hi ⊢
      exact (List.getElem?_take_of_lt (lt_of_lt_of_le hi (List.length_take_le _ _))).symm
    have hlen : L.length < (L ++ c :: R).length := by
      rw [List.length_append, List.length_cons]
      omega
    have hlen' : (L ++ c :: R).length ≤ BINPRM_BUF_SIZE - 1 := hsplit ▸ List.length_take_le _ _
    have hbefore : ∀ j < L.length, ∃ b ∈ L, file[j]? = some b := fun j hj =>
      ⟨L[j], List.getElem_mem hj, by rw [hat j (by omega), List.getElem?_append_left hj, List.getElem?_eq_getElem hj]⟩
    have hend : file[L.length]? = some c := by
      rw [hat _ hlen, List.getElem?_append_right (Nat.le_refl _), Nat.sub_self]
      rfl
    by_cases hnl : c = 0x0a
    · subst hnl
      have hfirst : firstLine file = L := by
        rw [hline, List.takeWhile_cons_of_neg (by decide), List.append_nil]
      refine iff_of_true (fun stale => by rw [hderived, hfirst]) ⟨L.length, by omega, hend, fun j hj h0 => ?_⟩
      obtain ⟨b, hb, hbj⟩ := hbefore j hj
      rw [hbj] at h0
      exact (hL b hb).2 (Option.some.inj h0)
    · -- a `NUL`: the code stops there, the line goes on
      have hz : c = 0 := hc.resolve_left hnl
      subst hz
      refine iff_of_false (fun h => ?_) fun h => ?_
      · have heq := (hderived fun _ => 0).symm.trans (h fun _ => 0)
        have hL0 : (0 : UInt8) ∉ L := fun hmem => (hL 0 hmem).2 rfl
        have hin : (0 : UInt8) ∈ firstLine file := by
          rw [hline, List.takeWhile_cons_of_pos (by decide)]
          exact List.mem_append_right L List.mem_cons_self
        have hmagic' : IsScript (firstLine file) := by
          obtain ⟨rest, rfl⟩ := isScript_of_append hsplit hc hmagic
          exact ⟨_, hline⟩
        obtain ⟨hno1, hno2⟩ := not_zero_mem_interpreter hL0
        rw [Except.ok.inj heq] at hno1 hno2
        exact (zero_mem_interpreter hmagic' hin).elim hno1 hno2
      · obtain ⟨i, -, hi, hno⟩ := h
        rcases Nat.lt_trichotomy i L.length with hlt | rfl | hgt
        · obtain ⟨b, hb, hbj⟩ := hbefore i hlt
          rw [hbj] at hi
          exact (hL b hb).1 (Option.some.inj hi)
        · rw [hend] at hi
          exact hnl (Option.some.inj hi)
        · exact hno _ hgt hend

end Line

/-- A script of four bytes, in a buffer that held other characters. -/
theorem derived_stale : ¬ ∀ file : List UInt8, IsScript file → ∀ stale, derived file stale = .ok (interpreter (firstLine file)) := by
  intro h
  have hbad := h (bytes ['#', '!', '/', 'x']) ⟨bytes ['/', 'x'], rfl⟩ fun i => if i < 127 then 0x79 else 0
  exact absurd hbad (by decide +kernel)

/-- The line ends within the buffer, so that what is stale behind it does not matter. -/
theorem derived_iff_newline : (∀ stale, derived (bytes ['#', '!', '/', 'e', '\n']) stale =
      .ok (interpreter (firstLine (bytes ['#', '!', '/', 'e', '\n'])))) ↔ LineEnds (bytes ['#', '!', '/', 'e', '\n']) :=
  derived_iff ⟨bytes ['/', 'e', '\n'], rfl⟩

/-! ## The vectors -/

/-- `char *x[MAX_ARG]` while it is filled: the slots, how many arguments are in it, and which slots were stored to. -/
structure Args where
  slots : Nat → Option (List UInt8)
  argc : Nat
  stores : List Nat

namespace Args

/-- `x[argc++] = s` -/
def put (a : Args) (s : List UInt8) : Args :=
  { slots := fun i => if i = a.argc then some s else a.slots i, argc := a.argc + 1, stores := a.stores ++ [a.argc] }

/-- `x[argc] = NULL` -/
def close (a : Args) : Args :=
  { a with slots := fun i => if i = a.argc then none else a.slots i, stores := a.stores ++ [a.argc] }

/-- Every store is to a slot, and one of the slots is the terminator. -/
def Good (a : Args) : Prop := (∀ i ∈ a.stores, i < MAX_ARG) ∧ ∃ i < MAX_ARG, a.slots i = none

/-- `{"./busybox", "sh"}` -/
def busybox : Args :=
  { slots := fun i => if i = 0 then some DOT_BUSYBOX else if i = 1 then some SH else none, argc := 2, stores := [] }

/-- `{0}` -/
def zero : Args := { slots := fun _ => none, argc := 0, stores := [] }

end Args

/-- The interpreter that is called, by its path in the script. -/
def interpPath (path : List UInt8) : List UInt8 :=
  if BIN_SH.isPrefixOf path then BUSYBOX else if BIN_BUSYBOX.isPrefixOf path then BUSYBOX else path

/-- The vector that `loadScript` makes of the path and the argument in the script and of the arguments it was called with. -/
def scriptArgs (path arg : List UInt8) (argv : List (List UInt8)) : Args :=
  if BIN_SH.isPrefixOf path then (argv.foldl Args.put Args.busybox).close
  else
    let first := Args.zero.put (interpPath path)
    argv.foldl Args.put (if arg = [] then first else first.put arg)

/-- How many arguments the line of a script adds. -/
def added (path arg : List UInt8) : Nat := if BIN_SH.isPrefixOf path then 2 else if arg = [] then 1 else 2

/-- The arguments in front. -/
def prepended (path arg : List UInt8) : List (List UInt8) :=
  if BIN_SH.isPrefixOf path then [DOT_BUSYBOX, SH] else interpPath path :: (if arg = [] then [] else [arg])

section Vector

variable {path arg : List UInt8} {argv pre : List (List UInt8)} {a : Args}

/-- The vector holds `argv`, its slots behind are null, and `n` of its slots were set by the initialiser. -/
structure Args.Holds (a : Args) (argv : List (List UInt8)) (n : Nat) : Prop where
  slots : ∀ i, a.slots i = argv[i]?
  argc : a.argc = argv.length
  stores : ∀ i, i ∈ a.stores ↔ n ≤ i ∧ i < argv.length

theorem Args.Holds.put {n : Nat} (h : a.Holds argv n) (hn : n ≤ argv.length) (s : List UInt8) : (a.put s).Holds (argv ++ [s]) n := by
  have hargc := h.argc
  refine ⟨fun i => ?_, ?_, fun i => ?_⟩
  · show (if i = a.argc then some s else a.slots i) = _
    rw [hargc, List.getElem?_append]
    by_cases hi : i = argv.length
    · rw [if_pos hi, if_neg (by omega), hi, Nat.sub_self]
      rfl
    · rw [if_neg hi, h.slots]
      by_cases hlt : i < argv.length
      · rw [if_pos hlt]
      · rw [if_neg hlt, List.getElem?_eq_none (Nat.le_of_not_lt hlt), List.getElem?_eq_none (by rw [List.length_singleton]; omega)]
  · show a.argc + 1 = _
    rw [hargc, List.length_append, List.length_singleton]
  · show i ∈ a.stores ++ [a.argc] ↔ _
    rw [List.mem_append, h.stores, List.mem_singleton, hargc, List.length_append, List.length_singleton]
    omega

/-- The loop that copies `argv`. -/
theorem Args.Holds.foldl {n : Nat} (argv : List (List UInt8)) (h : a.Holds pre n) (hn : n ≤ pre.length) : (argv.foldl Args.put a).Holds (pre ++ argv) n := by
  induction argv generalizing a pre with
  | nil => rwa [List.append_nil]
  | cons s argv ih =>
    have hnext := ih (h.put hn s) (by rw [List.length_append]; omega)
    rwa [List.append_assoc] at hnext

theorem holds_busybox : Args.busybox.Holds [DOT_BUSYBOX, SH] 2 := by
  refine ⟨fun i => ?_, rfl, fun i => ?_⟩
  · show (if i = 0 then some DOT_BUSYBOX else if i = 1 then some SH else none) = _
    rcases i with _ | _ | i
    · rfl
    · rfl
    · rw [if_neg (by omega), if_neg (by omega), List.getElem?_eq_none (by simp)]
  · refine iff_of_false List.not_mem_nil fun h => ?_
    have : i < 2 := h.2
    omega

theorem holds_zero : Args.zero.Holds [] 0 :=
  ⟨fun _ => rfl, rfl, fun i => iff_of_false List.not_mem_nil fun h => Nat.not_lt_zero i h.2⟩

/-- What the vector is, in either case. -/
theorem scriptArgs_slots (i : Nat) : (scriptArgs path arg argv).slots i = (prepended path arg ++ argv)[i]? := by
  unfold scriptArgs prepended
  by_cases hsh : BIN_SH.isPrefixOf path
  · have h := holds_busybox.foldl argv (Nat.le_refl 2)
    rw [if_pos hsh, if_pos hsh]
    show (if i = _ then none else _) = _
    by_cases hi : i = (argv.foldl Args.put Args.busybox).argc
    · rw [if_pos hi, List.getElem?_eq_none (by rw [hi, h.argc])]
    · rw [if_neg hi]
      exact h.slots i
  · rw [if_neg hsh, if_neg hsh]
    have hfirst := holds_zero.put (Nat.le_refl 0) (interpPath path)
    by_cases harg : arg = []
    · have h := hfirst.foldl argv (Nat.zero_le _)
      dsimp only
      rw [if_pos harg, if_pos harg]
      exact h.slots i
    · have h := (hfirst.put (Nat.zero_le _) arg).foldl argv (Nat.zero_le _)
      dsimp only
      rw [if_neg harg, if_neg harg]
      exact h.slots i

theorem prepended_length (path arg : List UInt8) : (prepended path arg).length = added path arg := by
  unfold prepended added
  by_cases hsh : BIN_SH.isPrefixOf path
  · rw [if_pos hsh, if_pos hsh]
    rfl
  · rw [if_neg hsh, if_neg hsh]
    split <;> rfl

/-- Every store is to one of the arguments, or for `/bin/sh` to the terminator behind them. -/
theorem scriptArgs_stores {i : Nat} (hi : i ∈ (scriptArgs path arg argv).stores) : i ≤ added path arg + argv.length := by
  unfold scriptArgs at hi
  unfold added
  by_cases hsh : BIN_SH.isPrefixOf path
  · have h := holds_busybox.foldl argv (Nat.le_refl 2)
    rw [if_pos hsh] at hi ⊢
    rcases List.mem_append.mp hi with hi | hi
    · have hlt := ((h.stores i).mp hi).2
      rw [List.length_append] at hlt
      exact Nat.le_of_lt hlt
    · rw [List.mem_singleton.mp hi, h.argc, List.length_append]
      exact Nat.le_refl _
  · rw [if_neg hsh] at hi ⊢
    have hfirst := holds_zero.put (Nat.le_refl 0) (interpPath path)
    by_cases harg : arg = []
    · have h := hfirst.foldl argv (Nat.zero_le _)
      dsimp only at hi
      rw [if_pos harg] at hi ⊢
      have hlt := ((h.stores i).mp hi).2
      rw [List.length_append] at hlt
      exact Nat.le_of_lt hlt
    · have h := (hfirst.put (Nat.zero_le _) arg).foldl argv (Nat.zero_le _)
      dsimp only at hi
      rw [if_neg harg] at hi ⊢
      have hlt := ((h.stores i).mp hi).2
      rw [List.length_append] at hlt
      exact Nat.le_of_lt hlt

/-- **The vector has room** exactly for fewer than `MAX_ARG` arguments. -/
theorem scriptArgs_good : (scriptArgs path arg argv).Good ↔ argv.length + added path arg < MAX_ARG := by
  constructor
  · rintro ⟨-, i, hi, hnone⟩
    rw [scriptArgs_slots, List.getElem?_eq_none_iff, List.length_append, prepended_length] at hnone
    omega
  · intro h
    refine ⟨fun i hi => ?_, argv.length + added path arg, h, ?_⟩
    · have := scriptArgs_stores hi
      omega
    · rw [scriptArgs_slots, List.getElem?_eq_none_iff, List.length_append, prepended_length]
      omega

/-- **What `loadScript` calls `exec` with**: the interpreter of the line in its array and the vector of `scriptArgs`, if
that has room for the null pointer. -/
theorem loadScript_ok_iff {env : Env} {level src : Nat} {path' : List UInt8} {argv' : List (List UInt8)} :
    loadScript env level src argv = .ok (path', argv') ↔ ∃ path arg, scriptLine (headOf env level src) = .ok (path, arg) ∧
      (scriptArgs path arg argv).Good ∧ path' = interpPath path ∧ argv' = prepended path arg ++ argv := by
  cases hline : scriptLine (headOf env level src) with
  | error e =>
    refine iff_of_false (fun h => ?_) fun ⟨_, _, h, _⟩ => by cases h
    obtain ⟨_, hok, -⟩ := Loop.bind_ok (show (scriptLine (headOf env level src)).bind _ = _ from h)
    rw [hline] at hok
    cases hok
  | ok line =>
    obtain ⟨path, arg⟩ := line
    have hcall : loadScript env level src argv = (scriptArgv (prepended path arg ++ argv)).map (interpPath path, ·) := by
      unfold loadScript prepended interpPath
      show (scriptLine (headOf env level src)).bind _ = _
      rw [hline]
      show (if BIN_SH.isPrefixOf path then _ else _) = _
      by_cases hsh : BIN_SH.isPrefixOf path
      · rw [if_pos hsh, if_pos hsh, if_pos hsh]
        rfl
      · rw [if_neg hsh, if_neg hsh, if_neg hsh]
        rfl
    rw [hcall]
    have hlen : (prepended path arg ++ argv).length = argv.length + added path arg := by
      rw [List.length_append, prepended_length, Nat.add_comm]
    unfold scriptArgv
    constructor
    · intro h
      split at h
      · rename_i hroom
        cases h
        exact ⟨path, arg, rfl, scriptArgs_good.mpr (hlen ▸ hroom), rfl, rfl⟩
      · cases h
    · rintro ⟨_, _, heq, hgood, rfl, rfl⟩
      cases heq
      rw [if_pos (hlen ▸ scriptArgs_good.mp hgood)]
      rfl

end Vector

/-- The array is what `derived` takes its line from, where `metaRead` delivers the first bytes of the file. -/
theorem scriptLine_headOf {env : Env} {level src : Nat} {file : List UInt8}
    (h : env.files.metaRead src 0 (BINPRM_BUF_SIZE - 1) = file.take (BINPRM_BUF_SIZE - 1)) :
    scriptLine (headOf env level src) = derived file (env.locals level).script_head := by
  unfold derived headOf scriptHead
  rw [h]

/-! ## The levels of interpretation -/

/-- What one level of `exec` finds that is no ELF file: a script, whose line adds arguments, or an unknown format. -/
inductive Level where
  | script (added : Nat)
  | unknown
deriving DecidableEq

/-- How many arguments the next level is called with; a file of an unknown format is run as `./busybox sh path`. -/
def Level.count (argc : Nat) : Level → Nat
  | .script added => argc + added
  | .unknown => 3

/-- The vectors that the calls of `loadScript` under `exec(path, argv)` make, for `n` levels. -/
def scriptCalls (env : Env) : Nat → List UInt8 → List (List UInt8) → List Args
  | 0, _, _ => []
  | level + 1, path, argv =>
    match env.files.metaName path with
    | none => []
    | some src =>
      if isScriptFormat (header env level src) then
        match scriptLine (headOf env level src) with
        | .error _ => []
        | .ok (interp, arg) =>
          scriptArgs interp arg argv :: scriptCalls env level (interpPath interp) (prepended interp arg ++ argv)
      else if isElfFormat (header env level src) = false then scriptCalls env level BUSYBOX [DOT_BUSYBOX, SH, path]
      else []

/-- The levels that `exec(path, ...)` goes through, as far as `n`. -/
def levels (env : Env) : Nat → List UInt8 → List Level
  | 0, _ => []
  | level + 1, path =>
    match env.files.metaName path with
    | none => []
    | some src =>
      if isScriptFormat (header env level src) then
        match scriptLine (headOf env level src) with
        | .error _ => []
        | .ok (interp, arg) => .script (added interp arg) :: levels env level (interpPath interp)
      else if isElfFormat (header env level src) = false then .unknown :: levels env level BUSYBOX
      else []

/-- At no script do the arguments it is called with and those its line adds fill the slots. -/
def Bounded (argc : Nat) (ls : List Level) : Prop :=
  ∀ above k, above ++ [.script k] <+: ls → above.foldl Level.count argc + k < MAX_ARG

section Levels

variable {env : Env} {path : List UInt8} {argv : List (List UInt8)} {argc : Nat} {l : Level} {ls : List Level}

theorem bounded_nil : Bounded argc [] := fun above k h => by
  have hnil := List.prefix_nil.mp h
  exact absurd hnil (List.append_ne_nil_of_right_ne_nil above (List.cons_ne_nil _ _))

theorem bounded_cons : Bounded argc (l :: ls) ↔ (∀ k, l = .script k → argc + k < MAX_ARG) ∧ Bounded (Level.count argc l) ls := by
  constructor
  · intro h
    refine ⟨fun k hl => h [] k ?_, fun above k hk => h (l :: above) k ?_⟩
    · rw [hl]
      exact List.prefix_append [Level.script k] ls
    · rw [List.cons_append]
      exact List.cons_prefix_cons.mpr ⟨rfl, hk⟩
  · rintro ⟨hfirst, hrest⟩ above k hk
    cases above with
    | nil =>
      obtain ⟨hl, -⟩ := List.cons_prefix_cons.mp hk
      exact hfirst k hl.symm
    | cons l' above =>
      rw [List.cons_append] at hk
      obtain ⟨hl, htail⟩ := List.cons_prefix_cons.mp hk
      rw [hl]
      exact hrest above k htail

/-- The vectors follow `exec`: where it finds a script and goes on, the first is the one it goes on with. -/
theorem scriptCalls_script {level src : Nat} {path' : List UInt8} {argv' : List (List UInt8)}
    (hname : env.files.metaName path = some src) (hscript : isScriptFormat (header env level src) = true)
    (hload : loadScript env level src argv = .ok (path', argv')) :
    ∃ a : Args, (∀ i, a.slots i = argv'[i]?) ∧ scriptCalls env (level + 1) path argv = a :: scriptCalls env level path' argv' := by
  obtain ⟨interp, arg, hline, -, rfl, rfl⟩ := loadScript_ok_iff.mp hload
  refine ⟨scriptArgs interp arg argv, scriptArgs_slots, ?_⟩
  rw [scriptCalls, hname]
  dsimp only
  rw [if_pos hscript, hline]

/-- **The vectors of scripts stay in bounds** and end with a null pointer exactly if at each script on the way the
arguments of the call and those of the line are fewer than `MAX_ARG`. -/
theorem scriptCalls_good (n : Nat) : (∀ a ∈ scriptCalls env n path argv, a.Good) ↔ Bounded argv.length (levels env n path) := by
  induction n generalizing path argv with
  | zero => exact iff_of_true (fun a ha => (List.not_mem_nil ha).elim) bounded_nil
  | succ level ih =>
    rw [scriptCalls, levels]
    cases hname : env.files.metaName path with
    | none => exact iff_of_true (fun a ha => (List.not_mem_nil ha).elim) bounded_nil
    | some src =>
      dsimp only
      by_cases hscript : isScriptFormat (header env level src) = true
      · rw [if_pos hscript, if_pos hscript]
        cases hline : scriptLine (headOf env level src) with
        | error e => exact iff_of_true (fun a ha => (List.not_mem_nil ha).elim) bounded_nil
        | ok p =>
          obtain ⟨interp, arg⟩ := p
          have hcount : (prepended interp arg ++ argv).length = Level.count argv.length (.script (added interp arg)) := by
            rw [List.length_append, prepended_length, Nat.add_comm]
            rfl
          rw [List.forall_mem_cons, scriptArgs_good, ih, bounded_cons, hcount]
          refine and_congr_left fun _ => ⟨fun h k hk => ?_, fun h => h _ rfl⟩
          cases hk
          exact h
      · rw [if_neg hscript, if_neg hscript]
        by_cases helf : isElfFormat (header env level src) = false
        · rw [if_pos helf, if_pos helf, ih, bounded_cons]
          exact (and_iff_right fun k hk => by cases hk).symm
        · rw [if_neg helf, if_neg helf]
          exact iff_of_true (fun a ha => (List.not_mem_nil ha).elim) bounded_nil

end Levels

/-- With 31 arguments, as many as `syscallExec` accepts, a script has no slot left for the null pointer. -/
theorem scriptCalls_overrun : ¬ ∀ (env : Env) (n : Nat) (path : List UInt8) (argv : List (List UInt8)), argv.length < MAX_ARG →
    ∀ a ∈ scriptCalls env n path argv, a.Good := by
  intro h
  have hlen : (List.replicate 31 (bytes ['a'])).length < MAX_ARG := by decide
  have hin : scriptArgs (bytes ['/', 'e']) [] (List.replicate 31 (bytes ['a'])) ∈
      scriptCalls (scriptEnv true) 1 (bytes ['/', 's']) (List.replicate 31 (bytes ['a'])) := by
    have hname : (scriptEnv true).files.metaName (bytes ['/', 's']) = some 0 := by decide +kernel
    have hscript : isScriptFormat (header (scriptEnv true) 0 0) = true := by decide +kernel
    have hline : scriptLine (headOf (scriptEnv true) 0 0) = .ok (bytes ['/', 'e'], []) := by decide +kernel
    rw [scriptCalls, hname]
    dsimp only
    rw [if_pos hscript, hline]
    exact List.mem_cons_self
  have hgood := h (scriptEnv true) 1 _ _ hlen _ hin
  rw [scriptArgs_good] at hgood
  exact absurd hgood (by decide)

end Exaros.Exec
