import Exaros.Shell.Commands

/-!
# The lines the shell can parse

A grammar of lines, and that the tokenizer and the command builder stay within the line and its tokens exactly on its
sentences: no quote is left open, no operator stands at the very end, and no redirection is the last token.

**What it does not establish.** What the commands do.
-/

namespace Exaros.Shell

/-- The bytes a word goes on with. -/
def bare (c : UInt8) : Bool := c ≠ SPACE && c ≠ GT && c ≠ LT && c ≠ BAR

variable {c : UInt8} {l : List UInt8} {q : UInt8} {owed : Bool} {ts : List TokenType}

theorem bare_iff : bare c = true ↔ c ≠ SPACE ∧ c ≠ GT ∧ c ≠ LT ∧ c ≠ BAR := by
  simp [bare, and_assoc]

inductive Operator
  | pipe | input | output | append
  deriving DecidableEq

namespace Operator

def bytes : Operator → List UInt8
  | pipe => [BAR]
  | input => [LT]
  | output => [GT]
  | append => [GT, GT]

/-- Whether the token behind it is its file. -/
def redirects : Operator → Bool
  | pipe => false
  | _ => true

end Operator

/-- A line from where no word has begun; `owed`: a redirection has had no token yet. A word goes on to the next blank
or operator, quotes and all; behind an operator it may begin with any byte. -/
inductive Sentence : Bool → List UInt8 → Prop
  | done : Sentence false []
  | space {owed : Bool} {l : List UInt8} : Sentence owed l → Sentence owed (SPACE :: l)
  | quoted {owed : Bool} {q : UInt8} {s l : List UInt8} : q = SINGLE ∨ q = DOUBLE → q ∉ s → Sentence false l →
      Sentence owed (q :: (s ++ q :: l))
  | word {owed : Bool} {c : UInt8} {l : List UInt8} : bare c → c ≠ SINGLE → c ≠ DOUBLE →
      Sentence false (l.dropWhile bare) → Sentence owed (c :: l)
  | spaced {owed : Bool} {l : List UInt8} (op : Operator) : Sentence (op.redirects && !owed) l →
      Sentence owed (op.bytes ++ SPACE :: l)
  | joined {owed : Bool} {c : UInt8} {l : List UInt8} (op : Operator) : c ≠ SPACE → (op = .output → c ≠ GT) →
      Sentence false (l.dropWhile bare) → Sentence owed (op.bytes ++ c :: l)

/-- The lines that are parsed as they should be: blanks, the first word, which may be empty, and a sentence. -/
def Line (text : List UInt8) : Prop := Sentence false ((text.dropWhile blank).dropWhile bare)

/-! ## The tokens of a sentence -/

namespace Operator

/-- The state of the tokenizer behind the operator. -/
def state : Operator → State
  | pipe => .PIPE
  | input => .IN_REDIRECT
  | output => .OUT_REDIRECT
  | append => .OUT_APPEND

def type : Operator → TokenType
  | pipe => .PIPE
  | input => .IN_REDIRECT
  | output => .OUT_REDIRECT
  | append => .OUT_APPEND

theorem type_redirects (op : Operator) : op.type.redirects = op.redirects := by
  cases op <;> rfl

end Operator

/-- A turn that emits nothing. -/
theorem map_nil_append (o : Option (List TokenType)) : o.map ([] ++ ·) = o := by
  cases o <;> rfl

theorem words_operator (op : Operator) (l : List UInt8) : words .INTERVAL (op.bytes ++ l) = words op.state l := by
  cases op with
  | append => exact (map_nil_append _).trans (map_nil_append _)
  | _ => exact map_nil_append _

theorem words_state_nil (op : Operator) : words op.state [] = none := by
  cases op <;> rfl

theorem words_state_cons (op : Operator) (l : List UInt8) (hc : op = .output → c ≠ GT) :
    words op.state (c :: l) = (words (if c = SPACE then .INTERVAL else .NORMAL) l).map (op.type :: ·) := by
  cases op with
  | output =>
    rw [Operator.state, words, next, if_neg (hc rfl)]
    rfl
  | _ => rfl

/-- What ends a word is there for the gap behind it too. -/
theorem words_break (l : List UInt8) (hc : bare c = false) :
    words .NORMAL (c :: l) = (words .INTERVAL (c :: l)).map (.NORMAL :: ·) := by
  have hcases : c = SPACE ∨ c = GT ∨ c = LT ∨ c = BAR := by
    by_contra h
    simp only [not_or] at h
    exact Bool.eq_false_iff.mp hc (bare_iff.mpr h)
  have hsame (q : State) (h : next .INTERVAL c = ([], q)) (h' : next .NORMAL c = ([.NORMAL], q)) :
      words .NORMAL (c :: l) = (words .INTERVAL (c :: l)).map (.NORMAL :: ·) := by
    rw [words, words, h, h', map_nil_append]
    rfl
  rcases hcases with rfl | rfl | rfl | rfl
  · exact hsame _ rfl rfl
  · exact hsame _ rfl rfl
  · exact hsame _ rfl rfl
  · exact hsame _ rfl rfl

theorem next_bare (hbare : bare c) (hc : c ≠ 0) : next .NORMAL c = ([], .NORMAL) := by
  obtain ⟨hspace, hgt, hlt, hbar⟩ := bare_iff.mp hbare
  rw [next, if_neg hspace, if_neg hgt, if_neg hlt, if_neg hbar, if_neg hc]

/-- A word ends where its bytes do. -/
theorem words_normal (hl : 0 ∉ l) :
    words .NORMAL l = (words .INTERVAL (l.dropWhile bare)).map (.NORMAL :: ·) := by
  induction l with
  | nil => rfl
  | cons c l ih =>
    cases hbare : bare c with
    | true =>
      have hc : c ≠ 0 := fun h => hl (h ▸ List.mem_cons_self ..)
      rw [List.dropWhile_cons_of_pos hbare, ← ih fun h => hl (List.mem_cons_of_mem _ h), words, next_bare hbare hc,
        map_nil_append]
    | false =>
      rw [List.dropWhile_cons_of_neg (by simp [hbare])]
      exact words_break l hbare

/-- A word that begins between two words. -/
theorem words_word (hbare : bare c) (hsingle : c ≠ SINGLE) (hdouble : c ≠ DOUBLE)
    (hl : 0 ∉ c :: l) : words .INTERVAL (c :: l) = (words .INTERVAL (l.dropWhile bare)).map (.NORMAL :: ·) := by
  have hc : c ≠ 0 := fun h => hl (h ▸ List.mem_cons_self ..)
  have hnext : next .INTERVAL c = ([], .NORMAL) := by
    obtain ⟨hspace, hgt, hlt, hbar⟩ := bare_iff.mp hbare
    rw [next, if_neg hgt, if_neg hlt, if_neg hbar, if_neg hspace, if_neg hsingle, if_neg hdouble, if_neg hc]
  rw [words, hnext, map_nil_append]
  exact words_normal fun h => hl (List.mem_cons_of_mem _ h)

/-- The state behind a quote that opens. -/
def quoting (q : UInt8) : State := if q = SINGLE then .SINGLE_STR else .DOUBLE_STR

theorem words_open (hq : q = SINGLE ∨ q = DOUBLE) (l : List UInt8) :
    words .INTERVAL (q :: l) = words (quoting q) l := by
  rcases hq with rfl | rfl
  · exact map_nil_append _
  · exact map_nil_append _

theorem next_quoting (hq : q = SINGLE ∨ q = DOUBLE) (c : UInt8) :
    next (quoting q) c = if c = q then ([.NORMAL], .INTERVAL) else ([], quoting q) := by
  rcases hq with rfl | rfl
  · rfl
  · rfl

theorem words_quoted (hq : q = SINGLE ∨ q = DOUBLE) {s : List UInt8} (hs : q ∉ s) (l : List UInt8) :
    words (quoting q) (s ++ q :: l) = (words .INTERVAL l).map (.NORMAL :: ·) := by
  induction s with
  | nil =>
    rw [List.nil_append, words, next_quoting hq, if_pos rfl]
    rfl
  | cons c s ih =>
    have hc : c ≠ q := fun h => hs (h ▸ List.mem_cons_self ..)
    rw [List.cons_append, words, next_quoting hq, if_neg hc, map_nil_append]
    exact ih fun h => hs (List.mem_cons_of_mem _ h)

/-- A quote that is never closed. -/
theorem words_unquoted (hq : q = SINGLE ∨ q = DOUBLE) (hl : q ∉ l) :
    words (quoting q) l = none := by
  induction l with
  | nil => rcases hq with rfl | rfl <;> rfl
  | cons c l ih =>
    have hc : c ≠ q := fun h => hl (h ▸ List.mem_cons_self ..)
    rw [words, next_quoting hq, if_neg hc, map_nil_append]
    exact ih fun h => hl (List.mem_cons_of_mem _ h)

/-! ## Sentences and their tokens -/

/-- From where no word has begun, the walk comes to the end of the line, and with paired tokens. -/
def Good (owed : Bool) (l : List UInt8) : Prop := ∃ ts, words .INTERVAL l = some ts ∧ Paired owed ts

theorem paired_cons {t : TokenType} :
    Paired owed (t :: ts) ↔ Paired (t.redirects && !owed) ts := by
  cases owed with
  | true =>
    rw [Bool.not_true, Bool.and_false]
    rfl
  | false =>
    rw [Bool.not_false, Bool.and_true]
    rfl

theorem good_map {l l' : List UInt8} {t : TokenType} (h : words .INTERVAL l = (words .INTERVAL l').map (t :: ·)) :
    Good owed l ↔ Good (t.redirects && !owed) l' := by
  constructor
  · rintro ⟨ts, hts, hp⟩
    rw [h] at hts
    obtain ⟨ts', hwords, rfl⟩ := Option.map_eq_some_iff.mp hts
    exact ⟨ts', hwords, paired_cons.mp hp⟩
  · rintro ⟨ts, hts, hp⟩
    exact ⟨t :: ts, by rw [h, hts]; rfl, paired_cons.mpr hp⟩

theorem good_nil : Good owed [] ↔ owed = false := by
  constructor
  · rintro ⟨ts, hts, hp⟩
    cases hts
    cases owed with
    | true => exact hp
    | false => rfl
  · rintro rfl
    exact ⟨[], rfl, rfl⟩

theorem good_space : Good owed (SPACE :: l) ↔ Good owed l := by
  have h : words .INTERVAL (SPACE :: l) = words .INTERVAL l := map_nil_append _
  rw [Good, h, Good]

theorem good_quoted (hq : q = SINGLE ∨ q = DOUBLE) {s : List UInt8} (hs : q ∉ s)
    (l : List UInt8) : Good owed (q :: (s ++ q :: l)) ↔ Good false l :=
  good_map ((words_open hq _).trans (words_quoted hq hs l))

theorem good_word (hbare : bare c) (hsingle : c ≠ SINGLE)
    (hdouble : c ≠ DOUBLE) (hl : 0 ∉ c :: l) : Good owed (c :: l) ↔ Good false (l.dropWhile bare) :=
  good_map (words_word hbare hsingle hdouble hl)

theorem good_spaced (op : Operator) (l : List UInt8) :
    Good owed (op.bytes ++ SPACE :: l) ↔ Good (op.redirects && !owed) l := by
  rw [← op.type_redirects]
  apply good_map
  rw [words_operator, words_state_cons op l fun _ => by decide, if_pos rfl]

theorem good_joined (op : Operator) (hspace : c ≠ SPACE) (hgt : op = .output → c ≠ GT) (hl : 0 ∉ l) :
    Good owed (op.bytes ++ c :: l) ↔ Good false (l.dropWhile bare) := by
  have hwords : words .INTERVAL (op.bytes ++ c :: l) =
      (words .INTERVAL (l.dropWhile bare)).map (op.type :: .NORMAL :: ·) := by
    rw [words_operator, words_state_cons op l hgt, if_neg hspace, words_normal hl, Option.map_map]
    rfl
  have hpaired (ts : List TokenType) : Paired owed (op.type :: .NORMAL :: ts) ↔ Paired false ts := by
    rw [paired_cons, paired_cons]
    rfl
  constructor
  · rintro ⟨ts, hts, hp⟩
    rw [hwords] at hts
    obtain ⟨ts', hrest, rfl⟩ := Option.map_eq_some_iff.mp hts
    exact ⟨ts', hrest, (hpaired ts').mp hp⟩
  · rintro ⟨ts, hts, hp⟩
    exact ⟨op.type :: .NORMAL :: ts, by rw [hwords, hts]; rfl, (hpaired ts).mpr hp⟩

/-- How a line from where no word has begun may begin. -/
theorem line_cases (l : List UInt8) :
    l = [] ∨ (∃ l', l = SPACE :: l') ∨ (∃ q l', l = q :: l' ∧ (q = SINGLE ∨ q = DOUBLE)) ∨
      (∃ c l', l = c :: l' ∧ bare c = true ∧ c ≠ SINGLE ∧ c ≠ DOUBLE) ∨
      ∃ op : Operator, l = op.bytes ∨ ∃ c l', l = op.bytes ++ c :: l' ∧ (op = .output → c ≠ GT) := by
  cases l with
  | nil => exact .inl rfl
  | cons c l =>
    right
    by_cases hquote : c = SINGLE ∨ c = DOUBLE
    · exact .inr (.inl ⟨c, l, rfl, hquote⟩)
    · by_cases hbare : bare c = true
      · exact .inr (.inr (.inl ⟨c, l, rfl, hbare, fun h => hquote (.inl h), fun h => hquote (.inr h)⟩))
      · have hplain (op : Operator) (hop : op.bytes = [c]) (hne : op ≠ .output) :
            ∃ op : Operator, c :: l = op.bytes ∨ ∃ d l', c :: l = op.bytes ++ d :: l' ∧ (op = .output → d ≠ GT) := by
          refine ⟨op, ?_⟩
          rw [hop]
          cases l with
          | nil => exact .inl rfl
          | cons d l => exact .inr ⟨d, l, rfl, fun h => absurd h hne⟩
        by_cases hspace : c = SPACE
        · exact .inl ⟨l, by rw [hspace]⟩
        · right; right; right
          by_cases hlt : c = LT
          · exact hplain .input (by rw [hlt]; rfl) (by decide)
          · by_cases hbar : c = BAR
            · exact hplain .pipe (by rw [hbar]; rfl) (by decide)
            · have hgt : c = GT := by
                by_contra hgt
                exact hbare (bare_iff.mpr ⟨hspace, hgt, hlt, hbar⟩)
              rw [hgt]
              cases l with
              | nil => exact ⟨.output, .inl rfl⟩
              | cons d l =>
                by_cases hd : d = GT
                · rw [hd]
                  cases l with
                  | nil => exact ⟨.append, .inl rfl⟩
                  | cons d l => exact ⟨.append, .inr ⟨d, l, rfl, fun h => by cases h⟩⟩
                · exact ⟨.output, .inr ⟨d, l, rfl, fun _ => hd⟩⟩

/-- The sentences are the lines the walk comes to the end of with paired tokens. -/
theorem good_iff (hl : 0 ∉ l) : Good owed l ↔ Sentence owed l := by
  constructor
  · induction hn : l.length using Nat.strongRecOn generalizing owed l with
    | _ n ih =>
      intro h
      have hdrop {l' : List UInt8} (h0 : 0 ∉ l') (hlt : l'.length < n) (hgood : Good false (l'.dropWhile bare)) :
          Sentence false (l'.dropWhile bare) := by
        have hsub := List.dropWhile_sublist (l := l') bare
        exact ih _ (Nat.lt_of_le_of_lt hsub.length_le hlt) (fun h => h0 (hsub.subset h)) rfl hgood
      rcases line_cases l with rfl | ⟨l', rfl⟩ | ⟨q, l', rfl, hq⟩ | ⟨c, l', rfl, hbare, hsingle, hdouble⟩ |
        ⟨op, rfl | ⟨c, l', rfl, hgt⟩⟩
      · rw [good_nil.mp h]
        exact .done
      · have hlen : l'.length < n := hn ▸ Nat.lt_succ_self _
        exact .space (ih _ hlen (fun h => hl (List.mem_cons_of_mem _ h)) rfl (good_space.mp h))
      · by_cases hclosed : q ∈ l'
        · obtain ⟨s, l'', rfl, hs⟩ := List.eq_append_cons_of_mem hclosed
          have hlen : l''.length < n := by
            rw [← hn, List.length_cons, List.length_append, List.length_cons]
            omega
          have hrest : 0 ∉ l'' := fun h =>
            hl (List.mem_cons_of_mem _ (List.mem_append_right _ (List.mem_cons_of_mem _ h)))
          exact .quoted hq hs (ih _ hlen hrest rfl ((good_quoted hq hs l'').mp h))
        · obtain ⟨ts, hts, -⟩ := h
          rw [words_open hq, words_unquoted hq hclosed] at hts
          cases hts
      · have hrest : 0 ∉ l' := fun h => hl (List.mem_cons_of_mem _ h)
        exact .word hbare hsingle hdouble (hdrop hrest (hn ▸ Nat.lt_succ_self _) ((good_word hbare hsingle hdouble hl).mp h))
      · obtain ⟨ts, hts, -⟩ := h
        rw [← List.append_nil op.bytes, words_operator, words_state_nil] at hts
        cases hts
      · have hrest : 0 ∉ l' := fun h => hl (List.mem_append_right _ (List.mem_cons_of_mem _ h))
        have hlen : l'.length < n := by
          rw [← hn, List.length_append, List.length_cons]
          omega
        by_cases hspace : c = SPACE
        · rw [hspace] at h ⊢
          exact .spaced op (ih _ hlen hrest rfl ((good_spaced op l').mp h))
        · exact .joined op hspace hgt (hdrop hrest hlen ((good_joined op hspace hgt hrest).mp h))
  · intro h
    induction h with
    | done => exact good_nil.mpr rfl
    | space _ ih => exact good_space.mpr (ih fun h => hl (List.mem_cons_of_mem _ h))
    | quoted hq hs _ ih =>
      exact (good_quoted hq hs _).mpr (ih fun h => hl (List.mem_cons_of_mem _ (List.mem_append_right _ (List.mem_cons_of_mem _ h))))
    | word hbare hsingle hdouble _ ih =>
      refine (good_word hbare hsingle hdouble hl).mpr (ih fun h => hl (List.mem_cons_of_mem _ ?_))
      exact (List.dropWhile_sublist _).subset h
    | spaced op _ ih =>
      exact (good_spaced op _).mpr (ih fun h => hl (List.mem_append_right _ (List.mem_cons_of_mem _ h)))
    | joined op hspace hgt _ ih =>
      have hrest := fun h => hl (List.mem_append_right _ (List.mem_cons_of_mem _ h))
      exact (good_joined op hspace hgt hrest).mpr (ih fun h => hrest ((List.dropWhile_sublist _).subset h))

/-! ## A line -/

/-- No turn emits the token that ends them. -/
theorem next_types {q : State} : .END ∉ (next q c).1 := by
  cases q <;> (rw [next]; try split_ifs) <;> simp

theorem words_types {q : State} (h : words q l = some ts) : .END ∉ ts := by
  induction l generalizing q ts with
  | nil =>
    rw [words] at h
    split at h
    · rw [← Option.some.inj h]
      exact next_types
    · cases h
  | cons c l ih =>
    obtain ⟨ts', hwords, rfl⟩ := Option.map_eq_some_iff.mp h
    intro hmem
    exact (List.mem_append.mp hmem).elim next_types (ih hwords)

theorem ahead_of_map {f : Nat → TokenType} {x n : Nat} (h : (List.range' x n).map f = ts ++ [.END]) : Ahead f .END x ts := by
  induction ts generalizing x n with
  | nil =>
    cases n with
    | zero => cases h
    | succ n => exact (List.cons.inj h).1
  | cons t ts ih =>
    cases n with
    | zero => cases h
    | succ n => exact ⟨(List.cons.inj h).1, ih (List.cons.inj h).2⟩

/-- The tokens of a walk that has ended. -/
theorem typed_of_types {s : Tokenizer} (h : s.types = ts ++ [.END]) (hts : .END ∉ ts) :
    Typed s.tokens 0 ts ∧ s.tokenCur = ts.length + 1 := by
  refine ⟨⟨ahead_of_map (n := s.tokenCur) ?_, hts⟩, ?_⟩
  · rw [← List.range_eq_range']
    exact h
  · have hlen := congrArg List.length h
    simpa [Tokenizer.types] using hlen

/-- The line with its terminating NUL at index `n` is parsed within the line and its tokens: the tokenizer returns and
has read no further than the NUL, the last of its tokens and no other is of `TYPE_END`, and the command builder returns
and has read no further than that token. -/
def Parsed (line : Nat → UInt8) (n : Nat) : Prop :=
  ∃ fuel s, tokenize fuel line = some s ∧ (∀ i ∈ s.reads, i ≤ n) ∧
    ∃ e, s.tokenCur = e + 1 ∧ (∀ i, i ≤ e → ((s.tokens i).type = .END ↔ i = e)) ∧
      ∃ fuel p, parseCommands fuel s.tokens = some p ∧ ∀ i ∈ p.reads, i ≤ e

theorem Typed.end_iff {tokens : Nat → Token} {x i : Nat} (h : Typed tokens x ts) (hlow : x ≤ i)
    (hhigh : i ≤ x + ts.length) : (tokens i).type = .END ↔ i = x + ts.length := by
  induction ts generalizing x with
  | nil =>
    have hi : i = x := Nat.le_antisymm hhigh hlow
    rw [hi]
    exact iff_of_true h.1 rfl
  | cons t ts ih =>
    have hlen : x + (t :: ts).length = x + 1 + ts.length := by
      rw [List.length_cons]
      omega
    by_cases hi : i = x
    · have ht : (tokens i).type ≠ .END := by
        rw [hi, show (tokens x).type = t from h.1.1]
        exact fun h' => h.2 (h' ▸ List.mem_cons_self ..)
      exact iff_of_false ht (by omega)
    · rw [hlen]
      exact ih h.tail (by omega) (by omega)

/-- A line is parsed within its buffer and its tokens exactly when it is one of the grammar's. -/
theorem parse_iff {line : Nat → UInt8} {text : List UInt8} (hline : Ahead line 0 0 text) (htext : 0 ∉ text) :
    Parsed line text.length ↔ Line text := by
  obtain ⟨hreturns, hoverruns⟩ := tokenize_spec hline htext
  have hblank : 0 ∉ text.dropWhile blank := fun h => htext ((List.dropWhile_sublist _).subset h)
  have hrest : 0 ∉ (text.dropWhile blank).dropWhile bare := fun h => hblank ((List.dropWhile_sublist _).subset h)
  rw [Line, ← good_iff hrest]
  rw [words_normal hblank] at hreturns hoverruns
  constructor
  · rintro ⟨fuel, s, hrun, hreads, e, hcur, -, hparse⟩
    cases hwords : words .INTERVAL ((text.dropWhile blank).dropWhile bare) with
    | none =>
      obtain ⟨i, hi, hlt⟩ := hoverruns (by rw [hwords]; rfl) fuel s hrun
      exact absurd (hreads i hi) (Nat.not_le.mpr hlt)
    | some ts =>
      obtain ⟨s', hrun', htypes, -⟩ := hreturns (.NORMAL :: ts) (by rw [hwords]; rfl)
      have hsame : s = s' := tokenize_unique hrun (hrun' (text.length + 2) (Nat.lt_succ_self _))
      rw [← hsame] at htypes
      obtain ⟨htyped, hlen⟩ := typed_of_types htypes
        (fun h => (List.mem_cons.mp h).elim (fun h => by cases h) (words_types hwords))
      have he : e = (TokenType.NORMAL :: ts).length := Nat.succ.inj (hcur.symm.trans hlen)
      rw [he] at hparse
      exact ⟨ts, hwords, (parseCommands_iff htyped).mp hparse⟩
  · rintro ⟨ts, hwords, hpaired⟩
    obtain ⟨s, hrun, htypes, hreads⟩ := hreturns (.NORMAL :: ts) (by rw [hwords]; rfl)
    obtain ⟨htyped, hlen⟩ := typed_of_types htypes
      (fun h => (List.mem_cons.mp h).elim (fun h => by cases h) (words_types hwords))
    refine ⟨text.length + 2, s, hrun _ (Nat.lt_succ_self _), hreads, _, hlen, fun i hi => ?_,
      (parseCommands_iff htyped).mpr hpaired⟩
    rw [htyped.end_iff (Nat.zero_le i) (by omega), Nat.zero_add]

/-- `line_buf` with a line, and zeros behind it. -/
def lineOf (text : List UInt8) : Nat → UInt8 := fun i => text[i]?.getD 0

theorem ahead_lineOf (done text : List UInt8) : Ahead (lineOf (done ++ text)) 0 done.length text := by
  induction text generalizing done with
  | nil => simp [Ahead, lineOf]
  | cons c text ih =>
    refine ⟨by simp [lineOf], ?_⟩
    have hrest := ih (done ++ [c])
    rw [List.append_assoc, List.length_append] at hrest
    exact hrest

/-- `cat < a` -/
def catLine : List UInt8 := [99, 97, 116, 32, 60, 32, 97]

/-- A line with one redirection. -/
theorem parse_cat : Parsed (lineOf catLine) 7 :=
  (parse_iff (ahead_lineOf [] catLine) (by decide)).mpr
    (.space (.spaced .input (.word rfl (by decide) (by decide) .done)))

/-- `ls |` -/
def pipeLine : List UInt8 := [108, 115, 32, 124]

/-- The tokenizer has read behind the line when it returns. -/
theorem parse_pipe : pipeLine.length < BUFF_SIZE ∧ 0 ∉ pipeLine ∧ ¬Parsed (lineOf pipeLine) pipeLine.length := by
  refine ⟨by decide, by decide, ?_⟩
  rintro ⟨fuel, s, hrun, hreads, -⟩
  obtain ⟨i, hi, hlt⟩ := (tokenize_spec (ahead_lineOf [] pipeLine) (by decide)).2 rfl fuel s hrun
  exact Nat.not_lt.mpr (hreads i hi) hlt

end Exaros.Shell
