import Exaros.Lib.While
import Mathlib.Data.List.Basic

/-!
# The shell's tokenizer

`tokenize` walks over the line with nine states and a cursor that goes on after every turn, whatever the turn read.
What a turn emits and where it goes is a function `next` of the state and the byte, so what the whole walk does is a
recursion `words` on the line: it comes to `STATE_END` only where the terminating NUL is met in a word or between two
words. Met after an operator or in a quote, it is passed over, and the walk is behind the line.
-/

namespace Exaros.Shell

/-- `Type`, the kind of a token -/
inductive TokenType
  | NORMAL | IN_REDIRECT | OUT_REDIRECT | OUT_APPEND | PIPE | END
  deriving DecidableEq

inductive State
  | NORMAL | END | INTERVAL | PIPE | OUT_REDIRECT | OUT_APPEND | IN_REDIRECT | SINGLE_STR | DOUBLE_STR
  deriving DecidableEq

/-- What a `char *` of a token or a command points to. -/
inductive Content
  | null
  | lineBuf (i : Nat)
  | literal (s : String)

structure Token where
  content : Content
  type : TokenType

/-- The size of `line_buf`. -/
def BUFF_SIZE : Nat := 256

def SPACE : UInt8 := 32
def GT : UInt8 := 62
def LT : UInt8 := 60
def BAR : UInt8 := 124
def SINGLE : UInt8 := 39
def DOUBLE : UInt8 := 34

/-- The variables of `tokenize`, with the indices of `line_buf` it has read. `line` is the memory from `line_buf` on,
`tokens` that from `tokens` on. -/
structure Tokenizer where
  line : Nat → UInt8
  cur : Nat
  start : Nat
  state : State
  tokens : Nat → Token
  tokenCur : Nat
  reads : List Nat

namespace Tokenizer

def read (s : Tokenizer) : Tokenizer := { s with reads := s.reads ++ [s.cur] }

def goto (s : Tokenizer) (state : State) : Tokenizer := { s with state := state }

/-- `start = i; state = q;` -/
def startAt (s : Tokenizer) (i : Nat) (q : State) : Tokenizer := { s with start := i, state := q }

/-- `tokens[token_cur].content = ..; tokens[token_cur++].type = ..;` -/
def emit (s : Tokenizer) (content : Content) (type : TokenType) : Tokenizer :=
  { s with tokens := fun i => if i = s.tokenCur then ⟨content, type⟩ else s.tokens i, tokenCur := s.tokenCur + 1 }

/-- `*cur = '\0';` -/
def cut (s : Tokenizer) : Tokenizer := { s with line := fun i => if i = s.cur then 0 else s.line i }

/-- What the states after an operator do: its token, and a blank or the first byte of a word. -/
def operator (s : Tokenizer) (content : String) (type : TokenType) : Tokenizer :=
  let s' := s.emit (.literal content) type
  if s.line s.cur = SPACE then s'.goto .INTERVAL else s'.startAt s.cur .NORMAL

/-- What the two quoting states do. -/
def quoted (s : Tokenizer) (quote : UInt8) : Tokenizer :=
  if s.line s.cur = quote then (s.cut.emit (.lineBuf s.start) .NORMAL).goto .INTERVAL else s

/-- A turn of the loop, up to its `cur++`. -/
def turn (s : Tokenizer) : Tokenizer :=
  let c := s.line s.cur
  match s.state with
  | .NORMAL =>
    if c = SPACE ∨ c = GT ∨ c = LT ∨ c = BAR ∨ c = 0 then
      let state :=
        if c = SPACE then .INTERVAL
        else if c = GT then .OUT_REDIRECT
        else if c = LT then .IN_REDIRECT
        else if c = BAR then .PIPE
        else .END
      ((s.emit (.lineBuf s.start) .NORMAL).goto state).cut
    else s
  | .INTERVAL =>
    if c = GT then s.startAt s.cur .OUT_REDIRECT
    else if c = LT then s.startAt s.cur .IN_REDIRECT
    else if c = BAR then s.startAt s.cur .PIPE
    else if c = SPACE then s.goto .INTERVAL
    else if c = SINGLE then s.startAt (s.cur + 1) .SINGLE_STR
    else if c = DOUBLE then s.startAt (s.cur + 1) .DOUBLE_STR
    else if c = 0 then s.goto .END
    else s.startAt s.cur .NORMAL
  | .SINGLE_STR => s.quoted SINGLE
  | .DOUBLE_STR => s.quoted DOUBLE
  | .PIPE => s.operator "|" .PIPE
  | .IN_REDIRECT => s.operator "<" .IN_REDIRECT
  | .OUT_REDIRECT => if c = GT then s.goto .OUT_APPEND else s.operator ">" .OUT_REDIRECT
  | .OUT_APPEND => s.operator ">>" .OUT_APPEND
  | .END => s

/-- A turn that does not end the loop. -/
def step (s : Tokenizer) : Tokenizer := { s.read.turn with cur := s.cur + 1 }

/-- The types of the tokens there are. -/
def types (s : Tokenizer) : List TokenType := (List.range s.tokenCur).map fun i => (s.tokens i).type

end Tokenizer

/-- A turn of the loop of `tokenize`. -/
def Tokenizer.loopBody (s : Tokenizer) : Option (Tokenizer ⊕ Tokenizer) :=
  some (if s.state = .END then .inr (s.emit .null .END) else .inl s.step)

/-- A turn of `while (*cur && (*cur == ' ')) cur++;` -/
def Tokenizer.skipBody (s : Tokenizer) : Option (Tokenizer ⊕ Tokenizer) :=
  some (if s.line s.cur ≠ 0 ∧ s.line s.cur = SPACE then .inl { s.read with cur := s.cur + 1 } else .inr s.read)

/-- What `init` makes of `tokens`. -/
def zeroToken : Token := ⟨.null, .NORMAL⟩

/-- The variables before the first blank is skipped. -/
def Tokenizer.init (line : Nat → UInt8) : Tokenizer := ⟨line, 0, 0, .NORMAL, fun _ => zeroToken, 0, []⟩

/-- `start = cur;` -/
def Tokenizer.begin (s : Tokenizer) : Tokenizer := { s with start := s.cur }

/-- `tokenize`, after `init`; `none` when a loop of it goes on after `fuel` turns. -/
def tokenize (fuel : Nat) (line : Nat → UInt8) : Option Tokenizer :=
  (While.run Tokenizer.skipBody fuel (.init line)).bind fun s => While.run Tokenizer.loopBody fuel s.begin

/-! ## One turn -/

/-- The tokens a turn emits and the state it goes to. -/
def next : State → UInt8 → List TokenType × State
  | .NORMAL, c =>
    if c = SPACE then ([.NORMAL], .INTERVAL) else if c = GT then ([.NORMAL], .OUT_REDIRECT)
    else if c = LT then ([.NORMAL], .IN_REDIRECT) else if c = BAR then ([.NORMAL], .PIPE)
    else if c = 0 then ([.NORMAL], .END) else ([], .NORMAL)
  | .INTERVAL, c =>
    if c = GT then ([], .OUT_REDIRECT) else if c = LT then ([], .IN_REDIRECT) else if c = BAR then ([], .PIPE)
    else if c = SPACE then ([], .INTERVAL) else if c = SINGLE then ([], .SINGLE_STR)
    else if c = DOUBLE then ([], .DOUBLE_STR) else if c = 0 then ([], .END) else ([], .NORMAL)
  | .SINGLE_STR, c => if c = SINGLE then ([.NORMAL], .INTERVAL) else ([], .SINGLE_STR)
  | .DOUBLE_STR, c => if c = DOUBLE then ([.NORMAL], .INTERVAL) else ([], .DOUBLE_STR)
  | .PIPE, c => ([.PIPE], if c = SPACE then .INTERVAL else .NORMAL)
  | .IN_REDIRECT, c => ([.IN_REDIRECT], if c = SPACE then .INTERVAL else .NORMAL)
  | .OUT_REDIRECT, c => if c = GT then ([], .OUT_APPEND) else ([.OUT_REDIRECT], if c = SPACE then .INTERVAL else .NORMAL)
  | .OUT_APPEND, c => ([.OUT_APPEND], if c = SPACE then .INTERVAL else .NORMAL)
  | .END, _ => ([], .END)

/-- A turn: its byte is read, its tokens are behind the others, and the line in front of it is left alone. -/
structure Turned (s s' : Tokenizer) (c : UInt8) : Prop where
  state : s'.state = (next s.state c).2
  types : s'.types = s.types ++ (next s.state c).1
  line : ∀ i, i ≠ s.cur → s'.line i = s.line i

namespace Tokenizer

variable (s : Tokenizer)

theorem emit_types (content : Content) (type : TokenType) : (s.emit content type).types = s.types ++ [type] := by
  have hold : (List.range s.tokenCur).map (fun i => ((s.emit content type).tokens i).type) = s.types := by
    apply List.map_congr_left
    intro i hi
    have hne : i ≠ s.tokenCur := Nat.ne_of_lt (List.mem_range.mp hi)
    simp only [emit, if_neg hne]
  show (List.range (s.tokenCur + 1)).map (fun i => ((s.emit content type).tokens i).type) = s.types ++ [type]
  rw [List.range_succ, List.map_append, hold]
  simp [emit]

@[simp] theorem goto_state (q : State) : (s.goto q).state = q := rfl
@[simp] theorem goto_types (q : State) : (s.goto q).types = s.types := rfl
@[simp] theorem cut_state : s.cut.state = s.state := rfl
@[simp] theorem cut_types : s.cut.types = s.types := rfl

theorem cut_line {i : Nat} (h : i ≠ s.cur) : s.cut.line i = s.line i := if_neg h

/-- An operator's state: its token, and where it goes. -/
theorem operator_turned (content : String) (type : TokenType) :
    (s.operator content type).state = (if s.line s.cur = SPACE then .INTERVAL else .NORMAL) ∧
      (s.operator content type).types = s.types ++ [type] ∧ (s.operator content type).line = s.line ∧
      (s.operator content type).reads = s.reads := by
  unfold operator
  split
  · exact ⟨rfl, s.emit_types _ _, rfl, rfl⟩
  · exact ⟨rfl, s.emit_types _ _, rfl, rfl⟩

theorem quoted_turned (quote : UInt8) :
    (s.quoted quote).state = (if s.line s.cur = quote then .INTERVAL else s.state) ∧
      (s.quoted quote).types = s.types ++ (if s.line s.cur = quote then [.NORMAL] else []) ∧
      (∀ i, i ≠ s.cur → (s.quoted quote).line i = s.line i) ∧ (s.quoted quote).reads = s.reads := by
  unfold quoted
  split
  · exact ⟨rfl, s.cut.emit_types _ _, fun i hi => s.cut_line hi, rfl⟩
  · exact ⟨rfl, (List.append_nil _).symm, fun _ _ => rfl, rfl⟩

/-- **One turn of the tokenizer**, by the state and the character. -/
theorem turn_spec : Turned s s.turn (s.line s.cur) ∧ s.turn.reads = s.reads := by
  unfold turn
  split
  case h_1 h =>
    by_cases hc : s.line s.cur = SPACE ∨ s.line s.cur = GT ∨ s.line s.cur = LT ∨ s.line s.cur = BAR ∨ s.line s.cur = 0
    · rw [if_pos hc]
      refine ⟨⟨?_, ?_, fun i hi => if_neg hi⟩, rfl⟩
      · rw [h, next, cut_state, goto_state]
        split_ifs with h₁ h₂ h₃ h₄ h₅
        · rfl
        · rfl
        · rfl
        · rfl
        · rfl
        · exact absurd hc (by simp [h₁, h₂, h₃, h₄, h₅])
      · rw [h, next, cut_types, goto_types, emit_types]
        split_ifs with h₁ h₂ h₃ h₄ h₅
        · rfl
        · rfl
        · rfl
        · rfl
        · rfl
        · exact absurd hc (by simp [h₁, h₂, h₃, h₄, h₅])
    · rw [if_neg hc]
      have hnext : next .NORMAL (s.line s.cur) = ([], .NORMAL) := by
        simp only [not_or] at hc
        simp only [next, if_neg hc.1, if_neg hc.2.1, if_neg hc.2.2.1, if_neg hc.2.2.2.1, if_neg hc.2.2.2.2]
      refine ⟨⟨?_, ?_, fun _ _ => rfl⟩, rfl⟩
      · rw [h, hnext]
      · rw [h, hnext, List.append_nil]
  case h_2 h =>
    dsimp only
    refine ⟨⟨?_, ?_, fun i _ => ?_⟩, ?_⟩
    · rw [h, next]
      split_ifs <;> rfl
    · rw [h, next]
      split_ifs <;> exact (List.append_nil _).symm
    · split_ifs <;> rfl
    · split_ifs <;> rfl
  case h_3 h =>
    obtain ⟨hstate, htypes, hline, hreads⟩ := s.quoted_turned SINGLE
    refine ⟨⟨?_, ?_, hline⟩, hreads⟩
    · rw [hstate, h, next]
      split <;> rfl
    · rw [htypes, h, next]
      split <;> rfl
  case h_4 h =>
    obtain ⟨hstate, htypes, hline, hreads⟩ := s.quoted_turned DOUBLE
    refine ⟨⟨?_, ?_, hline⟩, hreads⟩
    · rw [hstate, h, next]
      split <;> rfl
    · rw [htypes, h, next]
      split <;> rfl
  case h_5 h =>
    obtain ⟨hstate, htypes, hline, hreads⟩ := s.operator_turned "|" .PIPE
    exact ⟨⟨by rw [hstate, h, next], by rw [htypes, h, next], fun i _ => congrFun hline i⟩, hreads⟩
  case h_6 h =>
    obtain ⟨hstate, htypes, hline, hreads⟩ := s.operator_turned "<" .IN_REDIRECT
    exact ⟨⟨by rw [hstate, h, next], by rw [htypes, h, next], fun i _ => congrFun hline i⟩, hreads⟩
  case h_7 h =>
    obtain ⟨hstate, htypes, hline, hreads⟩ := s.operator_turned ">" .OUT_REDIRECT
    by_cases hc : s.line s.cur = GT
    · rw [if_pos hc]
      refine ⟨⟨?_, ?_, fun _ _ => rfl⟩, rfl⟩
      · rw [h, next, if_pos hc, goto_state]
      · rw [h, next, if_pos hc, goto_types, List.append_nil]
    · rw [if_neg hc]
      refine ⟨⟨?_, ?_, fun i _ => congrFun hline i⟩, hreads⟩
      · rw [hstate, h, next, if_neg hc]
      · rw [htypes, h, next, if_neg hc]
  case h_8 h =>
    obtain ⟨hstate, htypes, hline, hreads⟩ := s.operator_turned ">>" .OUT_APPEND
    exact ⟨⟨by rw [hstate, h, next], by rw [htypes, h, next], fun i _ => congrFun hline i⟩, hreads⟩
  case h_9 h =>
    refine ⟨⟨?_, ?_, fun _ _ => rfl⟩, rfl⟩
    · rw [h, next]
    · rw [h, next, List.append_nil]

theorem step_reads : s.step.reads = s.reads ++ [s.cur] := s.read.turn_spec.2

theorem step_turned : Turned s s.step (s.line s.cur) :=
  ⟨s.read.turn_spec.1.state, s.read.turn_spec.1.types, s.read.turn_spec.1.line⟩

end Tokenizer

/-! ## The whole walk -/

/-- From index `x` on stand the elements of `l`, and behind them `z`. -/
def Ahead {α : Type} (f : Nat → α) (z : α) : Nat → List α → Prop
  | x, [] => f x = z
  | x, a :: l => f x = a ∧ Ahead f z (x + 1) l

theorem Ahead.congr {α : Type} {f g : Nat → α} {z : α} {x : Nat} {l : List α} (h : Ahead f z x l)
    (hg : ∀ i, x ≤ i → g i = f i) : Ahead g z x l := by
  induction l generalizing x with
  | nil => exact (hg x (Nat.le_refl x)).trans h
  | cons a l ih => exact ⟨(hg x (Nat.le_refl x)).trans h.1, ih h.2 fun i hi => hg i (Nat.le_of_succ_le hi)⟩

/-- The types of the tokens emitted from state `q` on over the rest of the line, where the walk ends at the
terminating NUL. -/
def words : State → List UInt8 → Option (List TokenType)
  | q, [] => if (next q 0).2 = .END then some (next q 0).1 else none
  | q, c :: l => (words (next q c).2 l).map ((next q c).1 ++ ·)

theorem next_ne_end {q : State} {c : UInt8} (hq : q ≠ .END) (hc : c ≠ 0) : (next q c).2 ≠ .END := by
  cases q with
  | END => exact absurd rfl hq
  | NORMAL =>
    rw [next]
    split_ifs <;> exact State.noConfusion
  | _ =>
    rw [next]
    split_ifs <;> exact State.noConfusion

section Walk

variable {s s' : Tokenizer} {n : Nat} {target : List TokenType} {l : List UInt8}

/-- The walk is on its way to the tokens `target`, and has not been behind index `n`. -/
structure OnLine (n : Nat) (target : List TokenType) (s : Tokenizer) (l : List UInt8) (ts : List TokenType) : Prop where
  running : s.state ≠ .END
  line : Ahead s.line 0 s.cur l
  text : 0 ∉ l
  cur : s.cur + l.length = n
  words : words s.state l = some ts
  types : s.types ++ ts = target
  reads : ∀ i ∈ s.reads, i ≤ n

/-- The walk has met the terminating NUL, at index `n`. -/
structure AtEnd (n : Nat) (target : List TokenType) (s : Tokenizer) : Prop where
  state : s.state = .END
  cur : s.cur = n + 1
  types : s.types = target
  reads : ∀ i ∈ s.reads, i ≤ n

/-- The walk has been behind index `n`, or it goes there. -/
def Overrunning (n : Nat) (s : Tokenizer) : Prop :=
  (∃ i ∈ s.reads, n < i) ∨ s.state ≠ .END ∧ (n < s.cur ∨
    ∃ l, Ahead s.line 0 s.cur l ∧ 0 ∉ l ∧ s.cur + l.length = n ∧ words s.state l = none)

theorem step_reads_le (hreads : ∀ i ∈ s.reads, i ≤ n) (hcur : s.cur ≤ n) : ∀ i ∈ s.step.reads, i ≤ n := by
  intro i hi
  rw [s.step_reads] at hi
  rcases List.mem_append.mp hi with hold | hnew
  · exact hreads i hold
  · rw [List.mem_singleton.mp hnew]
    exact hcur

/-- The rest of the line after a turn that is not at its end. -/
theorem ahead_step {c : UInt8} (hline : Ahead s.line 0 s.cur (c :: l)) :
    Ahead s.step.line 0 s.step.cur l ∧ s.step.state = (next s.state c).2 ∧ s.step.types = s.types ++ (next s.state c).1 := by
  have hturn := s.step_turned
  rw [hline.1] at hturn
  exact ⟨hline.2.congr fun i hi => hturn.line i (Nat.ne_of_gt hi), hturn.state, hturn.types⟩

/-- A turn on the way to the tokens. -/
theorem OnLine.step {ts : List TokenType} (h : OnLine n target s l ts) :
    (∃ l' ts', OnLine n target s.step l' ts') ∨ AtEnd n target s.step := by
  have hreads := step_reads_le h.reads (by rw [← h.cur]; exact Nat.le_add_right _ _)
  have hwords := h.words
  cases l with
  | nil =>
    right
    have hturn := s.step_turned
    rw [show s.line s.cur = 0 from h.line] at hturn
    rw [Shell.words] at hwords
    split at hwords
    case isTrue hend =>
      refine ⟨hturn.state.trans hend, congrArg (· + 1) h.cur, ?_, hreads⟩
      rw [hturn.types, Option.some.inj hwords]
      exact h.types
    case isFalse => cases hwords
  | cons c l =>
    left
    obtain ⟨hline, hstate, htypes⟩ := ahead_step h.line
    have hc : c ≠ 0 := fun hc => h.text (hc ▸ List.mem_cons_self ..)
    have hcur : s.cur + (l.length + 1) = n := h.cur
    rw [Shell.words] at hwords
    obtain ⟨ts', hrest, rfl⟩ := Option.map_eq_some_iff.mp hwords
    refine ⟨l, ts', hstate ▸ next_ne_end h.running hc, hline, fun hmem => h.text (List.mem_cons_of_mem _ hmem), ?_,
      hstate ▸ hrest, ?_, hreads⟩
    · show s.cur + 1 + l.length = n
      omega
    · rw [htypes, List.append_assoc]
      exact h.types

/-- A turn on the way behind the line. -/
theorem Overrunning.step (h : Overrunning n s) (hrun : s.state ≠ .END) : Overrunning n s.step := by
  have hsome {i : Nat} (hi : i ∈ s.reads ++ [s.cur]) (hlt : n < i) : Overrunning n s.step :=
    .inl ⟨i, s.step_reads ▸ hi, hlt⟩
  rcases h with ⟨i, hi, hlt⟩ | ⟨-, hlt | ⟨l, hline, htext, hcur, hwords⟩⟩
  · exact hsome (List.mem_append_left _ hi) hlt
  · exact hsome (List.mem_append_right _ (List.mem_singleton_self _)) hlt
  · right
    cases l with
    | nil =>
      have hturn := s.step_turned
      rw [show s.line s.cur = 0 from hline] at hturn
      rw [words] at hwords
      split at hwords
      case isTrue => cases hwords
      case isFalse hend =>
        refine ⟨fun h => hend (hturn.state.symm.trans h), .inl ?_⟩
        exact Nat.lt_succ_of_le (Nat.le_of_eq hcur.symm)
    | cons c l =>
      obtain ⟨hrest, hstate, -⟩ := ahead_step hline
      have hc : c ≠ 0 := fun hc => htext (hc ▸ List.mem_cons_self ..)
      have hcur : s.cur + (l.length + 1) = n := hcur
      refine ⟨hstate ▸ next_ne_end hrun hc, .inr ⟨l, hrest, fun h => htext (List.mem_cons_of_mem _ h), ?_, ?_⟩⟩
      · show s.cur + 1 + l.length = n
        omega
      · rw [hstate]
        rw [words] at hwords
        exact Option.map_eq_none_iff.mp hwords

/-- The walk from a state on its way to the tokens comes to them. -/
theorem OnLine.run {ts : List TokenType} (h : OnLine n target s l ts) :
    ∃ s', (s'.types = target ++ [.END] ∧ ∀ i ∈ s'.reads, i ≤ n) ∧
      ∀ fuel, n + 1 - s.cur < fuel → While.run Tokenizer.loopBody fuel s = some s' := by
  apply While.run_returns Tokenizer.loopBody (fun s => (∃ l ts, OnLine n target s l ts) ∨ AtEnd n target s)
    fun s => n + 1 - s.cur
  · exact .inl ⟨l, ts, h⟩
  · rintro s (⟨l, ts, h⟩ | h)
    · left
      have hcur := h.cur
      refine ⟨s.step, congrArg some (if_neg h.running), h.step, ?_⟩
      show n + 1 - (s.cur + 1) < n + 1 - s.cur
      omega
    · right
      refine ⟨s.emit .null .END, congrArg some (if_pos h.state), ?_, h.reads⟩
      rw [s.emit_types, h.types]

/-- A walk that goes behind the line has been there when it returns. -/
theorem Overrunning.run {fuel : Nat} (h : Overrunning n s) (hrun : While.run Tokenizer.loopBody fuel s = some s') :
    ∃ i ∈ s'.reads, n < i := by
  apply While.run_kept (P := Overrunning n) hrun h
  · intro s s' h hbody
    have hbody := Option.some.inj hbody
    split at hbody
    case isTrue => cases hbody
    case isFalse hrun => exact Sum.inl.inj hbody ▸ h.step hrun
  · intro s s' h hbody
    have hbody := Option.some.inj hbody
    split at hbody
    case isTrue hend =>
      rw [← Sum.inr.inj hbody]
      exact h.resolve_right fun h => h.1 hend
    case isFalse => cases hbody

/-- The blanks in front of the line. -/
def blank (c : UInt8) : Bool := c = SPACE

/-- How far the blanks of the line `text` have been skipped. -/
structure Skipping (line : Nat → UInt8) (text : List UInt8) (s : Tokenizer) (l : List UInt8) : Prop where
  same : s = { Tokenizer.init line with cur := s.cur, reads := s.reads }
  line : Ahead line 0 s.cur l
  cur : s.cur + l.length = text.length
  rest : l.dropWhile blank = text.dropWhile blank
  reads : ∀ i ∈ s.reads, i ≤ text.length

theorem Skipping.read {line : Nat → UInt8} {text l : List UInt8} (h : Skipping line text s l) :
    Skipping line text s.read l := by
  refine ⟨?_, h.line, h.cur, h.rest, fun i hi => ?_⟩
  · have hsame := h.same
    show { s with reads := s.reads ++ [s.cur] } = { Tokenizer.init line with cur := s.cur, reads := s.reads ++ [s.cur] }
    rw [hsame]
  · rcases List.mem_append.mp hi with hold | hnew
    · exact h.reads i hold
    · rw [List.mem_singleton.mp hnew, ← h.cur]
      exact Nat.le_add_right _ _

/-- Skipping blanks ends at the first character that is none. -/
theorem skip_returns {line : Nat → UInt8} {text : List UInt8} (hline : Ahead line 0 0 text) :
    ∃ s, Skipping line text s (text.dropWhile blank) ∧
      ∀ fuel, text.length < fuel → While.run Tokenizer.skipBody fuel (.init line) = some s := by
  apply While.run_returns Tokenizer.skipBody (fun s => ∃ l, Skipping line text s l) (fun s => text.length - s.cur)
    (s := .init line)
  · exact ⟨text, rfl, hline, Nat.zero_add _, rfl, fun i hi => by cases hi⟩
  · rintro s ⟨l, h⟩
    have hmem : s.line = line := by
      rw [h.same]
      rfl
    cases l with
    | nil =>
      right
      have hc : ¬(s.line s.cur ≠ 0 ∧ s.line s.cur = SPACE) := fun hc => hc.1 (hmem ▸ h.line)
      refine ⟨s.read, congrArg some (if_neg hc), ?_⟩
      rw [← h.rest]
      exact h.read
    | cons c l =>
      by_cases hblank : c = SPACE
      · left
        have hc : s.line s.cur ≠ 0 ∧ s.line s.cur = SPACE := by
          rw [hmem, h.line.1, hblank]
          decide
        have hdrop : (c :: l).dropWhile blank = l.dropWhile blank :=
          List.dropWhile_cons_of_pos (decide_eq_true hblank)
        have hcur : s.cur + (l.length + 1) = text.length := h.cur
        have hnext : s.cur + 1 + l.length = text.length := by omega
        refine ⟨{ s.read with cur := s.cur + 1 }, congrArg some (if_pos hc), ⟨l, ?_, h.line.2, hnext, ?_, h.read.reads⟩, ?_⟩
        · exact congrArg (fun t : Tokenizer => { t with cur := s.cur + 1 }) h.read.same
        · rw [← hdrop]
          exact h.rest
        · show text.length - (s.cur + 1) < text.length - s.cur
          omega
      · right
        have hc : ¬(s.line s.cur ≠ 0 ∧ s.line s.cur = SPACE) := fun hc => hblank (h.line.1.symm.trans (hmem ▸ hc.2))
        have hdrop : (c :: l).dropWhile blank = c :: l := List.dropWhile_cons_of_neg fun h => hblank (of_decide_eq_true h)
        refine ⟨s.read, congrArg some (if_neg hc), ?_⟩
        rw [← h.rest, hdrop]
        exact h.read

end Walk

/-- `tokenize`: it returns with the tokens of the line, or goes on behind the line. -/
theorem tokenize_spec {line : Nat → UInt8} {text : List UInt8} (hline : Ahead line 0 0 text) (htext : 0 ∉ text) :
    (∀ ts, words .NORMAL (text.dropWhile blank) = some ts → ∃ s,
      (∀ fuel, text.length + 1 < fuel → tokenize fuel line = some s) ∧ s.types = ts ++ [.END] ∧
        ∀ i ∈ s.reads, i ≤ text.length) ∧
      (words .NORMAL (text.dropWhile blank) = none → ∀ fuel s, tokenize fuel line = some s →
        ∃ i ∈ s.reads, text.length < i) := by
  obtain ⟨s, hskip, hret⟩ := skip_returns hline
  have hstate : s.begin.state = .NORMAL := by
    rw [hskip.same]
    rfl
  have hrunning : s.begin.state ≠ .END := by
    rw [hstate]
    exact State.noConfusion
  have hahead : Ahead s.begin.line 0 s.begin.cur (text.dropWhile blank) := by
    have hmem : s.line = line := by
      rw [hskip.same]
      rfl
    exact hmem ▸ hskip.line
  have htypes : s.begin.types = [] := by
    rw [hskip.same]
    rfl
  have hrest : 0 ∉ text.dropWhile blank := fun h => htext ((List.dropWhile_sublist _).subset h)
  refine ⟨fun ts hts => ?_, fun hnone fuel s' hrun => ?_⟩
  · have hon : OnLine text.length ts s.begin (text.dropWhile blank) ts :=
      ⟨hrunning, hahead, hrest, hskip.cur, hstate ▸ hts, by rw [htypes]; rfl, hskip.reads⟩
    obtain ⟨s', ⟨hend, hreads⟩, hrun⟩ := hon.run
    refine ⟨s', fun fuel hfuel => ?_, hend, hreads⟩
    rw [tokenize, hret fuel (Nat.lt_of_succ_lt hfuel)]
    exact hrun fuel (by omega)
  · obtain ⟨a, ha, hwalk⟩ := Option.bind_eq_some_iff.mp hrun
    rw [← While.run_unique (hret (text.length + 1) (Nat.lt_succ_self _)) ha] at hwalk
    have hover : Overrunning text.length s.begin :=
      .inr ⟨hrunning, .inr ⟨text.dropWhile blank, hahead, hrest, hskip.cur, hstate ▸ hnone⟩⟩
    exact hover.run hwalk

theorem tokenize_unique {fuel fuel' : Nat} {line : Nat → UInt8} {s s' : Tokenizer} (h : tokenize fuel line = some s)
    (h' : tokenize fuel' line = some s') : s = s' := by
  obtain ⟨a, ha, hwalk⟩ := Option.bind_eq_some_iff.mp h
  obtain ⟨a', ha', hwalk'⟩ := Option.bind_eq_some_iff.mp h'
  rw [While.run_unique ha ha'] at hwalk
  exact While.run_unique hwalk hwalk'

end Exaros.Shell
