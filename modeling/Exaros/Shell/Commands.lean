import Exaros.Shell.Tokens

/-!
# The shell's command builder

`parse_commands` takes the token after a redirection as its file, whatever that token is, and goes on after it. Where
the redirection is the last token this is the one that ends them, and the loops are behind it. A line is parsed within
its buffer and its tokens exactly when it is a sentence of the grammar `Sentence`: no quote left open, no operator at
the very end, and no redirection without a token after it.
-/

namespace Exaros.Shell

structure Command where
  argc : Nat
  argv : Nat → Content
  fileIn : Content
  fileOut : Content
  fileAppend : Content

/-- The counters and the commands, with the indices of `tokens` that have been read. -/
structure Parser where
  tokenCur : Nat
  commandCur : Nat
  commands : Nat → Command
  reads : List Nat

namespace Parser

def read (p : Parser) : Parser := { p with reads := p.reads ++ [p.tokenCur] }

/-- `token_cur++` -/
def advance (p : Parser) : Parser := { p with tokenCur := p.tokenCur + 1 }

/-- A change of `commands[command_cur]`. -/
def modify (p : Parser) (f : Command → Command) : Parser :=
  { p with commands := fun i => if i = p.commandCur then f (p.commands i) else p.commands i }

/-- `commands[command_cur].argv[commands[command_cur].argc++] = content;` -/
def pushArg (p : Parser) (content : Content) : Parser :=
  p.modify fun c => { c with argc := c.argc + 1, argv := fun i => if i = c.argc then content else c.argv i }

/-- What the inner loop does with a token, up to its `token_cur++`. -/
def take (p : Parser) (tokens : Nat → Token) : Parser :=
  let t := tokens p.tokenCur
  match t.type with
  | .NORMAL => p.pushArg t.content
  | .IN_REDIRECT =>
    let p := p.advance.read
    p.modify fun c => { c with fileIn := (tokens p.tokenCur).content }
  | .OUT_REDIRECT =>
    let p := p.advance.read
    p.modify fun c => { c with fileOut := (tokens p.tokenCur).content }
  | .OUT_APPEND =>
    let p := p.advance.read
    p.modify fun c => { c with fileAppend := (tokens p.tokenCur).content }
  | .PIPE => p
  | .END => p

/-- `argv[argc++] = NULL; command_cur++;` -/
def finish (p : Parser) : Parser := { p.pushArg .null with commandCur := p.commandCur + 1 }

/-- `if (tokens[token_cur].type == TYPE_PIPE) token_cur++;` -/
def skipPipe (p : Parser) (tokens : Nat → Token) : Parser :=
  if (tokens p.tokenCur).type = .PIPE then p.read.advance else p.read

end Parser

/-- A turn of the inner loop of `parse_commands`. -/
def Parser.argBody (tokens : Nat → Token) (p : Parser) : Option (Parser ⊕ Parser) :=
  some (if (tokens p.tokenCur).type = .END ∨ (tokens p.tokenCur).type = .PIPE then .inr p.read
    else .inl (p.read.take tokens).advance)

/-- A turn of the outer loop. -/
def Parser.commandBody (fuel : Nat) (tokens : Nat → Token) (p : Parser) : Option (Parser ⊕ Parser) :=
  if (tokens p.tokenCur).type = .END then some (.inr p.read)
  else (While.run (Parser.argBody tokens) fuel p.read).map fun p => .inl (p.finish.skipPipe tokens)

/-- What `init` makes of `commands`. -/
def zeroCommand : Command := ⟨0, fun _ => .null, .null, .null, .null⟩

/-- `parse_commands`, after `init`; `none` when a loop of it goes on after `fuel` turns. -/
def parseCommands (fuel : Nat) (tokens : Nat → Token) : Option Parser :=
  While.run (Parser.commandBody fuel tokens) fuel ⟨0, 0, fun _ => zeroCommand, []⟩

/-! ## The loops -/

def TokenType.redirects : TokenType → Bool
  | .IN_REDIRECT => true
  | .OUT_REDIRECT => true
  | .OUT_APPEND => true
  | _ => false

/-- Every redirection has a token for its file; `owed`: so has one in front of these. -/
def Paired : Bool → List TokenType → Prop
  | owed, [] => owed = false
  | true, _ :: ts => Paired false ts
  | false, t :: ts => Paired t.redirects ts

/-- The tokens from index `x` on have the types `ts`, and the one behind them ends them. -/
def Typed (tokens : Nat → Token) (x : Nat) (ts : List TokenType) : Prop :=
  Ahead (fun i => (tokens i).type) .END x ts ∧ .END ∉ ts

section Loops

variable {tokens : Nat → Token} {fuel e x : Nat} {p p' : Parser} {ts : List TokenType}

theorem Typed.tail {t : TokenType} (h : Typed tokens x (t :: ts)) : Typed tokens (x + 1) ts :=
  ⟨h.1.2, fun hmem => h.2 (List.mem_cons_of_mem _ hmem)⟩

/-- A turn of the inner loop: a redirection takes two tokens. -/
theorem take_spec (p : Parser) (tokens : Nat → Token) :
    (p.read.take tokens).advance.tokenCur = p.tokenCur + (if (tokens p.tokenCur).type.redirects then 2 else 1) ∧
      (p.read.take tokens).advance.reads =
        p.reads ++ [p.tokenCur] ++ (if (tokens p.tokenCur).type.redirects then [p.tokenCur + 1] else []) := by
  have hcur : p.read.tokenCur = p.tokenCur := rfl
  unfold Parser.take
  dsimp only
  rw [hcur]
  cases htype : (tokens p.tokenCur).type with
  | IN_REDIRECT => exact ⟨rfl, rfl⟩
  | OUT_REDIRECT => exact ⟨rfl, rfl⟩
  | OUT_APPEND => exact ⟨rfl, rfl⟩
  | _ => exact ⟨rfl, (List.append_nil _).symm⟩

/-- The builder has paired tokens in front of it, up to the one that ends them at index `e`, and has not been behind it. -/
structure Within (tokens : Nat → Token) (e : Nat) (p : Parser) (ts : List TokenType) : Prop where
  typed : Typed tokens p.tokenCur ts
  cur : p.tokenCur + ts.length = e
  paired : Paired false ts
  reads : ∀ i ∈ p.reads, i ≤ e

/-- The builder has been behind index `e`, or it goes there. -/
def Passing (tokens : Nat → Token) (e : Nat) (p : Parser) : Prop :=
  (∃ i ∈ p.reads, e < i) ∨ e < p.tokenCur ∨
    ∃ ts, Typed tokens p.tokenCur ts ∧ p.tokenCur + ts.length = e ∧ ¬Paired false ts

theorem Within.read (h : Within tokens e p ts) : Within tokens e p.read ts := by
  refine ⟨h.typed, h.cur, h.paired, fun i hi => ?_⟩
  rcases List.mem_append.mp hi with hold | hnew
  · exact h.reads i hold
  · rw [List.mem_singleton.mp hnew, ← h.cur]
    exact Nat.le_add_right _ _

theorem Passing.read (h : Passing tokens e p) : Passing tokens e p.read := by
  rcases h with ⟨i, hi, hlt⟩ | h
  · exact .inl ⟨i, List.mem_append_left _ hi, hlt⟩
  · exact .inr h

/-- A turn of the inner loop within the tokens. -/
theorem Within.take (h : Within tokens e p ts)
    (hturn : ¬((tokens p.tokenCur).type = .END ∨ (tokens p.tokenCur).type = .PIPE)) :
    (∃ ts', Within tokens e (p.read.take tokens).advance ts') ∧
      p.tokenCur < (p.read.take tokens).advance.tokenCur ∧ p.tokenCur < e := by
  obtain ⟨htyped, hcur, hpaired, hreads⟩ := h
  obtain ⟨hnext, hread⟩ := take_spec p tokens
  cases ts with
  | nil => exact absurd (.inl htyped.1) hturn
  | cons t ts =>
    have ht : (tokens p.tokenCur).type = t := htyped.1.1
    have hcur : p.tokenCur + (ts.length + 1) = e := hcur
    rw [ht] at hnext hread
    have hle (i : Nat) (hi : i ∈ p.reads ++ [p.tokenCur]) : i ≤ e := by
      rcases List.mem_append.mp hi with hold | hnew
      · exact hreads i hold
      · rw [List.mem_singleton.mp hnew]
        omega
    cases hred : t.redirects with
    | false =>
      rw [hred] at hnext hread
      have hnext : (p.read.take tokens).advance.tokenCur = p.tokenCur + 1 := hnext
      have hpaired : Paired false ts := (congrArg (Paired · ts) hred).mp hpaired
      refine ⟨⟨ts, hnext ▸ htyped.tail, by omega, hpaired, fun i hi => hle i ?_⟩, by omega, by omega⟩
      rw [hread] at hi
      simpa using hi
    | true =>
      rw [hred] at hnext hread
      have hnext : (p.read.take tokens).advance.tokenCur = p.tokenCur + 2 := hnext
      have hpaired : Paired true ts := (congrArg (Paired · ts) hred).mp hpaired
      cases ts with
      | nil => cases hpaired
      | cons u ts =>
        have hcur : p.tokenCur + (ts.length + 1 + 1) = e := hcur
        refine ⟨⟨ts, hnext ▸ htyped.tail.tail, by omega, hpaired, fun i hi => ?_⟩, by omega, by omega⟩
        rw [hread] at hi
        rcases List.mem_append.mp hi with hold | hnew
        · exact hle i hold
        · have hi : i = p.tokenCur + 1 := List.mem_singleton.mp hnew
          omega

/-- A turn of the inner loop on the way behind the tokens. -/
theorem Passing.take (h : Passing tokens e p)
    (hturn : ¬((tokens p.tokenCur).type = .END ∨ (tokens p.tokenCur).type = .PIPE)) :
    Passing tokens e (p.read.take tokens).advance := by
  obtain ⟨hnext, hread⟩ := take_spec p tokens
  rcases h with ⟨i, hi, hlt⟩ | hlt | ⟨ts, htyped, hcur, hpaired⟩
  · refine .inl ⟨i, ?_, hlt⟩
    rw [hread]
    exact List.mem_append_left _ (List.mem_append_left _ hi)
  · right
    left
    rw [hnext]
    exact Nat.lt_of_lt_of_le hlt (Nat.le_add_right _ _)
  · cases ts with
    | nil => exact absurd (.inl htyped.1) hturn
    | cons t ts =>
      have ht : (tokens p.tokenCur).type = t := htyped.1.1
      have hcur : p.tokenCur + (ts.length + 1) = e := hcur
      rw [ht] at hnext hread
      right
      cases hred : t.redirects with
      | false =>
        rw [hred] at hnext
        have hnext : (p.read.take tokens).advance.tokenCur = p.tokenCur + 1 := hnext
        have hpaired : ¬Paired false ts := fun h => hpaired ((congrArg (Paired · ts) hred).mpr h)
        exact .inr ⟨ts, hnext ▸ htyped.tail, by omega, hpaired⟩
      | true =>
        rw [hred] at hnext
        have hnext : (p.read.take tokens).advance.tokenCur = p.tokenCur + 2 := hnext
        have hpaired : ¬Paired true ts := fun h => hpaired ((congrArg (Paired · ts) hred).mpr h)
        cases ts with
        | nil =>
          left
          have hcur : p.tokenCur + 1 = e := hcur
          omega
        | cons u ts =>
          have hcur : p.tokenCur + (ts.length + 1 + 1) = e := hcur
          exact .inr ⟨ts, hnext ▸ htyped.tail.tail, by omega, hpaired⟩

/-- The inner loop stays within paired tokens, and ends at a pipe or behind them. -/
theorem Within.argLoop (h : Within tokens e p ts) :
    ∃ p', (∃ ts', Within tokens e p' ts' ∧ (ts' = [] ∨ ∃ r, ts' = .PIPE :: r) ∧ p.tokenCur ≤ p'.tokenCur) ∧
      ∀ fuel, e - p.tokenCur < fuel → While.run (Parser.argBody tokens) fuel p = some p' := by
  apply While.run_returns (Parser.argBody tokens) (fun q => ∃ ts', Within tokens e q ts' ∧ p.tokenCur ≤ q.tokenCur)
    fun q => e - q.tokenCur
  · exact ⟨ts, h, Nat.le_refl _⟩
  · rintro q ⟨ts, h, hle⟩
    by_cases hdone : (tokens q.tokenCur).type = .END ∨ (tokens q.tokenCur).type = .PIPE
    · right
      refine ⟨q.read, congrArg some (if_pos hdone), ts, h.read, ?_, hle⟩
      cases ts with
      | nil => exact .inl rfl
      | cons t ts =>
        have ht : (tokens q.tokenCur).type = t := h.typed.1.1
        rw [ht] at hdone
        rcases hdone with hend | hpipe
        · exact absurd (hend ▸ List.mem_cons_self ..) h.typed.2
        · exact .inr ⟨ts, by rw [hpipe]⟩
    · left
      obtain ⟨⟨ts', hnext⟩, hlt, hbefore⟩ := h.take hdone
      exact ⟨_, congrArg some (if_neg hdone), ⟨ts', hnext, by omega⟩, by omega⟩

theorem Passing.argLoop (h : Passing tokens e p) (hrun : While.run (Parser.argBody tokens) fuel p = some p') :
    Passing tokens e p' := by
  apply While.run_kept (P := Passing tokens e) hrun h
  · intro q q' h hbody
    have hbody := Option.some.inj hbody
    split at hbody
    case isTrue => cases hbody
    case isFalse hturn => exact Sum.inl.inj hbody ▸ h.take hturn
  · intro q q' h hbody
    have hbody := Option.some.inj hbody
    split at hbody
    case isTrue => exact Sum.inr.inj hbody ▸ h.read
    case isFalse => cases hbody

/-- The end of a command within the tokens, where the inner loop has come to. -/
theorem Within.skipPipe (h : Within tokens e p ts) (hend : ts = [] ∨ ∃ r, ts = .PIPE :: r) :
    (∃ ts', Within tokens e (p.finish.skipPipe tokens) ts') ∧
      (p.tokenCur = e ∧ (p.finish.skipPipe tokens).tokenCur = e ∨
        (p.finish.skipPipe tokens).tokenCur = p.tokenCur + 1) := by
  have hsame : (tokens p.finish.tokenCur).type = (tokens p.tokenCur).type := rfl
  have hread := h.read
  rcases hend with rfl | ⟨r, rfl⟩
  · have hpipe : ¬(tokens p.finish.tokenCur).type = .PIPE := by
      rw [hsame, show (tokens p.tokenCur).type = .END from h.typed.1]
      exact TokenType.noConfusion
    rw [Parser.skipPipe, if_neg hpipe]
    exact ⟨⟨[], hread.typed, hread.cur, hread.paired, hread.reads⟩, .inl ⟨h.cur, h.cur⟩⟩
  · have hpipe : (tokens p.finish.tokenCur).type = .PIPE := hsame.trans h.typed.1.1
    have hcur : p.tokenCur + (r.length + 1) = e := h.cur
    have hnext : p.tokenCur + 1 + r.length = e := by omega
    rw [Parser.skipPipe, if_pos hpipe]
    exact ⟨⟨r, hread.typed.tail, hnext, hread.paired, hread.reads⟩, .inr rfl⟩

theorem Passing.skipPipe (h : Passing tokens e p) : Passing tokens e (p.finish.skipPipe tokens) := by
  unfold Parser.skipPipe
  rcases h with ⟨i, hi, hlt⟩ | hlt | ⟨ts, htyped, hcur, hpaired⟩
  · split
    · exact .inl ⟨i, List.mem_append_left _ hi, hlt⟩
    · exact .inl ⟨i, List.mem_append_left _ hi, hlt⟩
  · split
    · exact .inr (.inl (Nat.lt_succ_of_lt hlt))
    · exact .inr (.inl hlt)
  · split
    case isTrue hpipe =>
      cases ts with
      | nil => exact absurd (hpipe.symm.trans htyped.1) TokenType.noConfusion
      | cons t ts =>
        have ht : t = .PIPE := htyped.1.1.symm.trans hpipe
        have hcur : p.tokenCur + (ts.length + 1) = e := hcur
        have hnext : p.tokenCur + 1 + ts.length = e := by omega
        rw [ht] at hpaired
        exact .inr (.inr ⟨ts, htyped.tail, hnext, hpaired⟩)
    case isFalse => exact .inr (.inr ⟨ts, htyped, hcur, hpaired⟩)

/-- Paired tokens are built into commands without a look behind them. -/
theorem Within.commandLoop (h : Within tokens e p ts) (hfuel : e < fuel) :
    ∃ p', (∀ i ∈ p'.reads, i ≤ e) ∧ While.run (Parser.commandBody fuel tokens) fuel p = some p' := by
  have hreturns : ∃ p', (∀ i ∈ p'.reads, i ≤ e) ∧
      ∀ turns, e - p.tokenCur < turns → While.run (Parser.commandBody fuel tokens) turns p = some p' := by
    apply While.run_returns (Parser.commandBody fuel tokens) (fun q => ∃ ts', Within tokens e q ts')
      fun q => e - q.tokenCur
    · exact ⟨ts, h⟩
    · rintro q ⟨ts, h⟩
      by_cases hdone : (tokens q.tokenCur).type = .END
      · exact .inr ⟨q.read, if_pos hdone, h.read.reads⟩
      · left
        have hcur := h.cur
        have hlt : q.tokenCur < e := by
          cases ts with
          | nil => exact absurd h.typed.1 hdone
          | cons t ts =>
            have hcur : q.tokenCur + (ts.length + 1) = e := hcur
            omega
        obtain ⟨q', ⟨ts', h', hend, hle⟩, hrun⟩ := h.read.argLoop
        have hle : q.tokenCur ≤ q'.tokenCur := hle
        have hinner : While.run (Parser.argBody tokens) fuel q.read = some q' :=
          hrun fuel (Nat.lt_of_le_of_lt (Nat.sub_le _ _) hfuel)
        obtain ⟨hnext, hmoved⟩ := h'.skipPipe hend
        refine ⟨q'.finish.skipPipe tokens, ?_, hnext, by omega⟩
        rw [Parser.commandBody, if_neg hdone, hinner]
        rfl
  obtain ⟨p', hreads, hrun⟩ := hreturns
  exact ⟨p', hreads, hrun fuel (Nat.lt_of_le_of_lt (Nat.sub_le _ _) hfuel)⟩

/-- A command builder past the end of its tokens reads on. -/
theorem Passing.commandLoop {turns : Nat} (h : Passing tokens e p)
    (hrun : While.run (Parser.commandBody fuel tokens) turns p = some p') : ∃ i ∈ p'.reads, e < i := by
  apply While.run_kept (P := Passing tokens e) hrun h
  · intro q q' h hbody
    rw [Parser.commandBody] at hbody
    split at hbody
    case isTrue => cases hbody
    case isFalse =>
      obtain ⟨a, ha, hnext⟩ := Option.map_eq_some_iff.mp hbody
      rw [← Sum.inl.inj hnext]
      exact (h.read.argLoop ha).skipPipe
  · intro q q' h hbody
    rw [Parser.commandBody] at hbody
    split at hbody
    case isTrue hend =>
      rw [← Sum.inr.inj (Option.some.inj hbody)]
      rcases h.read with hread | hlt | ⟨ts, htyped, hcur, hpaired⟩
      · exact hread
      · exact ⟨q.tokenCur, List.mem_append_right _ (List.mem_singleton_self _), hlt⟩
      · cases ts with
        | nil => exact absurd rfl hpaired
        | cons t ts => exact absurd (htyped.1.1.symm.trans hend ▸ List.mem_cons_self ..) htyped.2
    case isFalse =>
      obtain ⟨a, ha, hnext⟩ := Option.map_eq_some_iff.mp hbody
      cases hnext

end Loops

/-- `parse_commands` stays within its tokens exactly when each redirection of them has a token behind it. -/
theorem parseCommands_iff {tokens : Nat → Token} {ts : List TokenType} (h : Typed tokens 0 ts) :
    (∃ fuel p, parseCommands fuel tokens = some p ∧ ∀ i ∈ p.reads, i ≤ ts.length) ↔ Paired false ts := by
  constructor
  · rintro ⟨fuel, p, hrun, hreads⟩
    by_contra hpaired
    have hpass : Passing tokens ts.length ⟨0, 0, fun _ => zeroCommand, []⟩ :=
      .inr (.inr ⟨ts, h, Nat.zero_add _, hpaired⟩)
    obtain ⟨i, hi, hlt⟩ := hpass.commandLoop hrun
    exact Nat.not_lt.mpr (hreads i hi) hlt
  · intro hpaired
    have hwithin : Within tokens ts.length ⟨0, 0, fun _ => zeroCommand, []⟩ ts :=
      ⟨h, Nat.zero_add _, hpaired, fun i hi => by cases hi⟩
    obtain ⟨p, hreads, hrun⟩ := hwithin.commandLoop (Nat.lt_succ_self _)
    exact ⟨_, p, hrun, hreads⟩

end Exaros.Shell
