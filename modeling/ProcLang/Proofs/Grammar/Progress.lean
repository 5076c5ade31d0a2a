import ProcLang.Proofs.Grammar.Soundness

/-!
# Reading makes progress

A stream may be read by any of eight rules, in any order and also after faults
(`TokenStream.enterAll`). Whatever its tokens are, and wherever the end of the text stands
among them, a rule only takes tokens from the front, and one that succeeds takes at least
one of them, unless it reads as many parts as there are. The two rules that do so stop at a
token that cannot start a part, and they take a token for each part
(`Reading.stops_of_repeated`), so they go round at most once for each token
(`TokenStream.enterAll_progresses`).

That a rule comes to an end at all is part of its definition: it calls others on fewer
tokens, which a reading proves of itself.
-/

set_option autoImplicit false

namespace ProcLang

/-- **Repetition stops.** A rule that repeats another one as long as it can stops where it
cannot, and has taken a token for each value. -/
theorem Reading.stops_of_repeated {α : Type} {ends : List Token → Bool}
    {once : (tokens : List Token) → Reading 1 tokens α}
    {repeated : (tokens : List Token) → Reading 0 tokens (List α)}
    (unrolled : ∀ tokens, repeated tokens =
      if ends tokens then .pure []
      else .weaken 0 ((once tokens).bind fun first rest _ => (repeated rest).map (first :: ·)))
    (tokens : List Token) {values : List α} (read : (repeated tokens).outcome = .ok values) :
    ends (repeated tokens).rest ∧
      (repeated tokens).rest.length + values.length ≤ tokens.length := by
  rw [unrolled] at read ⊢
  split at read
  next done =>
    rw [if_pos done]
    obtain rfl : [] = values := Except.ok.inj read
    exact ⟨done, Nat.le_refl _⟩
  next goesOn =>
    rw [if_neg goesOn]
    obtain ⟨first, fewer, -, outcome, left⟩ := exists_of_bind read
    have rest : (weaken 0 ((once tokens).bind fun first rest _ =>
        (repeated rest).map (first :: ·))).rest = (repeated (once tokens).rest).rest := left
    rw [rest]
    simp only [Reading.map] at outcome
    split at outcome
    next others later =>
      obtain rfl : first :: others = values := Except.ok.inj outcome
      obtain ⟨stops, counted⟩ := stops_of_repeated unrolled (once tokens).rest later
      rw [List.length_cons]
      exact ⟨stops, by omega⟩
    next => cases outcome
termination_by tokens.length

namespace Grammar

variable {finish : Location} {tokens : List Token}

theorem stops_statements {body : List Node}
    (read : (statements finish tokens).outcome = .ok body) :
    endsStatements (statements finish tokens).rest ∧
      (statements finish tokens).rest.length + body.length ≤ tokens.length :=
  Reading.stops_of_repeated (fun tokens => statements.eq_1 finish tokens) tokens read

theorem stops_items {trees : List Node} (read : (items finish tokens).outcome = .ok trees) :
    endsProgram (items finish tokens).rest ∧
      (items finish tokens).rest.length + trees.length ≤ tokens.length :=
  Reading.stops_of_repeated (fun tokens => items.eq_1 finish tokens) tokens read

end Grammar

namespace TokenStream

/-- A rule by which a stream can be read. -/
inductive EntryPoint where
  | program
  | item
  | procedure
  | statement
  | expression
  | unary
  | declarations
  | statements
  deriving DecidableEq, Repr

namespace EntryPoint

/-- What is read by a rule. -/
def Value : EntryPoint → Type
  | declarations => List Declaration
  | statements => List Node
  | _ => Node

/-- The number of tokens that a rule takes at least. -/
def least : EntryPoint → Nat
  | program | statements => 0
  | _ => 1

/-- The rule of the grammar. -/
def rule : (entry : EntryPoint) → Location → (tokens : List Token) →
    Reading entry.least tokens entry.Value
  | program => Grammar.program
  | item => Grammar.item
  | procedure => Grammar.procedure
  | statement => Grammar.statement
  | expression => Grammar.expression
  | unary => Grammar.unary
  | declarations => Grammar.declarations
  | statements => Grammar.statements

/-- How often a rule has gone round: once for each item or statement, if it repeats. -/
def rounds : (entry : EntryPoint) → entry.Value → Nat
  | program, .program items => items.length
  | program, _ => 0
  | statements, body => body.length
  | _, _ => 1

end EntryPoint

/-- The kind of the token that comes next. -/
def next? (stream : TokenStream) : Option TokenKind :=
  stream.tokens.head?.map Token.kind

/-- Read a stream by a rule. -/
def enter (stream : TokenStream) (entry : EntryPoint) : Result entry.Value :=
  stream.read entry.rule

/-- What is left of a stream that is read by one rule after the other, whether they succeed
or fail. -/
def enterAll (stream : TokenStream) : List EntryPoint → TokenStream
  | [] => stream
  | entry :: later => (stream.enter entry).stream.enterAll later

variable {stream : TokenStream} {entry : EntryPoint}

theorem suffix_enter (stream : TokenStream) (entry : EntryPoint) :
    (stream.enter entry).stream.tokens <:+ stream.tokens :=
  (entry.rule stream.finish stream.tokens).suffix

theorem suffix_enterAll (stream : TokenStream) (entries : List EntryPoint) :
    (stream.enterAll entries).tokens <:+ stream.tokens := by
  induction entries generalizing stream with
  | nil => exact List.suffix_rfl
  | cons entry later ih => exact (ih _).trans (stream.suffix_enter entry)

/-- A rule that does not repeat takes a token if it succeeds. -/
theorem length_enter_lt {value : entry.Value} (single : 0 < entry.least)
    (read : (stream.enter entry).outcome = .ok value) :
    (stream.enter entry).stream.tokens.length < stream.tokens.length :=
  Nat.lt_of_lt_of_le (Nat.lt_add_of_pos_right single)
    ((entry.rule stream.finish stream.tokens).taken value read)

theorem endsStatements_iff :
    Grammar.endsStatements stream.tokens ↔ stream.next? ∈
      [some (.keyword .kwEnd), some (.keyword .kwElse), some .endOfFile, none] := by
  rcases stream with ⟨_ | ⟨⟨kind, span⟩, rest⟩, finish⟩
  · simp [Grammar.endsStatements, next?]
  · cases kind with
    | keyword word => cases word <;> simp [Grammar.endsStatements, next?]
    | _ => simp [Grammar.endsStatements, next?]

theorem endsProgram_iff :
    Grammar.endsProgram stream.tokens ↔ stream.next? ∈ [some .endOfFile, none] := by
  rcases stream with ⟨_ | ⟨⟨kind, span⟩, rest⟩, finish⟩ <;> simp [Grammar.endsProgram, next?]

theorem stops_enter_statements {body : List Node}
    (read : (stream.enter .statements).outcome = .ok body) :
    (stream.enter .statements).stream.next? ∈
        [some (.keyword .kwEnd), some (.keyword .kwElse), some .endOfFile, none] ∧
      (stream.enter .statements).stream.tokens.length + body.length ≤ stream.tokens.length :=
  (Grammar.stops_statements read).imp_left endsStatements_iff.mp

theorem stops_enter_program {tree : Node} (read : (stream.enter .program).outcome = .ok tree) :
    (stream.enter .program).stream.next? ∈ [some .endOfFile, none] ∧
      (stream.enter .program).stream.tokens.length + EntryPoint.program.rounds tree ≤
        stream.tokens.length := by
  obtain ⟨trees, fewer, done, reported, left⟩ := Reading.exists_of_bind read
  obtain rfl : Node.program trees = tree := Except.ok.inj reported
  have rest : (stream.enter .program).stream.tokens =
      (Grammar.items stream.finish stream.tokens).rest := left
  obtain ⟨ends, counted⟩ := Grammar.stops_items done
  rw [← rest] at ends counted
  exact ⟨endsProgram_iff.mp ends, counted⟩

/-- **Every step makes progress.** However tokens have been read before, the next rule
leaves a suffix of what was left. If it succeeds it has gone round at most once for each
token that it took. It has taken one, unless it repeats, and then it stops at the end of the
tokens or where the text ends; statements also stop at the words that end a block. -/
theorem enterAll_progresses (tokens : List Token) (earlier : List EntryPoint)
    (entry : EntryPoint) :
    let before := (ofTokens tokens).enterAll earlier
    let step := before.enter entry
    before.tokens <:+ tokens ∧ step.stream.tokens <:+ before.tokens ∧
      ∀ value, step.outcome = .ok value →
        step.stream.tokens.length + entry.rounds value ≤ before.tokens.length ∧
        (entry ≠ .program → entry ≠ .statements →
          step.stream.tokens.length < before.tokens.length) ∧
        (entry = .statements → step.stream.next? ∈
          [some (.keyword .kwEnd), some (.keyword .kwElse), some .endOfFile, none]) ∧
        (entry = .program → step.stream.next? ∈ [some .endOfFile, none]) := by
  intro before step
  refine ⟨suffix_enterAll _ earlier, before.suffix_enter entry, fun value read => ?_⟩
  cases entry with
  | program =>
      obtain ⟨stops, counted⟩ := stops_enter_program read
      exact ⟨counted, by simp, by simp, fun _ => stops⟩
  | statements =>
      obtain ⟨stops, counted⟩ := stops_enter_statements read
      exact ⟨counted, by simp, fun _ => stops, by simp⟩
  | _ =>
      have taken := length_enter_lt (by decide) read
      exact ⟨taken, fun _ _ => taken, by simp, by simp⟩

/-- An assignment behind a stray sign and before an early end of the text. -/
def strayTokens : List Token :=
  unplaced [.symbol .plus, .identifier "x", .symbol .assign, .integer 1, .endOfFile,
    .symbol .semicolon]

/-- After two faults, of which one leaves the sign and the other takes it, the assignment is
read, and reading stops at the end of the text. -/
theorem enterAll_progresses_stray :
    let before := (ofTokens strayTokens).enterAll [.item, .procedure]
    let step := before.enter .statements
    before.tokens.length = 5 ∧ step.outcome = .ok [.assign (.reference "x") (.constant 1)] ∧
      step.stream.tokens.length + 1 ≤ before.tokens.length ∧
      step.stream.next? ∈
        [some (.keyword .kwEnd), some (.keyword .kwElse), some .endOfFile, none] := by
  intro before step
  have read : step.outcome = .ok [.assign (.reference "x") (.constant 1)] := by
    with_unfolding_all rfl
  obtain ⟨-, -, progresses⟩ := enterAll_progresses strayTokens [.item, .procedure] .statements
  obtain ⟨counted, -, stops, -⟩ := progresses _ read
  exact ⟨by with_unfolding_all rfl, read, counted, stops rfl⟩

end TokenStream

end ProcLang
