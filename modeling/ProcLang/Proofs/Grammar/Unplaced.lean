import ProcLang.Grammar.Program

/-!
# Reading without places

The rules of the grammar look at the kinds of tokens. Where a token stands is only
copied into faults. So forgetting all places and then reading is the same as reading
and then forgetting the places in what was read (`Grammar.program_unplaced`), and two
texts whose tokens are of the same kinds have the same tree, or the same fault in
different places (`parseUnplaced_eq_of_kinds`).
-/

set_option autoImplicit false

namespace ProcLang

/-- The place of a token whose place is forgotten. -/
def Location.nowhere : Location := ⟨"", 0, 0⟩

/-- A token whose place is forgotten. -/
def Token.unplaced (token : Token) : Token :=
  ⟨token.kind, .nowhere, .nowhere⟩

/-- A fault whose place is forgotten. -/
def SyntaxFault.unplaced : SyntaxFault → SyntaxFault
  | .unexpectedToken expected found => .unexpectedToken expected found.unplaced
  | .unexpectedEnd expected _ => .unexpectedEnd expected .nowhere
  | .brokenCondition condition _ => .brokenCondition condition .nowhere

/-- A reported failure whose place is forgotten. -/
def Diagnostic.unplaced : Diagnostic → Diagnostic
  | .lexical _ message => .lexical .nowhere message
  | .grammatical _ message => .grammatical .nowhere message
  | other => other

/-- The message of a fault does not tell its place. -/
theorem SyntaxFault.diagnostic_unplaced (fault : SyntaxFault) :
    fault.unplaced.diagnostic = fault.diagnostic.unplaced := by
  cases fault <;> rfl

namespace Reading

variable {α β : Type} {least more : Nat} {tokens tokens' : List Token}

/-- One reading is what is left of another if its places are forgotten. -/
structure UnplacedIs (reading : Reading least tokens α) (bare : Reading least tokens' α) :
    Prop where
  outcome : bare.outcome = reading.outcome.mapError SyntaxFault.unplaced
  rest : bare.rest = reading.rest.map Token.unplaced
  events : bare.events = reading.events

section Combinations

variable {reading : Reading least tokens α} {bare : Reading least tokens' α}

theorem unplacedIs_pure (value : α) :
    (pure value : Reading 0 tokens α).UnplacedIs
      (pure value : Reading 0 (tokens.map Token.unplaced) α) :=
  ⟨rfl, rfl, rfl⟩

theorem unplacedIs_fail (fault : SyntaxFault) :
    (fail fault : Reading least tokens α).UnplacedIs
      (fail fault.unplaced : Reading least (tokens.map Token.unplaced) α) :=
  ⟨rfl, rfl, rfl⟩

theorem unplacedIs_failAfter (token : Token) (fault : SyntaxFault) :
    (failAfter token fault : Reading least (token :: tokens) α).UnplacedIs
      (failAfter token.unplaced fault.unplaced :
        Reading least (token.unplaced :: tokens.map Token.unplaced) α) :=
  ⟨rfl, rfl, rfl⟩

theorem unplacedIs_take (token : Token) (value : α) :
    (take token value : Reading 1 (token :: tokens) α).UnplacedIs
      (take token.unplaced value : Reading 1 (token.unplaced :: tokens.map Token.unplaced) α) :=
  ⟨rfl, rfl, rfl⟩

theorem unplacedIs_report (event : Event) (value : α) :
    (report event value : Reading 0 tokens α).UnplacedIs
      (report event value : Reading 0 (tokens.map Token.unplaced) α) :=
  ⟨rfl, rfl, rfl⟩

theorem unplacedIs_check {checked checked' : Except SyntaxFault α}
    (same : checked' = checked.mapError SyntaxFault.unplaced) :
    (check checked : Reading 0 tokens α).UnplacedIs
      (check checked' : Reading 0 (tokens.map Token.unplaced) α) := by
  subst same
  cases checked with
  | ok value => exact unplacedIs_pure value
  | error fault => exact unplacedIs_fail fault

theorem UnplacedIs.map (is : reading.UnplacedIs bare) (f : α → β) :
    (reading.map f).UnplacedIs (bare.map f) := by
  obtain ⟨outcome, rest, events⟩ := is
  refine ⟨?_, rest, events⟩
  simp only [Reading.map, outcome]
  cases reading.outcome <;> rfl

theorem UnplacedIs.after (is : reading.UnplacedIs bare) (token token' : Token) :
    (reading.after token).UnplacedIs (bare.after token') :=
  ⟨is.outcome, is.rest, is.events⟩

theorem UnplacedIs.weaken {fewer : Nat} {le le' : Nat.ble fewer least = true}
    (is : reading.UnplacedIs bare) : (reading.weaken fewer le).UnplacedIs (bare.weaken fewer le') :=
  ⟨is.outcome, is.rest, is.events⟩

end Combinations

theorem UnplacedIs.bind {first : Reading least tokens α} {first' : Reading least tokens' α}
    {second : (value : α) → (rest : List Token) → rest.length + least ≤ tokens.length →
      Reading more rest β}
    {second' : (value : α) → (rest : List Token) → rest.length + least ≤ tokens'.length →
      Reading more rest β}
    (is : first.UnplacedIs first')
    (next : ∀ value rest fewer fewer', (second value rest fewer).UnplacedIs
      (second' value (rest.map Token.unplaced) fewer')) :
    (first.bind second).UnplacedIs (first'.bind second') := by
  obtain ⟨outcome', rest', events', suffix', taken'⟩ := first'
  obtain ⟨same, rfl, rfl⟩ := is
  cases done : first.outcome with
  | error fault =>
      rw [done] at same
      obtain ⟨outcome, rest, events⟩ := @bind_of_error _ _ _ _ _ _ second _ done
      obtain ⟨outcome', rest', events'⟩ := @bind_of_error _ _ _ _ _ _ second' _ same
      exact ⟨by rw [outcome', outcome]; rfl, by rw [rest', rest], by rw [events', events]⟩
  | ok value =>
      rw [done] at same
      obtain ⟨outcome, rest, events⟩ := @bind_of_ok _ _ _ _ _ _ second _ done
      obtain ⟨outcome', rest', events'⟩ := @bind_of_ok _ _ _ _ _ _ second' _ same
      obtain ⟨final, left, logged⟩ :=
        next value first.rest (first.taken value done) (taken' value same)
      exact ⟨by rw [outcome', outcome, final], by rw [rest', rest, left],
        by rw [events', events, logged]⟩

end Reading

namespace Grammar

open Reading

variable (finish : Location)

/-! ## Single tokens -/

theorem nextLocation_unplaced (tokens : List Token) :
    nextLocation .nowhere (tokens.map Token.unplaced) = .nowhere := by
  cases tokens <;> rfl

theorem unexpected_unplaced (expected : Expectation) (tokens : List Token) :
    unexpected .nowhere expected (tokens.map Token.unplaced) =
      (unexpected finish expected tokens).unplaced := by
  cases tokens with
  | nil => rfl
  | cons token tokens =>
      simp only [unexpected, List.map_cons, Token.unplaced]
      split <;> rfl

theorem expectWith_unplaced {α : Type} (expected : Expectation) (accept : TokenKind → Option α)
    (tokens : List Token) :
    (expectWith finish expected accept tokens).UnplacedIs
      (expectWith .nowhere expected accept (tokens.map Token.unplaced)) := by
  cases tokens with
  | nil => exact unplacedIs_fail _
  | cons token tokens =>
      rw [List.map_cons, expectWith, expectWith]
      by_cases ends : token.kind = .endOfFile
      · rw [if_pos ends, if_pos (show token.unplaced.kind = .endOfFile from ends)]
        exact unplacedIs_failAfter token _
      · rw [if_neg ends, if_neg (show token.unplaced.kind ≠ .endOfFile from ends)]
        simp only [Token.unplaced]
        split
        · exact unplacedIs_take token _
        · exact unplacedIs_failAfter token _

theorem expect_unplaced (kind : TokenKind) (construct : Construct) (tokens : List Token) :
    (expect finish kind construct tokens).UnplacedIs
      (expect .nowhere kind construct (tokens.map Token.unplaced)) :=
  expectWith_unplaced finish _ _ tokens

theorem expectIdentifier_unplaced (construct : Construct) (tokens : List Token) :
    (expectIdentifier finish construct tokens).UnplacedIs
      (expectIdentifier .nowhere construct (tokens.map Token.unplaced)) :=
  expectWith_unplaced finish _ _ tokens

theorem expectInteger_unplaced (construct : Construct) (tokens : List Token) :
    (expectInteger finish construct tokens).UnplacedIs
      (expectInteger .nowhere construct (tokens.map Token.unplaced)) :=
  expectWith_unplaced finish _ _ tokens

theorem skip_unplaced (kind : TokenKind) (tokens : List Token) :
    (skip kind tokens).UnplacedIs (skip kind (tokens.map Token.unplaced)) := by
  cases tokens with
  | nil => exact unplacedIs_pure ()
  | cons token tokens =>
      rw [List.map_cons, skip, skip]
      by_cases next : token.kind = kind
      · rw [if_pos next, if_pos (show token.unplaced.kind = kind from next)]
        exact (unplacedIs_take token ()).weaken
      · rw [if_neg next, if_neg (show token.unplaced.kind ≠ kind from next)]
        exact unplacedIs_pure ()

/-! ## Side conditions -/

section Checks

variable (location : Location)

theorem checkCall_unplaced (name : String) (arguments : List Node) :
    checkCall .nowhere name arguments =
      (checkCall location name arguments).mapError SyntaxFault.unplaced := by
  unfold checkCall
  split
  · rfl
  · rfl
  · split <;> rfl
  · rfl

theorem checkTarget_unplaced (target : Node) :
    checkTarget .nowhere target = (checkTarget location target).mapError SyntaxFault.unplaced := by
  unfold checkTarget
  split <;> rfl

theorem checkSize_unplaced (name : String) (size : Int32) :
    checkSize .nowhere name size =
      (checkSize location name size).mapError SyntaxFault.unplaced := by
  unfold checkSize
  split <;> rfl

theorem checkReach_unplaced (heading : Header) (declared : List Declaration) (body : List Node) :
    checkReach .nowhere heading declared body =
      (checkReach location heading declared body).mapError SyntaxFault.unplaced := by
  unfold checkReach
  split <;> rfl

end Checks

/-! ## Expressions

A rule that looks at the first tokens is followed by cases on their kinds: both
readings then take the same branch. -/

mutual

theorem binary_unplaced (level : Nat) (tokens : List Token) :
    (binary finish level tokens).UnplacedIs
      (binary .nowhere level (tokens.map Token.unplaced)) := by
  cases level with
  | zero =>
      rw [binary, binary]
      exact unary_unplaced tokens
  | succ level =>
      rw [binary, binary]
      exact (binary_unplaced level tokens).bind fun left rest fewer _ =>
        binaryTail_unplaced level left rest
termination_by 9 * tokens.length + (level + 2)

theorem binaryTail_unplaced (level : Nat) (left : Node) (tokens : List Token) :
    (binaryTail finish level left tokens).UnplacedIs
      (binaryTail .nowhere level left (tokens.map Token.unplaced)) := by
  cases tokens with
  | nil =>
      rw [List.map_nil, binaryTail, binaryTail]
      exact unplacedIs_pure left
  | cons token tokens =>
      rw [List.map_cons, binaryTail, binaryTail]
      simp only [Token.unplaced]
      split
      · exact unplacedIs_pure left
      · next op known =>
        refine UnplacedIs.weaken (UnplacedIs.after ?_ _ _)
        exact (binary_unplaced level tokens).bind fun right rest fewer _ =>
          binaryTail_unplaced level (.binary op left right) rest
termination_by 9 * tokens.length + (level + 3)

theorem unary_unplaced (tokens : List Token) :
    (unary finish tokens).UnplacedIs (unary .nowhere (tokens.map Token.unplaced)) := by
  cases tokens with
  | nil =>
      rw [List.map_nil, unary, unary]
      exact primary_unplaced []
  | cons token rest =>
      rw [List.map_cons, unary, unary]
      simp only [Token.unplaced]
      split
      · next op known => exact (((unary_unplaced rest).map _).after _ _).weaken
      · exact primary_unplaced (token :: rest)
termination_by 9 * tokens.length + 1

theorem primary_unplaced (tokens : List Token) :
    (primary finish tokens).UnplacedIs (primary .nowhere (tokens.map Token.unplaced)) := by
  have other : (fail (unexpected finish .expression tokens) : Reading 1 tokens Node).UnplacedIs
      (fail (unexpected .nowhere .expression (tokens.map Token.unplaced)) :
        Reading 1 (tokens.map Token.unplaced) Node) := by
    rw [unexpected_unplaced finish]
    exact unplacedIs_fail _
  rw [primary.eq_def, primary.eq_def]
  rcases tokens with _ | ⟨⟨kind, span⟩, rest⟩
  · exact other
  cases kind with
  | integer value => exact unplacedIs_take _ _
  | identifier name =>
      rcases rest with _ | ⟨⟨kind, opening⟩, rest⟩
      · exact unplacedIs_take _ _
      cases kind with
      | symbol mark =>
          cases mark with
          | leftParen =>
              exact (((callTail_unplaced opening.start name rest).after _ _).after _ _).weaken
          | leftBracket =>
              refine UnplacedIs.weaken (UnplacedIs.after (UnplacedIs.after ?_ _ _) _ _)
              exact (binary_unplaced _ rest).bind fun index rest fewer _ =>
                (expect_unplaced finish _ _ rest).map _
          | _ => exact unplacedIs_take _ _
      | _ => exact unplacedIs_take _ _
  | symbol mark =>
      cases mark with
      | leftParen =>
          refine UnplacedIs.weaken (UnplacedIs.after ?_ _ _)
          exact (binary_unplaced _ rest).bind fun inner rest fewer _ =>
            (expect_unplaced finish _ _ rest).map _
      | _ => exact other
  | keyword word => exact other
  | endOfFile => exact other
termination_by 9 * tokens.length
decreasing_by all_goals (simp only [List.length_cons, BinaryOperator.loosest]; omega)

theorem callTail_unplaced (location : Location) (name : String) (tokens : List Token) :
    (callTail finish location name tokens).UnplacedIs
      (callTail .nowhere .nowhere name (tokens.map Token.unplaced)) := by
  rw [callTail, callTail]
  refine (callArguments_unplaced tokens).bind fun arguments rest fewer _ => ?_
  refine (expect_unplaced finish _ _ rest).bind fun _ rest fewer _ => ?_
  exact unplacedIs_check (checkCall_unplaced location name arguments)
termination_by 9 * tokens.length + 11

theorem callArguments_unplaced (tokens : List Token) :
    (callArguments finish tokens).UnplacedIs
      (callArguments .nowhere (tokens.map Token.unplaced)) := by
  have some := arguments_unplaced tokens
  rw [callArguments.eq_def, callArguments.eq_def]
  rcases tokens with _ | ⟨⟨kind, span⟩, rest⟩
  · exact some.weaken
  cases kind with
  | symbol mark =>
      cases mark with
      | rightParen => exact unplacedIs_pure []
      | _ => exact some.weaken
  | _ => exact some.weaken
termination_by 9 * tokens.length + 10

theorem arguments_unplaced (tokens : List Token) :
    (arguments finish tokens).UnplacedIs (arguments .nowhere (tokens.map Token.unplaced)) := by
  rw [arguments, arguments]
  refine (binary_unplaced _ tokens).bind fun first rest fewer _ => ?_
  rcases rest with _ | ⟨⟨kind, span⟩, rest⟩
  · exact unplacedIs_pure [first]
  cases kind with
  | symbol mark =>
      cases mark with
      | comma => exact (((arguments_unplaced rest).map _).after _ _).weaken
      | _ => exact unplacedIs_pure [first]
  | _ => exact unplacedIs_pure [first]
termination_by 9 * tokens.length + 9
decreasing_by all_goals (simp only [List.length_cons, BinaryOperator.loosest] at *; omega)

end

theorem expression_unplaced (tokens : List Token) :
    (expression finish tokens).UnplacedIs (expression .nowhere (tokens.map Token.unplaced)) :=
  binary_unplaced finish _ tokens

/-! ## Statements -/

theorem endsStatements_unplaced (tokens : List Token) :
    endsStatements (tokens.map Token.unplaced) = endsStatements tokens := by
  cases tokens <;> rfl

theorem assignment_unplaced (tokens : List Token) :
    (assignment finish tokens).UnplacedIs (assignment .nowhere (tokens.map Token.unplaced)) := by
  refine UnplacedIs.weaken ((unary_unplaced finish tokens).bind fun operand rest _ _ => ?_)
  rw [nextLocation_unplaced]
  refine (unplacedIs_check (checkTarget_unplaced _ operand)).bind fun target rest _ _ => ?_
  refine (expect_unplaced finish _ _ rest).bind fun _ rest _ _ => ?_
  exact (expression_unplaced finish rest).map _

mutual

theorem statements_unplaced (tokens : List Token) :
    (statements finish tokens).UnplacedIs (statements .nowhere (tokens.map Token.unplaced)) := by
  rw [statements, statements, endsStatements_unplaced]
  by_cases ends : endsStatements tokens
  · rw [if_pos ends, if_pos ends]
    exact unplacedIs_pure []
  · rw [if_neg ends, if_neg ends]
    refine UnplacedIs.weaken ((statement_unplaced tokens).bind fun first rest fewer _ => ?_)
    exact (statements_unplaced rest).map _
termination_by 2 * tokens.length + 1

theorem statement_unplaced (tokens : List Token) :
    (statement finish tokens).UnplacedIs (statement .nowhere (tokens.map Token.unplaced)) := by
  have other := assignment_unplaced finish tokens
  rw [statement.eq_def, statement.eq_def]
  refine UnplacedIs.bind ?_ fun read rest _ _ => (skip_unplaced _ rest).map _
  rcases tokens with _ | ⟨⟨kind, span⟩, rest⟩
  · exact other
  cases kind with
  | keyword word =>
      cases word with
      | kwIf => exact ((branchTail_unplaced rest).after _ _).weaken
      | kwWhile => exact ((loopTail_unplaced rest).after _ _).weaken
      | kwBegin =>
          refine UnplacedIs.weaken (UnplacedIs.after ?_ _ _)
          exact (statements_unplaced rest).bind fun body rest _ _ =>
            (expect_unplaced finish _ _ rest).map _
      | _ => exact other
  | identifier name =>
      rcases rest with _ | ⟨⟨kind, opening⟩, rest⟩
      · exact other
      cases kind with
      | symbol mark =>
          cases mark with
          | leftParen =>
              have call := callTail_unplaced finish opening.start name rest
              exact ((call.after _ _).after _ _).weaken
          | _ => exact other
      | _ => exact other
  | _ => exact other
termination_by 2 * tokens.length

theorem branchTail_unplaced (tokens : List Token) :
    (branchTail finish tokens).UnplacedIs (branchTail .nowhere (tokens.map Token.unplaced)) := by
  rw [branchTail, branchTail]
  refine UnplacedIs.weaken ((expression_unplaced finish tokens).bind fun condition rest _ _ => ?_)
  refine (expect_unplaced finish _ _ rest).bind fun _ rest _ _ => ?_
  refine (statements_unplaced rest).bind fun consequent rest _ _ => ?_
  refine (alternative_unplaced rest).bind fun alternative rest _ _ => ?_
  exact (expect_unplaced finish _ _ rest).map _
termination_by 2 * tokens.length + 1

theorem alternative_unplaced (tokens : List Token) :
    (alternative finish tokens).UnplacedIs (alternative .nowhere (tokens.map Token.unplaced)) := by
  rw [alternative.eq_def, alternative.eq_def]
  rcases tokens with _ | ⟨⟨kind, span⟩, rest⟩
  · exact unplacedIs_pure none
  cases kind with
  | keyword word =>
      cases word with
      | kwElse => exact (((statements_unplaced rest).map _).after _ _).weaken
      | _ => exact unplacedIs_pure none
  | _ => exact unplacedIs_pure none
termination_by 2 * tokens.length

theorem loopTail_unplaced (tokens : List Token) :
    (loopTail finish tokens).UnplacedIs (loopTail .nowhere (tokens.map Token.unplaced)) := by
  rw [loopTail, loopTail]
  refine UnplacedIs.weaken ((expression_unplaced finish tokens).bind fun condition rest _ _ => ?_)
  refine (expect_unplaced finish _ _ rest).bind fun _ rest _ _ => ?_
  refine (statements_unplaced rest).bind fun body rest _ _ => ?_
  exact (expect_unplaced finish _ _ rest).map _
termination_by 2 * tokens.length + 1

end

/-! ## Declarations -/

theorem arrayTail_unplaced (name : String) (tokens : List Token) :
    (arrayTail finish name tokens).UnplacedIs
      (arrayTail .nowhere name (tokens.map Token.unplaced)) := by
  refine UnplacedIs.weaken
    ((expectInteger_unplaced finish _ tokens).bind fun size rest _ _ => ?_)
  refine (expect_unplaced finish _ _ rest).bind fun _ rest _ _ => ?_
  rw [nextLocation_unplaced]
  exact (unplacedIs_check (checkSize_unplaced _ name size)).bind fun declared rest _ _ =>
    unplacedIs_report _ declared

theorem declaration_unplaced (tokens : List Token) :
    (declaration finish tokens).UnplacedIs (declaration .nowhere (tokens.map Token.unplaced)) := by
  refine (expectIdentifier_unplaced finish _ tokens).bind fun name rest _ _ => ?_
  rcases rest with _ | ⟨⟨kind, span⟩, rest⟩
  · exact unplacedIs_pure (Declaration.mk name 1)
  cases kind with
  | symbol mark =>
      cases mark with
      | leftBracket => exact ((arrayTail_unplaced finish name rest).after _ _).weaken
      | _ => exact unplacedIs_pure (Declaration.mk name 1)
  | _ => exact unplacedIs_pure (Declaration.mk name 1)

theorem declarations_unplaced (tokens : List Token) :
    (declarations finish tokens).UnplacedIs
      (declarations .nowhere (tokens.map Token.unplaced)) := by
  rw [declarations, declarations]
  refine (declaration_unplaced finish tokens).bind fun first rest fewer _ => ?_
  rcases rest with _ | ⟨⟨kind, span⟩, rest⟩
  · exact unplacedIs_pure [first]
  cases kind with
  | symbol mark =>
      cases mark with
      | comma => exact (((declarations_unplaced rest).map _).after _ _).weaken
      | _ => exact unplacedIs_pure [first]
  | _ => exact unplacedIs_pure [first]
termination_by tokens.length
decreasing_by
  simp only [List.length_cons] at *
  omega

theorem declarationsTail_unplaced (tokens : List Token) :
    (declarationsTail finish tokens).UnplacedIs
      (declarationsTail .nowhere (tokens.map Token.unplaced)) :=
  (declarations_unplaced finish tokens).bind fun _ rest _ _ => (skip_unplaced _ rest).map _

/-! ## Procedures -/

theorem parameters_unplaced (tokens : List Token) :
    (parameters finish tokens).UnplacedIs (parameters .nowhere (tokens.map Token.unplaced)) := by
  rw [parameters, parameters]
  refine (expectIdentifier_unplaced finish _ tokens).bind fun first rest fewer _ => ?_
  rcases rest with _ | ⟨⟨kind, span⟩, rest⟩
  · exact unplacedIs_pure [first]
  cases kind with
  | symbol mark =>
      cases mark with
      | comma => exact (((parameters_unplaced rest).map _).after _ _).weaken
      | _ => exact unplacedIs_pure [first]
  | _ => exact unplacedIs_pure [first]
termination_by tokens.length
decreasing_by
  simp only [List.length_cons] at *
  omega

theorem parameterList_unplaced (tokens : List Token) :
    (parameterList finish tokens).UnplacedIs
      (parameterList .nowhere (tokens.map Token.unplaced)) := by
  have some := parameters_unplaced finish tokens
  unfold parameterList
  rcases tokens with _ | ⟨⟨kind, span⟩, rest⟩
  · exact some.weaken
  cases kind with
  | symbol mark =>
      cases mark with
      | rightParen => exact unplacedIs_pure []
      | _ => exact some.weaken
  | _ => exact some.weaken

theorem locals_unplaced (tokens : List Token) :
    (locals finish tokens).UnplacedIs (locals .nowhere (tokens.map Token.unplaced)) := by
  unfold locals
  rcases tokens with _ | ⟨⟨kind, span⟩, rest⟩
  · exact unplacedIs_pure []
  cases kind with
  | keyword word =>
      cases word with
      | kwVar => exact ((declarationsTail_unplaced finish rest).after _ _).weaken
      | _ => exact unplacedIs_pure []
  | _ => exact unplacedIs_pure []

theorem header_unplaced (tokens : List Token) :
    (header finish tokens).UnplacedIs (header .nowhere (tokens.map Token.unplaced)) := by
  refine UnplacedIs.weaken ((expect_unplaced finish _ _ tokens).bind fun _ rest _ _ => ?_)
  refine (expectIdentifier_unplaced finish _ rest).bind fun name rest _ _ => ?_
  refine (expect_unplaced finish _ _ rest).bind fun _ rest _ _ => ?_
  refine (parameterList_unplaced finish rest).bind fun parameters rest _ _ => ?_
  exact (expect_unplaced finish _ _ rest).map _

theorem procedureBody_unplaced (tokens : List Token) :
    (procedureBody finish tokens).UnplacedIs
      (procedureBody .nowhere (tokens.map Token.unplaced)) := by
  refine UnplacedIs.weaken ((expect_unplaced finish _ _ tokens).bind fun _ rest _ _ => ?_)
  refine (statements_unplaced finish rest).bind fun body rest _ _ => ?_
  refine (expect_unplaced finish _ _ rest).bind fun _ rest _ _ => ?_
  exact (skip_unplaced _ rest).map _

theorem procedure_unplaced (tokens : List Token) :
    (procedure finish tokens).UnplacedIs (procedure .nowhere (tokens.map Token.unplaced)) := by
  refine UnplacedIs.weaken ((header_unplaced finish tokens).bind fun heading rest _ _ => ?_)
  refine (locals_unplaced finish rest).bind fun declared rest _ _ => ?_
  refine (procedureBody_unplaced finish rest).bind fun body rest _ _ => ?_
  rw [nextLocation_unplaced]
  exact (unplacedIs_check (checkReach_unplaced _ heading declared body)).bind fun node rest _ _ =>
    unplacedIs_report _ node

/-! ## Items -/

theorem item_unplaced (tokens : List Token) :
    (item finish tokens).UnplacedIs (item .nowhere (tokens.map Token.unplaced)) := by
  have other : (fail (unexpected finish .item tokens) : Reading 1 tokens Node).UnplacedIs
      (fail (unexpected .nowhere .item (tokens.map Token.unplaced)) :
        Reading 1 (tokens.map Token.unplaced) Node) := by
    rw [unexpected_unplaced finish]
    exact unplacedIs_fail _
  unfold item
  rcases tokens with _ | ⟨⟨kind, span⟩, rest⟩
  · exact other
  cases kind with
  | keyword word =>
      cases word with
      | kwVar => exact (((declarationsTail_unplaced finish rest).map _).after _ _).weaken
      | kwProc => exact procedure_unplaced finish (⟨.keyword .kwProc, span⟩ :: rest)
      | _ => exact other
  | _ => exact other

theorem endsProgram_unplaced (tokens : List Token) :
    endsProgram (tokens.map Token.unplaced) = endsProgram tokens := by
  cases tokens <;> rfl

theorem items_unplaced (tokens : List Token) :
    (items finish tokens).UnplacedIs (items .nowhere (tokens.map Token.unplaced)) := by
  rw [items, items, endsProgram_unplaced]
  by_cases ends : endsProgram tokens
  · rw [if_pos ends, if_pos ends]
    exact unplacedIs_pure []
  · rw [if_neg ends, if_neg ends]
    refine UnplacedIs.weaken ((item_unplaced finish tokens).bind fun first rest fewer _ => ?_)
    exact (items_unplaced rest).map _
termination_by tokens.length

/-- **Reading a program does not look at places.** -/
theorem program_unplaced (tokens : List Token) :
    (program finish tokens).UnplacedIs (program .nowhere (tokens.map Token.unplaced)) :=
  (items_unplaced finish tokens).bind fun _ _ _ _ => unplacedIs_report _ _

end Grammar

/-! ## Texts -/

/-- The tree of a text or what keeps it from being read, wherever that is. -/
def parseUnplaced (source : String) : Except Diagnostic Node × List Event :=
  ((parse source).1.mapError Diagnostic.unplaced, (parse source).2)

theorem parseUnplaced_of_tokens {source : String} {tokens : List Token}
    (scanned : tokensOf source = .ok tokens) :
    parseUnplaced source =
      ((Grammar.program .nowhere (tokens.map Token.unplaced)).outcome.mapError
          SyntaxFault.diagnostic,
        (Grammar.program .nowhere (tokens.map Token.unplaced)).events) := by
  have is := Grammar.program_unplaced (TokenStream.ofTokens tokens).finish tokens
  rw [is.outcome, is.events]
  unfold parseUnplaced parse
  simp only [scanned, TokenStream.read]
  have stream : (TokenStream.ofTokens tokens).tokens = tokens := rfl
  rw [stream]
  cases (Grammar.program (TokenStream.ofTokens tokens).finish tokens).outcome with
  | ok tree => rfl
  | error fault =>
      have bare := (SyntaxFault.diagnostic_unplaced fault).symm
      exact Prod.ext (congrArg Except.error bare) rfl

theorem map_unplaced_eq {tokens tokens' : List Token}
    (same : tokens.map Token.kind = tokens'.map Token.kind) :
    tokens.map Token.unplaced = tokens'.map Token.unplaced := by
  have whole := congrArg (List.map fun kind => Token.mk kind ⟨.nowhere, .nowhere⟩) same
  rwa [List.map_map, List.map_map] at whole

/-- **Texts with tokens of the same kinds are read alike.** -/
theorem parseUnplaced_eq_of_kinds {source source' : String} {tokens tokens' : List Token}
    (scanned : tokensOf source = .ok tokens) (scanned' : tokensOf source' = .ok tokens')
    (same : tokens.map Token.kind = tokens'.map Token.kind) :
    parseUnplaced source = parseUnplaced source' := by
  rw [parseUnplaced_of_tokens scanned, parseUnplaced_of_tokens scanned', map_unplaced_eq same]

end ProcLang
