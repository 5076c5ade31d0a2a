import ProcLang.Grammar.Expression

/-!
# Statements

A statement is a choice, a loop, a block, a call or an assignment, and a
semicolon after it may be left out. Statements are read up to `end`, `else` or
the end of the text.

An identifier in front of a parenthesis starts a call. Everything else that is
not announced by a keyword has to be an assignment, whose target is an operand
with an address.
-/

set_option autoImplicit false

namespace ProcLang.Grammar

/-- Whether no further statement can follow. -/
def endsStatements : List Token → Bool
  | [] => true
  | token :: _ =>
      match token.kind with
      | .keyword .kwEnd | .keyword .kwElse | .endOfFile => true
      | _ => false

/-- The target of an assignment must have an address. -/
def checkTarget (location : Location) (target : Node) : Except SyntaxFault Node :=
  if target.isAssignable then .ok target
  else .error (.brokenCondition .assignableTarget location)

/-- An assignment. -/
def assignment (finish : Location) (tokens : List Token) : Reading 1 tokens Node :=
  .weaken 1 <| (unary finish tokens).bind fun operand rest _ =>
    (Reading.check (checkTarget (nextLocation finish tokens) operand)).bind fun target rest _ =>
      (expect finish (.symbol .assign) .assignment rest).bind fun _ rest _ =>
        (expression finish rest).map fun value => .assign target value

mutual
/-- Statements, as many as there are. -/
def statements (finish : Location) (tokens : List Token) : Reading 0 tokens (List Node) :=
  if endsStatements tokens then .pure []
  else
    .weaken 0 <| (statement finish tokens).bind fun first rest _ =>
      (statements finish rest).map (first :: ·)
termination_by 2 * tokens.length + 1

/-- One statement and the semicolon after it, if there is one. -/
def statement (finish : Location) (tokens : List Token) : Reading 1 tokens Node :=
  (match tokens with
    | ⟨.keyword .kwIf, span⟩ :: rest =>
        .weaken 1 <| .after ⟨.keyword .kwIf, span⟩ <| branchTail finish rest
    | ⟨.keyword .kwWhile, span⟩ :: rest =>
        .weaken 1 <| .after ⟨.keyword .kwWhile, span⟩ <| loopTail finish rest
    | ⟨.keyword .kwBegin, span⟩ :: rest =>
        .weaken 1 <| .after ⟨.keyword .kwBegin, span⟩ <|
          (statements finish rest).bind fun body rest _ =>
            (expect finish (.keyword .kwEnd) .block rest).map fun _ => Node.block body
    | ⟨.identifier name, span⟩ :: ⟨.symbol .leftParen, opening⟩ :: rest =>
        .weaken 1 <| .after ⟨.identifier name, span⟩ <| .after ⟨.symbol .leftParen, opening⟩ <|
          callTail finish opening.start name rest
    | tokens => assignment finish tokens : Reading 1 tokens Node).bind fun read rest _ =>
      (skip (.symbol .semicolon) rest).map fun _ => read
termination_by 2 * tokens.length

/-- A choice after its first word. -/
def branchTail (finish : Location) (tokens : List Token) : Reading 1 tokens Node :=
  .weaken 1 <| (expression finish tokens).bind fun condition rest _ =>
    (expect finish (.keyword .kwThen) .ifStatement rest).bind fun _ rest _ =>
      (statements finish rest).bind fun consequent rest _ =>
        (alternative finish rest).bind fun alternative rest _ =>
          (expect finish (.keyword .kwEnd) .ifStatement rest).map fun _ =>
            .branch condition (.block consequent) alternative
termination_by 2 * tokens.length + 1

/-- The alternative of a choice, if there is one. -/
def alternative (finish : Location) (tokens : List Token) : Reading 0 tokens (Option Node) :=
  match tokens with
  | ⟨.keyword .kwElse, span⟩ :: rest =>
      .weaken 0 <| .after ⟨.keyword .kwElse, span⟩ <|
        (statements finish rest).map fun body => some (.block body)
  | _ => .pure none
termination_by 2 * tokens.length

/-- A loop after its first word. -/
def loopTail (finish : Location) (tokens : List Token) : Reading 1 tokens Node :=
  .weaken 1 <| (expression finish tokens).bind fun condition rest _ =>
    (expect finish (.keyword .kwDo) .whileStatement rest).bind fun _ rest _ =>
      (statements finish rest).bind fun body rest _ =>
        (expect finish (.keyword .kwEnd) .whileStatement rest).map fun _ =>
          .loop condition (.block body)
termination_by 2 * tokens.length + 1
end

end ProcLang.Grammar
