import ProcLang.Grammar.Reading
import ProcLang.Syntax.Node

/-!
# Expressions

Operands are joined by binary operators in six classes, each of which
associates to the left. `binary finish level` reads operands joined by the
operators of looseness `level` or less; at level zero it reads one operand
without a binary operator. An operand is a constant, a name, an element of an
array, a call, an expression in parentheses, or one of these behind unary
operators.

The rules call each other on fewer tokens, or on the same tokens at a tighter
level.
-/

set_option autoImplicit false

namespace ProcLang

/-- The operator of one looseness that a token stands for. -/
def BinaryOperator.ofKindAt? (level : Nat) (kind : TokenKind) : Option BinaryOperator :=
  (BinaryOperator.ofKind? kind).filter fun op => op.looseness == level

namespace Grammar

/-- The side conditions of a call: an intrinsic has one argument, and what is
read must be assignable. -/
def checkCall (location : Location) (name : String) (arguments : List Node) :
    Except SyntaxFault Node :=
  match Intrinsic.ofName? name, arguments with
  | none, _ => .ok (.call name arguments)
  | some .write, [_] => .ok (.call name arguments)
  | some .read, [argument] =>
      if argument.isAssignable then .ok (.call name arguments)
      else .error (.brokenCondition .assignableArgument location)
  | some _, _ => .error (.brokenCondition (.oneArgument name arguments.length) location)

mutual
/-- Operands joined by operators of looseness `level` or less. -/
def binary (finish : Location) (level : Nat) (tokens : List Token) : Reading 1 tokens Node :=
  match level with
  | 0 => unary finish tokens
  | level + 1 =>
      (binary finish level tokens).bind fun left rest _ => binaryTail finish level left rest
termination_by 9 * tokens.length + (level + 2)

/-- More operands at the same level, after a left operand. -/
def binaryTail (finish : Location) (level : Nat) (left : Node) (tokens : List Token) :
    Reading 0 tokens Node :=
  match tokens with
  | [] => .pure left
  | token :: tokens =>
      match BinaryOperator.ofKindAt? (level + 1) token.kind with
      | none => .pure left
      | some op =>
          .weaken 0 <| .after token <| (binary finish level tokens).bind fun right rest _ =>
            binaryTail finish level (.binary op left right) rest
termination_by 9 * tokens.length + (level + 3)

/-- An operand behind any number of unary operators. -/
def unary (finish : Location) (tokens : List Token) : Reading 1 tokens Node :=
  match tokens with
  | [] => primary finish []
  | token :: rest =>
      match UnaryOperator.ofKind? token.kind with
      | some op => .weaken 1 <| .after token <| (unary finish rest).map (.unary op)
      | none => primary finish (token :: rest)
termination_by 9 * tokens.length + 1

/-- An operand without an operator in front. -/
def primary (finish : Location) (tokens : List Token) : Reading 1 tokens Node :=
  match tokens with
  | ⟨.symbol .leftParen, span⟩ :: rest =>
      .weaken 1 <| .after ⟨.symbol .leftParen, span⟩ <|
        (binary finish BinaryOperator.loosest rest).bind fun inner rest _ =>
          (expect finish (.symbol .rightParen) .parentheses rest).map fun _ => inner
  | ⟨.integer value, span⟩ :: _ => .take ⟨.integer value, span⟩ (.constant value)
  | ⟨.identifier name, span⟩ :: ⟨.symbol .leftParen, opening⟩ :: rest =>
      .weaken 1 <| .after ⟨.identifier name, span⟩ <| .after ⟨.symbol .leftParen, opening⟩ <|
        callTail finish opening.start name rest
  | ⟨.identifier name, span⟩ :: ⟨.symbol .leftBracket, opening⟩ :: rest =>
      .weaken 1 <| .after ⟨.identifier name, span⟩ <| .after ⟨.symbol .leftBracket, opening⟩ <|
        (binary finish BinaryOperator.loosest rest).bind fun index rest _ =>
          (expect finish (.symbol .rightBracket) .index rest).map fun _ => .element name index
  | ⟨.identifier name, span⟩ :: _ => .take ⟨.identifier name, span⟩ (.reference name)
  | tokens => .fail (unexpected finish .expression tokens)
termination_by 9 * tokens.length
decreasing_by all_goals (simp only [List.length_cons, BinaryOperator.loosest]; omega)

/-- The arguments of a call and its closing parenthesis. The location is that of
the opening one. -/
def callTail (finish : Location) (location : Location) (name : String) (tokens : List Token) :
    Reading 1 tokens Node :=
  (callArguments finish tokens).bind fun arguments rest _ =>
    (expect finish (.symbol .rightParen) .call rest).bind fun _ _ _ =>
      .check (checkCall location name arguments)
termination_by 9 * tokens.length + 11

/-- The arguments of a call, if there are any. -/
def callArguments (finish : Location) (tokens : List Token) : Reading 0 tokens (List Node) :=
  match tokens with
  | ⟨.symbol .rightParen, _⟩ :: _ => .pure []
  | tokens => .weaken 0 (arguments finish tokens)
termination_by 9 * tokens.length + 10

/-- One or more expressions, divided by commas. -/
def arguments (finish : Location) (tokens : List Token) : Reading 1 tokens (List Node) :=
  (binary finish BinaryOperator.loosest tokens).bind fun first rest _ =>
    match rest with
    | ⟨.symbol .comma, span⟩ :: rest =>
        .weaken 0 <| .after ⟨.symbol .comma, span⟩ <| (arguments finish rest).map (first :: ·)
    | _ => .pure [first]
termination_by 9 * tokens.length + 9
decreasing_by all_goals (simp only [List.length_cons, BinaryOperator.loosest] at *; omega)
end

/-- An expression. -/
def expression (finish : Location) (tokens : List Token) : Reading 1 tokens Node :=
  binary finish BinaryOperator.loosest tokens

end Grammar

end ProcLang
