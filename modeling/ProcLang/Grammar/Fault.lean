import ProcLang.Diagnostic
import ProcLang.Syntax.Frame
import ProcLang.Token.Basic

/-!
# Syntax faults

Why a list of tokens is no program: a token that cannot stand where it stands,
an end that comes too early, or a construct that breaks a side condition of the
grammar. All wording is in this module.
-/

set_option autoImplicit false

namespace ProcLang

/-- The construct in which something was expected. -/
inductive Construct where
  | declaration
  | arraySize
  | procedure
  | procedureName
  | parameterList
  | procedureBody
  | ifStatement
  | whileStatement
  | block
  | assignment
  | call
  | parentheses
  | index
  deriving DecidableEq, Repr, Inhabited

/-- The name of a construct in a message. -/
def Construct.text : Construct → String
  | declaration => "declaration"
  | arraySize => "array size"
  | procedure => "procedure"
  | procedureName => "procedure name"
  | parameterList => "parameter list"
  | procedureBody => "procedure body"
  | ifStatement => "if statement"
  | whileStatement => "while statement"
  | block => "block"
  | assignment => "assignment"
  | call => "call"
  | parentheses => "parenthesized expression"
  | index => "index expression"

/-- What could have stood in the place of a fault. -/
inductive Expectation where
  | token (kind : TokenKind) (construct : Construct)
  | identifier (construct : Construct)
  | integer (construct : Construct)
  | phrase (text : String)
  deriving DecidableEq, Repr, Inhabited

namespace Expectation

/-- The wording of an expectation. -/
def text : Expectation → String
  | token kind construct => "'" ++ kind.text ++ "' in " ++ construct.text
  | identifier construct => "identifier in " ++ construct.text
  | integer construct => "integer in " ++ construct.text
  | phrase text => text

/-- An item of a program. -/
def item : Expectation := phrase "'var' or 'proc' at top level"

/-- An operand. -/
def expression : Expectation := phrase "expression"

end Expectation

/-- A side condition of the grammar that does not hold. -/
inductive SideCondition where
  | positiveSize (name : String) (size : Int)
  | frameInReach (procedure : String)
  | assignableTarget
  | oneArgument (callee : String) (found : Nat)
  | assignableArgument
  deriving DecidableEq, Repr, Inhabited

/-- The wording of a broken side condition. -/
def SideCondition.message : SideCondition → String
  | positiveSize name size =>
      "Declaration '" ++ name ++ "' must have a positive size, found " ++ Decimal.signedText size
  | frameInReach procedure =>
      "Frame of procedure '" ++ procedure ++ "' exceeds " ++ Decimal.text maxOffset ++ " words"
  | assignableTarget => "Left side of ':=' is not assignable"
  | oneArgument callee found =>
      "'" ++ callee ++ "' takes exactly one argument, found " ++ Decimal.text found
  | assignableArgument => "'read' needs an assignable argument"

/-- Why tokens could not be read. -/
inductive SyntaxFault where
  | unexpectedToken (expected : Expectation) (found : Token)
  | unexpectedEnd (expected : Expectation) (location : Location)
  | brokenCondition (condition : SideCondition) (location : Location)
  deriving DecidableEq, Repr, Inhabited

namespace SyntaxFault

/-- Where a fault is. -/
def location : SyntaxFault → Location
  | unexpectedToken _ found => found.span.start
  | unexpectedEnd _ location => location
  | brokenCondition _ location => location

/-- The wording of a fault. -/
def message : SyntaxFault → String
  | unexpectedToken expected found =>
      "Expected " ++ expected.text ++ ", found '" ++ found.kind.text ++ "'"
  | unexpectedEnd expected _ => "Unexpected end of file, expected " ++ expected.text
  | brokenCondition condition _ => condition.message

/-- A fault as it is reported. -/
def diagnostic (fault : SyntaxFault) : Diagnostic :=
  .grammatical fault.location fault.message

end SyntaxFault

end ProcLang
