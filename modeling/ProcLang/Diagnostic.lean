import ProcLang.Source.Location

/-!
# Diagnostics

What a failed run reports. A fault of the program text comes with its place; a
fault of the surroundings is a message only. Text that is no syntax tree at all
has no place to point to.
-/

set_option autoImplicit false

namespace ProcLang

/-- A reported failure. -/
inductive Diagnostic where
  | lexical (location : Location) (message : String)
  | grammatical (location : Location) (message : String)
  | malformedTree
  | environment (message : String)
  | internal (message : String)
  deriving DecidableEq, Repr, Inhabited

namespace Diagnostic

/-- The text of a reported failure. -/
def text : Diagnostic → String
  | lexical location message => "Lexical error at " ++ location.text ++ ": " ++ message
  | grammatical location message => "Parse error at " ++ location.text ++ ": " ++ message
  | malformedTree => "Malformed syntax tree"
  | environment message => "IO error: " ++ message
  | internal message => "Internal compiler error: " ++ message

/-- Whether the program text is at fault, and not the surroundings. -/
def blamesInput : Diagnostic → Bool
  | lexical .. => true
  | grammatical .. => true
  | malformedTree => true
  | environment _ => false
  | internal _ => false

end Diagnostic

end ProcLang
