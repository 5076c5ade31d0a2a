import ProcLang.Diagnostic
import ProcLang.Syntax.Frame

/-!
# Checking trees

A tree that was not read from source text is checked for what the grammar
guarantees of declarations: every one has at least one word, and the frame of
every procedure is within reach. Only declarations that a program makes are
looked at, so the check goes through the items of a program and no deeper.
-/

set_option autoImplicit false

namespace ProcLang

/-- Why a tree is refused. -/
inductive TreeFault where
  | emptyDeclaration (name : String)
  | frameTooLarge (procedure : String)
  deriving DecidableEq, Repr, Inhabited

namespace TreeFault

/-- The wording of a refusal. -/
def message : TreeFault → String
  | emptyDeclaration name => "Declaration '" ++ name ++ "' must have a positive size"
  | frameTooLarge procedure =>
      "Frame of procedure '" ++ procedure ++ "' exceeds " ++ Decimal.text maxOffset ++ " words"

/-- Where a refused tree is said to be: it has no lines. -/
def location : Location := ⟨"<json>", 0, 0⟩

/-- A refusal as it is reported. -/
def diagnostic (fault : TreeFault) : Diagnostic :=
  .grammatical location fault.message

end TreeFault

/-- Refuse the first declaration without storage. -/
def checkDeclarations (declared : List Declaration) : Except TreeFault Unit :=
  match declared.find? fun entry => entry.words == 0 with
  | some entry => .error (.emptyDeclaration entry.name)
  | none => .ok ()

/-- Refuse a procedure whose frame is out of reach. -/
def checkFrame (header : Header) (locals : List Declaration) : Except TreeFault Unit :=
  match (Scope.mk locals header.parameters).frameExtent? with
  | some _ => .ok ()
  | none => .error (.frameTooLarge header.name)

namespace Node

mutual
/-- Refuse a tree whose declarations need no storage or too much. -/
def check : Node → Except TreeFault Unit
  | .program items => checkAll items
  | .declarations declared => checkDeclarations declared
  | .declaration declared => checkDeclarations [declared]
  | .procedure heading locals _ => do
      checkDeclarations locals
      checkFrame heading locals
  | _ => .ok ()

/-- Check trees in order, up to the first that is refused. -/
def checkAll : List Node → Except TreeFault Unit
  | [] => .ok ()
  | node :: rest => do
      check node
      checkAll rest
end

end Node

end ProcLang
