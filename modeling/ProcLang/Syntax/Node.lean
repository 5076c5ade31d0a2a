import ProcLang.Syntax.Operator

/-!
# Syntax trees

One type covers every construct, and a node may stand anywhere: a tree that was
not read from source text can put a statement where an expression is expected.
Lists keep their source order, because the layout of a program depends on it.
-/

set_option autoImplicit false

namespace ProcLang

/-- Named storage of `size` words; an array when there is more than one. -/
structure Declaration where
  name : String
  size : UInt32
  deriving DecidableEq, Repr, Inhabited

/-- The number of words declared. -/
def Declaration.words (declared : Declaration) : Nat :=
  declared.size.toNat

/-- Whether more than one word is declared. -/
def Declaration.isArray (declared : Declaration) : Bool :=
  1 < declared.words

/-- The name of a procedure and of its parameters, in order. -/
structure Header where
  name : String
  parameters : List String
  deriving DecidableEq, Repr, Inhabited

/-- A syntax tree. -/
inductive Node where
  /-- The top level: procedures and global declarations. -/
  | program (items : List Node)
  /-- A procedure with its local declarations and its body. -/
  | procedure (header : Header) (locals : List Declaration) (body : Node)
  /-- A procedure header on its own. -/
  | header (header : Header)
  /-- Declarations in order. -/
  | declarations (declared : List Declaration)
  /-- A single declaration. -/
  | declaration (declared : Declaration)
  /-- Statements in order. -/
  | block (statements : List Node)
  /-- A call of a procedure, or of `read` or `write`. -/
  | call (name : String) (arguments : List Node)
  /-- Store a value at the address of a target. -/
  | assign (target value : Node)
  /-- A choice, with or without an alternative. -/
  | branch (condition consequent : Node) (alternative : Option Node)
  /-- Repeat a body while a condition holds. -/
  | loop (condition body : Node)
  /-- A binary operation. -/
  | binary (op : BinaryOperator) (left right : Node)
  /-- A unary operation. -/
  | unary (op : UnaryOperator) (operand : Node)
  /-- A word given in the program. -/
  | constant (value : Int32)
  /-- A variable or an array by its name. -/
  | reference (name : String)
  deriving Inhabited

namespace Node

/-- The element of an array: the word at the base address plus the index. -/
def element (name : String) (index : Node) : Node :=
  .unary .dereference (.binary .add (.reference name) index)

/-- Whether a node has a storage address. -/
def isAssignable : Node → Bool
  | .reference _ => true
  | .unary .dereference _ => true
  | _ => false

end Node

/-- The procedures that the machine provides. -/
inductive Intrinsic where
  | read
  | write
  deriving DecidableEq, Repr, Inhabited

namespace Intrinsic

/-- The name an intrinsic is called by. -/
def name : Intrinsic → String
  | read => "read"
  | write => "write"

/-- The intrinsic with a given name. -/
def ofName? (callee : String) : Option Intrinsic :=
  if callee = "read" then some read else if callee = "write" then some write else none

/-- Whether a call is of an intrinsic: it has the name and something to work on.
A call by the same name without arguments is an ordinary call. -/
def isCalledBy (callee : String) (arguments : List Node) : Bool :=
  (ofName? callee).isSome && !arguments.isEmpty

end Intrinsic

end ProcLang
