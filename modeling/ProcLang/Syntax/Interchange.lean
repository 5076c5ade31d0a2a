import ProcLang.Json.Pretty
import ProcLang.Json.Reader
import ProcLang.Syntax.Check

/-!
# Trees as JSON

A node is an object with one member, whose key names the kind of the node. The
data of a node is an object of named fields.

Writing has one form. Reading accepts more: the fields in any order, or without
their names as an array of all of them in order; an operator as an object with a
null; a missing alternative of a choice; and fields that are not known, whose
values are not looked at. What is looked at may open at most `maxOpen` arrays
and objects at once, so reading goes down with the number that may still be
opened.

A tree read this way is checked before it is used.
-/

set_option autoImplicit false

namespace ProcLang

/-! ## Names -/

namespace BinaryOperator

/-- The name of an operator in JSON. -/
def jsonName : BinaryOperator → String
  | .add => "Add"
  | .sub => "Sub"
  | .mul => "Mul"
  | .div => "Div"
  | .mod => "Mod"
  | .equal => "Equal"
  | .notEqual => "NotEqual"
  | .greater => "Greater"
  | .less => "Less"
  | .and => "And"
  | .or => "Or"
  | .xor => "Xor"

/-- All binary operators. -/
def all : List BinaryOperator :=
  [.add, .sub, .mul, .div, .mod, .equal, .notEqual, .greater, .less, .and, .or, .xor]

/-- The operator with a given name in JSON. -/
def ofJsonName? (name : String) : Option BinaryOperator :=
  all.find? fun op => op.jsonName == name

theorem ofJsonName?_jsonName (op : BinaryOperator) : ofJsonName? op.jsonName = some op := by
  cases op <;> decide

end BinaryOperator

namespace UnaryOperator

/-- The name of an operator in JSON. -/
def jsonName : UnaryOperator → String
  | .plus => "Plus"
  | .minus => "Minus"
  | .not => "Not"
  | .dereference => "Dereference"

/-- All unary operators. -/
def all : List UnaryOperator :=
  [.plus, .minus, .not, .dereference]

/-- The operator with a given name in JSON. -/
def ofJsonName? (name : String) : Option UnaryOperator :=
  all.find? fun op => op.jsonName == name

theorem ofJsonName?_jsonName (op : UnaryOperator) : ofJsonName? op.jsonName = some op := by
  cases op <;> decide

end UnaryOperator

/-! ## Writing -/

/-- A declaration in JSON. -/
def Declaration.toJson (declared : Declaration) : Json :=
  .record [("name", .text declared.name), ("size", .integer declared.words)]

/-- A header in JSON. -/
def Header.toJson (heading : Header) : Json :=
  .record [("name", .text heading.name), ("args", .array (heading.parameters.map .text))]

namespace Node

mutual
/-- A tree in JSON. -/
def toJson : Node → Json
  | .program items => .tagged "Global" (.array (toJsonAll items))
  | .procedure heading locals body =>
      .tagged "Procedure" (.record [("header", heading.toJson),
        ("vars", .array (locals.map Declaration.toJson)), ("code", toJson body)])
  | .header heading => .tagged "ProcHeader" heading.toJson
  | .declarations declared => .tagged "VarList" (.array (declared.map Declaration.toJson))
  | .declaration declared => .tagged "DeclVar" declared.toJson
  | .block statements => .tagged "OpList" (.array (toJsonAll statements))
  | .call name arguments =>
      .tagged "ProcCall" (.record [("name", .text name), ("args", .array (toJsonAll arguments))])
  | .assign target value =>
      .tagged "Assign" (.record [("lvalue", toJson target), ("expr", toJson value)])
  | .branch condition consequent none =>
      .tagged "If" (.record [("cond", toJson condition), ("if_true", toJson consequent),
        ("if_false", .null)])
  | .branch condition consequent (some alternative) =>
      .tagged "If" (.record [("cond", toJson condition), ("if_true", toJson consequent),
        ("if_false", toJson alternative)])
  | .loop condition body =>
      .tagged "While" (.record [("cond", toJson condition), ("body", toJson body)])
  | .binary op left right =>
      .tagged "Binop" (.record [("op", .text op.jsonName), ("left", toJson left),
        ("right", toJson right)])
  | .unary op operand =>
      .tagged "Unop" (.record [("op", .text op.jsonName), ("arg", toJson operand)])
  | .constant value => .tagged "Constant" (.integer value.toInt)
  | .reference name => .tagged "Refname" (.text name)

/-- Trees in JSON, in order. -/
def toJsonAll : List Node → List Json
  | [] => []
  | node :: rest => toJson node :: toJsonAll rest
end

/-- The JSON text of a tree. -/
def jsonText (node : Node) : String :=
  node.toJson.pretty

end Node

/-! ## Reading: scalars and fields -/

namespace Json

/-- The text a string denotes. -/
def text? : Json → Option String
  | .string content => content
  | _ => none

/-- A signed 32-bit word. -/
def int32? : Json → Option Int32
  | .integer value =>
      if -2147483648 ≤ value ∧ value ≤ 2147483647 then some (Int32.ofInt value) else none
  | _ => none

/-- An unsigned 32-bit word. -/
def uint32? : Json → Option UInt32
  | .integer value =>
      if 0 ≤ value ∧ value ≤ 4294967295 then some (UInt32.ofNat value.toNat) else none
  | _ => none

/-- The items of an array. -/
def items? : Json → Option (List Json)
  | .array items => some items
  | _ => none

/-- The value of a field among members: absent, or given once. -/
def field? (name : String) (members : List (Option String × Json)) : Option (Option Json) :=
  match members.filter fun member => member.1 == some name with
  | [] => some none
  | [(_, value)] => some (some value)
  | _ => none

/-- The values of the fields with given names. An array gives all of them in
order; an object gives each at most once, among others that are passed over. -/
def fields? (names : List String) : Json → Option (List (Option Json))
  | .array items => if items.length = names.length then some (items.map some) else none
  | .object members =>
      if members.all fun member => member.1.isSome then names.mapM (field? · members) else none
  | _ => none

/-- An operator by its name, as a string or as the key of a null, given how many
arrays and objects may still be opened. -/
def operator? {α : Type} (ofName? : String → Option α) (budget : Nat) : Json → Option α
  | .string (some name) => ofName? name
  | .object [(some name, .null)] => if 0 < budget then ofName? name else none
  | _ => none

end Json

/-! ## Reading: trees -/

/-- How many arrays and objects may be open at once. -/
def maxOpen : Nat := 127

/-- A declaration from JSON, given how many arrays and objects may still be
opened. -/
def Declaration.ofJson? (budget : Nat) (value : Json) : Option Declaration :=
  match budget, Json.fields? ["name", "size"] value with
  | _ + 1, some [some name, some size] => do
      return ⟨← name.text?, ← size.uint32?⟩
  | _, _ => none

/-- Declarations from JSON. -/
def Declaration.listOfJson? (budget : Nat) (value : Json) : Option (List Declaration) :=
  match budget, value with
  | budget + 1, .array items => items.mapM (Declaration.ofJson? budget)
  | _, _ => none

/-- Texts from JSON. -/
def Json.texts? (budget : Nat) (value : Json) : Option (List String) :=
  match budget, value with
  | _ + 1, .array items => items.mapM Json.text?
  | _, _ => none

/-- A header from JSON. -/
def Header.ofJson? (budget : Nat) (value : Json) : Option Header :=
  match budget, Json.fields? ["name", "args"] value with
  | budget + 1, some [some name, some parameters] => do
      return ⟨← name.text?, ← parameters.texts? budget⟩
  | _, _ => none

namespace Node

/-- A tree from JSON, given how many arrays and objects may still be opened. -/
def ofJson? : Nat → Json → Option Node
  | budget + 1, .object [(some "ProcHeader", payload)] => do
      return .header (← Header.ofJson? budget payload)
  | budget + 1, .object [(some "VarList", payload)] => do
      return .declarations (← Declaration.listOfJson? budget payload)
  | budget + 1, .object [(some "DeclVar", payload)] => do
      return .declaration (← Declaration.ofJson? budget payload)
  | _ + 1, .object [(some "Constant", payload)] => do
      return .constant (← payload.int32?)
  | _ + 1, .object [(some "Refname", payload)] => do
      return .reference (← payload.text?)
  | budget + 2, .object [(some "Global", payload)] => do
      return .program (← (← payload.items?).mapM (ofJson? budget))
  | budget + 2, .object [(some "OpList", payload)] => do
      return .block (← (← payload.items?).mapM (ofJson? budget))
  | budget + 2, .object [(some "Procedure", payload)] =>
      match payload.fields? ["header", "vars", "code"] with
      | some [some heading, some locals, some body] => do
          return .procedure (← Header.ofJson? budget heading)
            (← Declaration.listOfJson? budget locals) (← ofJson? budget body)
      | _ => none
  | budget + 3, .object [(some "ProcCall", payload)] =>
      match payload.fields? ["name", "args"] with
      | some [some name, some arguments] => do
          return .call (← name.text?) (← (← arguments.items?).mapM (ofJson? budget))
      | _ => none
  | budget + 2, .object [(some "Assign", payload)] =>
      match payload.fields? ["lvalue", "expr"] with
      | some [some target, some value] => do
          return .assign (← ofJson? budget target) (← ofJson? budget value)
      | _ => none
  | budget + 2, .object [(some "If", payload)] =>
      match payload.fields? ["cond", "if_true", "if_false"] with
      | some [some condition, some consequent, alternative] => do
          let condition ← ofJson? budget condition
          let consequent ← ofJson? budget consequent
          match alternative with
          | none | some .null => return .branch condition consequent none
          | some alternative => return .branch condition consequent (← ofJson? budget alternative)
      | _ => none
  | budget + 2, .object [(some "While", payload)] =>
      match payload.fields? ["cond", "body"] with
      | some [some condition, some body] => do
          return .loop (← ofJson? budget condition) (← ofJson? budget body)
      | _ => none
  | budget + 2, .object [(some "Binop", payload)] =>
      match payload.fields? ["op", "left", "right"] with
      | some [some op, some left, some right] => do
          return .binary (← op.operator? BinaryOperator.ofJsonName? budget)
            (← ofJson? budget left) (← ofJson? budget right)
      | _ => none
  | budget + 2, .object [(some "Unop", payload)] =>
      match payload.fields? ["op", "arg"] with
      | some [some op, some operand] => do
          return .unary (← op.operator? UnaryOperator.ofJsonName? budget) (← ofJson? budget operand)
      | _ => none
  | _, _ => none

/-- The tree that a JSON text spells, if it is one and passes the checks. -/
def ofJsonText (source : String) : Except Diagnostic Node :=
  match (Json.parse source).bind (ofJson? maxOpen) with
  | none => .error .malformedTree
  | some node =>
      match node.check with
      | .ok () => .ok node
      | .error fault => .error fault.diagnostic

end Node

end ProcLang
