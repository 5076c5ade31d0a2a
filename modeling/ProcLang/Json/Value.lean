import ProcLang.Text.Decimal

/-!
# JSON values

A value as its text gives it. Two distinctions are kept that the text makes and
that matter to a reader: whether a number is written as an integer, and whether
the escapes of a string pair up to characters. A string in which half of a
surrogate pair stands alone denotes no text.
-/

set_option autoImplicit false

namespace ProcLang

/-- A JSON value. -/
inductive Json where
  | null
  | bool (value : Bool)
  /-- A number written as an integer; minus zero is not one. -/
  | integer (value : Int)
  /-- Any other number, by its spelling. -/
  | decimal (spelling : List Char)
  /-- A string, with the text it denotes if it denotes one. -/
  | string (content : Option String)
  | array (items : List Json)
  /-- Members in order; the same key may stand more than once. -/
  | object (members : List (Option String × Json))
  deriving Inhabited

namespace Json

/-- A string that denotes a given text. -/
def text (content : String) : Json :=
  .string (some content)

/-- An object with keys that denote given texts. -/
def record (members : List (String × Json)) : Json :=
  .object (members.map fun (key, value) => (some key, value))

/-- An object with a single member. -/
def tagged (tag : String) (payload : Json) : Json :=
  record [(tag, payload)]

mutual
/-- How many arrays and objects are open at once, at most. -/
def depth : Json → Nat
  | .array items => depthItems items + 1
  | .object members => depthMembers members + 1
  | _ => 0

/-- The greatest depth of an item. -/
def depthItems : List Json → Nat
  | [] => 0
  | item :: rest => max (depth item) (depthItems rest)

/-- The greatest depth of a member. -/
def depthMembers : List (Option String × Json) → Nat
  | [] => 0
  | (_, value) :: rest => max (depth value) (depthMembers rest)
end

end Json

end ProcLang
