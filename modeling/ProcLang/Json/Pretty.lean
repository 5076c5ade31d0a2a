import ProcLang.Json.Value

/-!
# JSON text, laid out

Each item of an array and each member of an object stands on a line of its own,
indented by two spaces for every array and object around it; an empty array or
object stays on one line. Strings are written with the shortest escapes there
are, and only where an escape is needed.
-/

set_option autoImplicit false

namespace ProcLang.Json

/-- A hexadecimal digit in lower case. -/
def hexDigit (n : Nat) : Char :=
  if n % 16 < 10 then Char.ofNat ('0'.toNat + n % 16) else Char.ofNat ('a'.toNat + (n % 16 - 10))

/-- How a character is written inside a string. -/
def escape (c : Char) : List Char :=
  if c = '"' then ['\\', '"']
  else if c = '\\' then ['\\', '\\']
  else if c = '\n' then ['\\', 'n']
  else if c = '\r' then ['\\', 'r']
  else if c = '\t' then ['\\', 't']
  else if c.toNat = 0x08 then ['\\', 'b']
  else if c.toNat = 0x0C then ['\\', 'f']
  else if c.toNat < 0x20 then
    ['\\', 'u', '0', '0', hexDigit (c.toNat / 16), hexDigit c.toNat]
  else [c]

/-- A text in quotes. -/
def quote (content : List Char) : List Char :=
  '"' :: (content.flatMap escape ++ ['"'])

/-- A string in quotes. One that denotes no text is written as an empty one. -/
def quoteText (content : Option String) : List Char :=
  quote (content.getD "").toList

/-- The start of a new line inside a given number of arrays and objects. -/
def newline (indent : Nat) : List Char :=
  '\n' :: List.replicate (2 * indent) ' '

mutual
/-- The text of a value that stands inside a given number of arrays and objects. -/
def layout (indent : Nat) : Json → List Char
  | .null => ['n', 'u', 'l', 'l']
  | .bool true => ['t', 'r', 'u', 'e']
  | .bool false => ['f', 'a', 'l', 's', 'e']
  | .integer value => Decimal.signedDigits value
  | .decimal spelling => spelling
  | .string content => quoteText content
  | .array [] => ['[', ']']
  | .array (item :: rest) =>
      '[' :: (newline (indent + 1) ++ (layout (indent + 1) item ++
        (layoutItems (indent + 1) rest ++ (newline indent ++ [']']))))
  | .object [] => ['\x7b', '\x7d']
  | .object ((key, value) :: rest) =>
      '\x7b' :: (newline (indent + 1) ++ (quoteText key ++ (':' :: ' ' ::
        (layout (indent + 1) value ++
          (layoutMembers (indent + 1) rest ++ (newline indent ++ ['\x7d']))))))

/-- The text of the items after the first. -/
def layoutItems (indent : Nat) : List Json → List Char
  | [] => []
  | item :: rest =>
      ',' :: (newline indent ++ (layout indent item ++ layoutItems indent rest))

/-- The text of the members after the first. -/
def layoutMembers (indent : Nat) : List (Option String × Json) → List Char
  | [] => []
  | (key, value) :: rest =>
      ',' :: (newline indent ++ (quoteText key ++ (':' :: ' ' ::
        (layout indent value ++ layoutMembers indent rest))))
end

/-- The text of a value. -/
def pretty (value : Json) : String :=
  String.ofList (layout 0 value)

end ProcLang.Json
