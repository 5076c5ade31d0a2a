import ProcLang.Text.Decimal

/-!
# Places in a source text

A position counts lines and columns from one, and a column counts code points.
A location adds the name of the text the position belongs to, because a token
can come from a text other than the one being read.

The counts are natural numbers. A count never exceeds the number of characters by
more than one, so on texts of fewer than `2 ^ 32 - 1` characters they are those of
counters of 32 bits, and on longer texts such counters may run over.
-/

set_option autoImplicit false

namespace ProcLang

/-- A place in a named text, as error messages show it. -/
structure Location where
  file : String
  line : Nat
  column : Nat
  deriving DecidableEq, Repr, Inhabited

namespace Location

/-- The file name given to text that was not read from a named file. -/
def anonymousFile : String := "<input>"

/-- The written form: file, line and column, divided by colons. -/
def text (location : Location) : String :=
  location.file ++ ":" ++ Decimal.text location.line ++ ":" ++ Decimal.text location.column

end Location

/-- The stretch of text a token was read from, from its first character to the
place just after its last. -/
structure Span where
  start : Location
  stop : Location
  deriving DecidableEq, Repr, Inhabited

/-- A line and a column, both counted from one. -/
structure Position where
  line : Nat
  column : Nat
  deriving DecidableEq, Repr, Inhabited

namespace Position

/-- Where every text begins. -/
def origin : Position := ⟨1, 1⟩

/-- The position after one character: a newline starts the next line. -/
def next (position : Position) (c : Char) : Position :=
  if c = '\n' then ⟨position.line + 1, 1⟩ else ⟨position.line, position.column + 1⟩

/-- The position after a run of characters. -/
def after (position : Position) (run : List Char) : Position :=
  run.foldl next position

/-- The position as a place in the anonymous text. -/
def location (position : Position) : Location :=
  ⟨Location.anonymousFile, position.line, position.column⟩

@[simp] theorem after_nil (position : Position) : position.after [] = position := rfl

@[simp] theorem after_cons (position : Position) (c : Char) (run : List Char) :
    position.after (c :: run) = (position.next c).after run := rfl

end Position

end ProcLang
