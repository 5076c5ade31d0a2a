import ProcLang.Event
import ProcLang.Text.Separated
import ProcLang.Text.Terminal

/-!
# The error stream

The log and the diagnostics of a run go to one stream, one after the other. A
record of the log is its heading, its message and a newline. The lines of a
message after the first are indented.

Names in a program can hold any character, so a record is made safe for a
terminal. That can take its newline away, if a sequence that is not finished
stands in a name; what comes next then continues the line. A diagnostic is
written as it is.

The stream is kept as the symbols written to it, and its lines are read off
afterwards (`ErrorStream.lines`). A record is a line that starts with a heading.
-/

set_option autoImplicit false

namespace ProcLang

/-- What is written to the error stream. -/
inductive ErrorSymbol where
  /-- The heading of a record, which shows its level. -/
  | heading (level : Level)
  | char (c : Char)
  deriving DecidableEq, Repr, Inhabited

/-- The characters of a symbol. -/
def ErrorSymbol.spelling : ErrorSymbol → List Char
  | heading level => '[' :: (level.text.toList ++ [']', ' '])
  | char c => [c]

/-- All that was written to the error stream, in order. -/
abbrev ErrorStream : Type := List ErrorSymbol

/-- A line on the error stream. -/
inductive ErrorLine where
  /-- A line that starts with the heading of a record, without it. -/
  | record (level : Level) (text : String)
  /-- Any other line. -/
  | plain (text : String)
  deriving DecidableEq, Repr, Inhabited

namespace ErrorStream

/-- The symbols of a text. -/
def ofChars (text : List Char) : ErrorStream :=
  text.map .char

/-- The stream after a text and a newline were written to it. -/
def ofLine (text : String) : ErrorStream :=
  ofChars (text.toList ++ ['\n'])

/-- The stream as text. -/
def text (stream : ErrorStream) : String :=
  String.ofList (stream.flatMap ErrorSymbol.spelling)

/-- A line without the carriage return in front of its newline. -/
def withoutReturn (line : ErrorStream) : ErrorStream :=
  if line.getLast? = some (.char '\r') then line.dropLast else line

/-- The symbols of each line, without its newline. The last line may lack its
newline, and it is none if it is empty. -/
def lineSymbols (stream : ErrorStream) : List ErrorStream :=
  let pieces := Separated.split (.char '\n') stream
  let finished := pieces.dropLast.map withoutReturn
  match pieces.getLast? with
  | none | some [] => finished
  | some last => finished ++ [last]

/-- The line that symbols make up. -/
def toLine : ErrorStream → ErrorLine
  | .heading level :: rest => .record level (text rest)
  | symbols => .plain (text symbols)

/-- The lines of the stream. -/
def lines (stream : ErrorStream) : List ErrorLine :=
  stream.lineSymbols.map toLine

end ErrorStream

namespace Event

/-- How far the lines of a message after the first are indented. -/
def continuationIndent : Nat := 4

/-- A text with all lines after the first indented. -/
def indentContinuation (text : List Char) : List Char :=
  text.flatMap fun c =>
    if c = '\n' then '\n' :: List.replicate continuationIndent ' ' else [c]

/-- The record of an event. -/
def record (event : Event) : ErrorStream :=
  .heading event.level ::
    ErrorStream.ofChars (Terminal.plain (indentContinuation event.message.toList ++ ['\n']))

end Event

end ProcLang
