/-!
# Terminal text

What is left of a text when nothing in it is to act on a terminal. Control
characters are dropped, except for those that are white space, and so are the
sequences that an escape character starts:

- a control sequence, up to its final letter;
- an operating system command, up to the bell;
- a device control string, or any other string, up to the string terminator;
- any other escape, up to its final character.

White space is kept also inside a control sequence or a short escape. It
suspends the sequence: text is kept up to the next control character, where the
sequence goes on.
-/

set_option autoImplicit false

namespace ProcLang.Terminal

/-- Control characters that are white space: tab, newline, form feed and
carriage return. -/
def isBlank (c : Char) : Bool :=
  c = '\t' || c = '\n' || c = '\x0c' || c = '\r'

/-- Whether a character belongs to ASCII. -/
def isAscii (c : Char) : Bool :=
  c.toNat < 0x80

/-- Whether a character has a code within given bounds. -/
def isWithin (first last : Nat) (c : Char) : Bool :=
  first ≤ c.toNat && c.toNat ≤ last

/-- Whether a character is kept outside sequences. -/
def isShown (c : Char) : Bool :=
  isBlank c || isWithin 0x20 0x7e c || !isAscii c

/-- Whether a character ends a string: its encoding has the byte of the string
terminator. -/
def endsString (c : Char) : Bool :=
  (String.singleton c).toUTF8.toList.contains 0x9c

/-- The kind of sequence a terminal is in the middle of. -/
inductive Sequence where
  /-- None: this is text. -/
  | text
  /-- An escape character was read. -/
  | escape
  /-- An escape with more to come before its final character. -/
  | designation
  /-- A control sequence. -/
  | control
  /-- The start of a device control string. -/
  | deviceStart
  /-- The parameters of a device control string. -/
  | deviceParameters
  /-- What stands between the parameters of a device control string and its name. -/
  | deviceIntermediate
  /-- A string that goes on to its terminator. -/
  | string
  /-- An operating system command. -/
  | command
  deriving DecidableEq, Repr, Inhabited

namespace Sequence

/-- What the character after an escape character starts. -/
def ofEscape (c : Char) : Sequence :=
  if isWithin 0x20 0x2f c then .designation
  else if c = '[' then .control
  else if c = ']' then .command
  else if c = 'P' then .deviceStart
  else if c = 'X' || c = '^' || c = '_' then .string
  else if isWithin 0x30 0x7e c then .text
  else .escape

/-- The sequence after one more character. An escape character starts anew, and
a cancel or substitute character ends any sequence. -/
def next (sequence : Sequence) (c : Char) : Sequence :=
  if c = '\x1b' then .escape
  else if c = '\x18' || c = '\x1a' then .text
  else
    match sequence with
    | .text => .text
    | .escape => ofEscape c
    | .designation => if isWithin 0x30 0x7e c then .text else .designation
    | .control => if isWithin 0x40 0x7e c then .text else .control
    | .deviceStart =>
        if isWithin 0x20 0x2f c then .deviceIntermediate
        else if isWithin 0x30 0x3f c then .deviceParameters
        else if isWithin 0x40 0x7e c then .string
        else .deviceStart
    | .deviceParameters =>
        if isWithin 0x20 0x2f c then .deviceIntermediate
        else if isWithin 0x3c 0x7e c then .string
        else .deviceParameters
    | .deviceIntermediate => if isWithin 0x30 0x7e c then .string else .deviceIntermediate
    | .string => if endsString c then .text else .string
    | .command => if c = '\x07' then .text else .command

/-- Whether white space suspends a sequence. -/
def isSuspendable : Sequence → Bool
  | .escape | .designation | .control => true
  | _ => false

end Sequence

/-- What is kept of a text that starts inside a sequence. The flag says that
the sequence is suspended. -/
def plainFrom (suspended : Bool) (sequence : Sequence) : List Char → List Char
  | [] => []
  | c :: rest =>
      if suspended || sequence = .text then
        if isShown c then c :: plainFrom suspended (if isAscii c then sequence else .text) rest
        else plainFrom false (sequence.next c) rest
      else if sequence.isSuspendable && isBlank c then c :: plainFrom true sequence rest
      else plainFrom false (sequence.next c) rest

/-- What is kept of a text. -/
def plain (source : List Char) : List Char :=
  plainFrom false .text source

end ProcLang.Terminal
