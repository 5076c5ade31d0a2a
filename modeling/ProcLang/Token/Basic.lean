import ProcLang.Source.Location

/-!
# Tokens

A token is a kind with the span it was read from. Kinds fall into five
classes: integers, identifiers, the thirteen keywords, the sixteen symbols, and
the end of the text.

Every kind has one written form (`TokenKind.text`), which is both what an error
message quotes and, apart from the end of the text, what the scanner reads back
as that kind.
-/

set_option autoImplicit false

namespace ProcLang

/-- The reserved words. -/
inductive Keyword where
  | kwProc
  | kwVar
  | kwBegin
  | kwEnd
  | kwIf
  | kwThen
  | kwElse
  | kwWhile
  | kwDo
  | kwAnd
  | kwOr
  | kwXor
  | kwNot
  deriving DecidableEq, Repr, Inhabited

namespace Keyword

/-- The spelling of a reserved word. -/
def text : Keyword → String
  | kwProc => "proc"
  | kwVar => "var"
  | kwBegin => "begin"
  | kwEnd => "end"
  | kwIf => "if"
  | kwThen => "then"
  | kwElse => "else"
  | kwWhile => "while"
  | kwDo => "do"
  | kwAnd => "and"
  | kwOr => "or"
  | kwXor => "xor"
  | kwNot => "not"

/-- All reserved words. -/
def all : List Keyword :=
  [kwProc, kwVar, kwBegin, kwEnd, kwIf, kwThen, kwElse, kwWhile, kwDo, kwAnd, kwOr, kwXor, kwNot]

/-- The reserved word with a given spelling. -/
def ofText? (word : String) : Option Keyword :=
  all.find? fun keyword => keyword.text == word

theorem mem_all (keyword : Keyword) : keyword ∈ all := by
  cases keyword <;> decide

end Keyword

/-- Operators and punctuation. -/
inductive Symbol where
  | assign
  | plus
  | minus
  | star
  | slash
  | percent
  | equalEqual
  | bangEqual
  | less
  | greater
  | leftParen
  | rightParen
  | leftBracket
  | rightBracket
  | comma
  | semicolon
  deriving DecidableEq, Repr, Inhabited

namespace Symbol

/-- The spelling of a symbol. -/
def text : Symbol → String
  | assign => ":="
  | plus => "+"
  | minus => "-"
  | star => "*"
  | slash => "/"
  | percent => "%"
  | equalEqual => "=="
  | bangEqual => "!="
  | less => "<"
  | greater => ">"
  | leftParen => "("
  | rightParen => ")"
  | leftBracket => "["
  | rightBracket => "]"
  | comma => ","
  | semicolon => ";"

/-- The symbol spelled with one character. -/
def ofChar? : Char → Option Symbol
  | '+' => some plus
  | '-' => some minus
  | '*' => some star
  | '/' => some slash
  | '%' => some percent
  | '<' => some less
  | '>' => some greater
  | '(' => some leftParen
  | ')' => some rightParen
  | '[' => some leftBracket
  | ']' => some rightBracket
  | ',' => some comma
  | ';' => some semicolon
  | _ => none

/-- The symbol spelled with a given character and an equals sign. -/
def beforeEquals? : Char → Option Symbol
  | ':' => some assign
  | '=' => some equalEqual
  | '!' => some bangEqual
  | _ => none

end Symbol

/-- What a token is. -/
inductive TokenKind where
  | integer (value : Int32)
  | identifier (name : String)
  | keyword (word : Keyword)
  | symbol (mark : Symbol)
  | endOfFile
  deriving DecidableEq, Repr, Inhabited

namespace TokenKind

/-- The written form of a token. -/
def text : TokenKind → String
  | integer value => Decimal.signedText value.toInt
  | identifier name => name
  | keyword word => word.text
  | symbol mark => mark.text
  | endOfFile => "end of file"

/-- A word is a keyword if it is spelled like one, and an identifier if not. -/
def ofWord (word : String) : TokenKind :=
  match Keyword.ofText? word with
  | some reserved => keyword reserved
  | none => identifier word

end TokenKind

/-- A token: its kind and where it stands. -/
structure Token where
  kind : TokenKind
  span : Span
  deriving DecidableEq, Repr, Inhabited

end ProcLang
