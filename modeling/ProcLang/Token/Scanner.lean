import ProcLang.Diagnostic
import ProcLang.Text.WhiteSpace
import ProcLang.Token.Basic

/-!
# Scanning

A scanner is the text still to be read and the position it starts at. One step
skips trivia and reads one lexeme. A step that fails leaves the scanner where
it stopped, so scanning can go on after an error.

Trivia is white space and comments, which run from two slashes to the end of
the line. A lexeme is the run of characters that one token is read from
(`Lexeme.ofText`). The trivia and the lexeme are cut off the front of the text,
and nothing is lost (`splitTrivia_append`, `Lexeme.text_append_rest`). Every
token but the end of the text takes at least one character
(`Scanner.length_next_lt`), so reading all tokens ends.
-/

set_option autoImplicit false

namespace ProcLang

/-- Why no token could be read. -/
inductive LexicalFault where
  | unexpectedCharacter (c : Char)
  | integerOutOfRange (digits : String)
  deriving DecidableEq, Repr, Inhabited

/-- The wording of a lexical fault. -/
def LexicalFault.message : LexicalFault → String
  | unexpectedCharacter c => "Unexpected character '" ++ c.toString ++ "'"
  | integerOutOfRange digits => "Integer literal out of range: " ++ digits

/-- A lexical fault and where it was found. -/
structure LexicalError where
  location : Location
  fault : LexicalFault
  deriving DecidableEq, Repr, Inhabited

/-- A lexical error as it is reported. -/
def LexicalError.diagnostic (error : LexicalError) : Diagnostic :=
  .lexical error.location error.fault.message

/-! ## Character classes -/

/-- A character that can start a name. -/
def isNameStart (c : Char) : Bool :=
  ('a' ≤ c && c ≤ 'z') || ('A' ≤ c && c ≤ 'Z') || c == '_'

/-- A character that can continue a name. -/
def isNameChar (c : Char) : Bool :=
  isNameStart c || Decimal.isDigit c

/-! ## Trivia -/

/-- Cut the trivia off the front of a text. The flag says that the text starts
inside a comment; a comment ends before the newline, which is itself white
space. -/
def splitTrivia : Bool → List Char → List Char × List Char
  | _, [] => ([], [])
  | true, c :: rest =>
      let (trivia, remaining) := splitTrivia (c != '\n') rest
      (c :: trivia, remaining)
  | false, '/' :: '/' :: rest =>
      let (trivia, remaining) := splitTrivia true rest
      ('/' :: '/' :: trivia, remaining)
  | false, c :: rest =>
      if WhiteSpace.isWhiteSpace c then
        let (trivia, remaining) := splitTrivia false rest
        (c :: trivia, remaining)
      else
        ([], c :: rest)

/-- Cutting trivia off loses nothing. -/
theorem splitTrivia_append (inside : Bool) (source : List Char) :
    (splitTrivia inside source).1 ++ (splitTrivia inside source).2 = source := by
  fun_induction splitTrivia inside source <;> simp_all

/-! ## Lexemes -/

/-- The largest integer a literal may denote. -/
def maxInteger : Nat := 2147483647

/-- The integer token for a run of digits, unless its value is too large. -/
def TokenKind.ofDigits (run : List Char) : Except LexicalFault TokenKind :=
  if Decimal.value run ≤ maxInteger then
    .ok (.integer (Int32.ofNat (Decimal.value run)))
  else
    .error (.integerOutOfRange (String.ofList run))

/-- The first lexeme of a text: what it is, its characters, and what follows. -/
structure Lexeme where
  kind : Except LexicalFault TokenKind
  text : List Char
  rest : List Char

namespace Lexeme

/-- Read the first lexeme of a text that does not start with trivia. A
character that starts no token is left unread. -/
def ofText : List Char → Lexeme
  | [] => ⟨.ok .endOfFile, [], []⟩
  | c :: rest =>
      if isNameStart c then
        ⟨.ok (.ofWord (String.ofList (c :: rest.takeWhile isNameChar))),
          c :: rest.takeWhile isNameChar, rest.dropWhile isNameChar⟩
      else if Decimal.isDigit c then
        ⟨TokenKind.ofDigits (c :: rest.takeWhile Decimal.isDigit),
          c :: rest.takeWhile Decimal.isDigit, rest.dropWhile Decimal.isDigit⟩
      else
        match Symbol.beforeEquals? c, rest with
        | some mark, '=' :: rest => ⟨.ok (.symbol mark), [c, '='], rest⟩
        | some _, rest => ⟨.error (.unexpectedCharacter c), [c], rest⟩
        | none, rest =>
            match Symbol.ofChar? c with
            | some mark => ⟨.ok (.symbol mark), [c], rest⟩
            | none => ⟨.error (.unexpectedCharacter c), [], c :: rest⟩

/-- Cutting a lexeme off loses nothing. -/
theorem text_append_rest (source : List Char) :
    (ofText source).text ++ (ofText source).rest = source := by
  fun_cases ofText source <;> simp_all

theorem ofWord_ne_endOfFile (word : String) : TokenKind.ofWord word ≠ .endOfFile := by
  fun_cases TokenKind.ofWord word <;> simp

/-- Only the end of the text reads as the end of the text. -/
theorem text_ne_nil {source : List Char} {kind : TokenKind}
    (read : (ofText source).kind = .ok kind) (ordinary : kind ≠ .endOfFile) :
    (ofText source).text ≠ [] := by
  revert read
  fun_cases ofText source with
  | case1 => exact fun read => absurd (Except.ok.inj read).symm ordinary
  | case7 => exact nofun
  | _ => simp

end Lexeme

/-! ## Scanner -/

/-- The text still to be read and where it starts. -/
structure Scanner where
  rest : List Char
  position : Position
  deriving DecidableEq, Repr, Inhabited

namespace Scanner

/-- A scanner at the start of a text. -/
def ofSource (source : String) : Scanner :=
  ⟨source.toList, .origin⟩

/-- Skip white space and comments. -/
def skipTrivia (scanner : Scanner) : Scanner :=
  let (trivia, rest) := splitTrivia false scanner.rest
  ⟨rest, scanner.position.after trivia⟩

/-- The scanner just after the next lexeme, given that trivia is skipped. -/
def afterLexeme (scanner : Scanner) : Scanner :=
  let lexeme := Lexeme.ofText scanner.rest
  ⟨lexeme.rest, scanner.position.after lexeme.text⟩

/-- Read one token. -/
def next (scanner : Scanner) : Except LexicalError Token × Scanner :=
  let start := scanner.skipTrivia
  let stop := start.afterLexeme
  match (Lexeme.ofText start.rest).kind with
  | .ok kind => (.ok ⟨kind, start.position.location, stop.position.location⟩, stop)
  | .error fault => (.error ⟨start.position.location, fault⟩, stop)

theorem length_skipTrivia_le (scanner : Scanner) :
    scanner.skipTrivia.rest.length ≤ scanner.rest.length := by
  have whole := congrArg List.length (splitTrivia_append false scanner.rest)
  rw [List.length_append] at whole
  simp only [skipTrivia]
  omega

/-- Reading an ordinary token shortens the text. -/
theorem length_next_lt {scanner after : Scanner} {token : Token}
    (step : scanner.next = (.ok token, after)) (ordinary : token.kind ≠ .endOfFile) :
    after.rest.length < scanner.rest.length := by
  have skipped := length_skipTrivia_le scanner
  have whole := congrArg List.length (Lexeme.text_append_rest scanner.skipTrivia.rest)
  rw [List.length_append] at whole
  simp only [next] at step
  split at step
  next kind read =>
    obtain ⟨rfl, rfl⟩ := by simpa using step
    have taken := List.length_pos_iff.2 (Lexeme.text_ne_nil read ordinary)
    simp only [afterLexeme]
    omega
  next => simp at step

/-- Read all tokens up to and including the end of the text. -/
def all (scanner : Scanner) : Except LexicalError (List Token) × Scanner :=
  match step : scanner.next with
  | (.error fault, after) => (.error fault, after)
  | (.ok token, after) =>
      if ordinary : token.kind ≠ .endOfFile then
        have := length_next_lt step ordinary
        match after.all with
        | (.ok tokens, final) => (.ok (token :: tokens), final)
        | (.error fault, final) => (.error fault, final)
      else
        (.ok [token], after)
termination_by scanner.rest.length

end Scanner

/-- The tokens of a source text, the last of which is the end of the text. -/
def tokensOf (source : String) : Except LexicalError (List Token) :=
  (Scanner.ofSource source).all.1

end ProcLang
