import ProcLang.Grammar.Statement
import ProcLang.Token.Scanner

/-!
# Programs

A program is a sequence of items up to the end of the text. An item declares
global variables or a procedure. The side conditions of the grammar are that a
declared size is positive and that a procedure's frame is within reach.

`TokenStream` is the public face of the grammar: the tokens still to be read
and the location that stands for their end. A rule applied to a stream leaves a
stream, also when it fails.
-/

set_option autoImplicit false

namespace ProcLang

namespace Grammar

/-! ## Declarations -/

/-- A declared size must be positive. -/
def checkSize (location : Location) (name : String) (size : Int32) :
    Except SyntaxFault Declaration :=
  if size < 1 then .error (.brokenCondition (.positiveSize name size.toInt) location)
  else .ok ⟨name, size.toUInt32⟩

/-- The size of an array after its opening bracket. -/
def arrayTail (finish : Location) (name : String) (tokens : List Token) :
    Reading 1 tokens Declaration :=
  .weaken 1 <| (expectInteger finish .arraySize tokens).bind fun size rest _ =>
    (expect finish (.symbol .rightBracket) .arraySize rest).bind fun _ rest _ =>
      (Reading.check (checkSize (nextLocation finish tokens) name size)).bind fun declared rest _ =>
        .report (.declared name size.toInt) declared

/-- A name, or a name with a size in brackets. -/
def declaration (finish : Location) (tokens : List Token) : Reading 1 tokens Declaration :=
  (expectIdentifier finish .declaration tokens).bind fun name rest _ =>
    match rest with
    | ⟨.symbol .leftBracket, span⟩ :: rest =>
        .weaken 0 <| .after ⟨.symbol .leftBracket, span⟩ <| arrayTail finish name rest
    | _ => .pure ⟨name, 1⟩

/-- One or more declarations, divided by commas. -/
def declarations (finish : Location) (tokens : List Token) : Reading 1 tokens (List Declaration) :=
  (declaration finish tokens).bind fun first rest _ =>
    match rest with
    | ⟨.symbol .comma, span⟩ :: rest =>
        .weaken 0 <| .after ⟨.symbol .comma, span⟩ <| (declarations finish rest).map (first :: ·)
    | _ => .pure [first]
termination_by tokens.length
decreasing_by
  simp only [List.length_cons] at *
  omega

/-- Declarations after the word that announces them, and the semicolon after
them, if there is one. -/
def declarationsTail (finish : Location) (tokens : List Token) :
    Reading 1 tokens (List Declaration) :=
  (declarations finish tokens).bind fun declared rest _ =>
    (skip (.symbol .semicolon) rest).map fun _ => declared

/-! ## Procedures -/

/-- One or more parameters, divided by commas. -/
def parameters (finish : Location) (tokens : List Token) : Reading 1 tokens (List String) :=
  (expectIdentifier finish .parameterList tokens).bind fun first rest _ =>
    match rest with
    | ⟨.symbol .comma, span⟩ :: rest =>
        .weaken 0 <| .after ⟨.symbol .comma, span⟩ <| (parameters finish rest).map (first :: ·)
    | _ => .pure [first]
termination_by tokens.length
decreasing_by
  simp only [List.length_cons] at *
  omega

/-- The parameters of a procedure, if there are any. -/
def parameterList (finish : Location) (tokens : List Token) : Reading 0 tokens (List String) :=
  match tokens with
  | ⟨.symbol .rightParen, _⟩ :: _ => .pure []
  | tokens => .weaken 0 (parameters finish tokens)

/-- The local declarations of a procedure, if there are any. -/
def locals (finish : Location) (tokens : List Token) : Reading 0 tokens (List Declaration) :=
  match tokens with
  | ⟨.keyword .kwVar, span⟩ :: rest =>
      .weaken 0 <| .after ⟨.keyword .kwVar, span⟩ <| declarationsTail finish rest
  | _ => .pure []

/-- The name and the parameters of a procedure. -/
def header (finish : Location) (tokens : List Token) : Reading 1 tokens Header :=
  .weaken 1 <| (expect finish (.keyword .kwProc) .procedure tokens).bind fun _ rest _ =>
    (expectIdentifier finish .procedureName rest).bind fun name rest _ =>
      (expect finish (.symbol .leftParen) .parameterList rest).bind fun _ rest _ =>
        (parameterList finish rest).bind fun parameters rest _ =>
          (expect finish (.symbol .rightParen) .parameterList rest).map fun _ => ⟨name, parameters⟩

/-- The body of a procedure, and the semicolon after it, if there is one. -/
def procedureBody (finish : Location) (tokens : List Token) : Reading 1 tokens (List Node) :=
  .weaken 1 <| (expect finish (.keyword .kwBegin) .procedureBody tokens).bind fun _ rest _ =>
    (statements finish rest).bind fun body rest _ =>
      (expect finish (.keyword .kwEnd) .procedureBody rest).bind fun _ rest _ =>
        (skip (.symbol .semicolon) rest).map fun _ => body

/-- The frame of a procedure must be within reach. -/
def checkReach (location : Location) (heading : Header) (declared : List Declaration)
    (body : List Node) : Except SyntaxFault Node :=
  match (Scope.mk declared heading.parameters).frameExtent? with
  | some _ => .ok (.procedure heading declared (.block body))
  | none => .error (.brokenCondition (.frameInReach heading.name) location)

/-- A procedure. -/
def procedure (finish : Location) (tokens : List Token) : Reading 1 tokens Node :=
  .weaken 1 <| (header finish tokens).bind fun heading rest _ =>
    (locals finish rest).bind fun declared rest _ =>
      (procedureBody finish rest).bind fun body rest _ =>
        (Reading.check (checkReach (nextLocation finish tokens) heading declared body)).bind
          fun node rest _ =>
            .report (.procedureRead heading.name heading.parameters.length declared.length) node

/-! ## Items -/

/-- An item of a program. -/
def item (finish : Location) (tokens : List Token) : Reading 1 tokens Node :=
  match tokens with
  | ⟨.keyword .kwVar, span⟩ :: rest =>
      .weaken 1 <| .after ⟨.keyword .kwVar, span⟩ <|
        (declarationsTail finish rest).map .declarations
  | ⟨.keyword .kwProc, span⟩ :: rest => procedure finish (⟨.keyword .kwProc, span⟩ :: rest)
  | tokens => .fail (unexpected finish .item tokens)

/-- Whether no further item can follow. -/
def endsProgram : List Token → Bool
  | [] => true
  | token :: _ => token.kind == .endOfFile

/-- Items up to the end of the text. -/
def items (finish : Location) (tokens : List Token) : Reading 0 tokens (List Node) :=
  if endsProgram tokens then .pure []
  else
    .weaken 0 <| (item finish tokens).bind fun first rest _ =>
      (items finish rest).map (first :: ·)
termination_by tokens.length

/-- A program. -/
def program (finish : Location) (tokens : List Token) : Reading 0 tokens Node :=
  (items finish tokens).bind fun read _ _ =>
    .report (.programRead read.length) (.program read)

end Grammar

/-! ## Streams -/

/-- Tokens to be read, and the location that stands for their end. -/
structure TokenStream where
  tokens : List Token
  finish : Location
  deriving DecidableEq, Repr, Inhabited

namespace TokenStream

/-- A stream at its start. Its end is where its last token starts. -/
def ofTokens (tokens : List Token) : TokenStream :=
  ⟨tokens, match tokens.getLast? with
    | some token => token.span.start
    | none => Position.origin.location⟩

/-- What a rule makes of a stream. -/
structure Result (α : Type) where
  outcome : Except SyntaxFault α
  stream : TokenStream
  events : List Event

/-- Apply a rule of the grammar. -/
def read {α : Type} {least : Nat}
    (rule : Location → (tokens : List Token) → Reading least tokens α) (stream : TokenStream) :
    Result α :=
  let reading := rule stream.finish stream.tokens
  ⟨reading.outcome, ⟨reading.rest, stream.finish⟩, reading.events⟩

end TokenStream

/-- The tree of a source text, and the events of reading it. -/
def parse (source : String) : Except Diagnostic Node × List Event :=
  match tokensOf source with
  | .error error => (.error error.diagnostic, [])
  | .ok tokens =>
      let result := (TokenStream.ofTokens tokens).read Grammar.program
      match result.outcome with
      | .ok tree => (.ok tree, result.events)
      | .error fault => (.error fault.diagnostic, result.events)

end ProcLang
