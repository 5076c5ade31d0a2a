import ProcLang.Text.Decimal

/-!
# Events

What the reading and lowering of a program tell about their progress. An event
has a level and a wording; a log is the list of events in the order in which
they happened, and `keep` is what a reader of a given level sees of it.
-/

set_option autoImplicit false

namespace ProcLang

/-- How much an event matters, from most to least. -/
inductive Level where
  | warn
  | info
  | debug
  | trace
  deriving DecidableEq, Repr, Inhabited

namespace Level

/-- The place of a level in the order from most to least severe. -/
def rank : Level → Nat
  | warn => 0
  | info => 1
  | debug => 2
  | trace => 3

/-- The written form of a level. -/
def text : Level → String
  | warn => "WARN"
  | info => "INFO"
  | debug => "DEBUG"
  | trace => "TRACE"

end Level

/-- Something that happened while a program was read or lowered. -/
inductive Event where
  /-- An array was declared. -/
  | declared (name : String) (words : Int)
  /-- A procedure was read. -/
  | procedureRead (name : String) (parameters locals : Nat)
  /-- A program was read. -/
  | programRead (items : Nat)
  /-- The tree of the input is complete. -/
  | treeBuilt
  /-- A name stands for a word of the frame. -/
  | frameSlot (name : String) (shift depth : Nat)
  /-- A name stands for a global. -/
  | globalLabel (name label : String)
  /-- A node without an address is used as one. -/
  | addressOfValue
  /-- A statement stands where a value is needed. -/
  | parked (cursor : Nat)
  /-- A procedure stands inside a statement. -/
  | nestedProcedure (name : String)
  /-- A choice is lowered. -/
  | branch (id : Nat) (hasAlternative : Bool)
  /-- A loop is lowered. -/
  | loop (id : Nat)
  /-- A call is lowered. -/
  | call (name : String) (arguments : Nat)
  /-- An intrinsic was given more than it uses. -/
  | extraArguments (name : String) (extra : Nat)
  /-- Input is lowered. -/
  | intrinsicRead
  /-- Output is lowered. -/
  | intrinsicWrite
  /-- A procedure is lowered. -/
  | procedure (name : String) (locals parameters frame : Nat)
  /-- A frame is out of reach of an offset. -/
  | frameOutOfReach (name : String)
  /-- The procedure to start with does not exist. -/
  | entryUndefined (entry : String)
  /-- A program was lowered. -/
  | lowered (code data : Nat)
  /-- Assembly is about to be written. -/
  | emitting (instructions : Nat)
  deriving DecidableEq, Repr, Inhabited

namespace Event

/-- How much an event matters. -/
def level : Event → Level
  | declared .. | procedureRead .. | frameSlot .. | globalLabel .. | addressOfValue
  | parked .. | branch .. | loop .. | intrinsicRead | intrinsicWrite => .trace
  | programRead .. | treeBuilt | call .. | lowered .. => .debug
  | procedure .. | emitting .. => .info
  | nestedProcedure .. | extraArguments .. | frameOutOfReach .. | entryUndefined .. => .warn

/-- The wording of an event. -/
def message : Event → String
  | declared name words => "Declared '" ++ name ++ "' with " ++ Decimal.signedText words ++ " words"
  | procedureRead name parameters locals =>
      "Parsed procedure '" ++ name ++ "' (" ++ Decimal.text parameters ++ " args, " ++
        Decimal.text locals ++ " locals)"
  | programRead items => "Parsed program with " ++ Decimal.text items ++ " top-level items"
  | treeBuilt => "syntax tree built"
  | frameSlot name shift depth =>
      "resolve " ++ name ++ ": frame slot -" ++ Decimal.text shift ++ " (depth " ++
        Decimal.text depth ++ ")"
  | globalLabel name label => "resolve " ++ name ++ ": label " ++ label
  | addressOfValue => "non-lvalue used as an address, evaluating its value"
  | parked cursor =>
      "statement in value position, saving x3..x" ++ Decimal.text cursor
  | nestedProcedure name =>
      "procedure '" ++ name ++ "' nested in a statement is not translated"
  | branch id hasAlternative =>
      "if " ++ Decimal.text id ++ ": else branch " ++ (if hasAlternative then "true" else "false")
  | loop id => "while " ++ Decimal.text id
  | call name arguments =>
      "call " ++ name ++ " with " ++ Decimal.text arguments ++ " argument(s)"
  | extraArguments name extra =>
      name ++ ": ignoring " ++ Decimal.text extra ++ " extra argument(s)"
  | intrinsicRead => "intrinsic read"
  | intrinsicWrite => "intrinsic write"
  | procedure name locals parameters frame =>
      "translating procedure " ++ name ++ " (" ++ Decimal.text locals ++ " locals, " ++
        Decimal.text parameters ++ " args, frame " ++ Decimal.text frame ++ " words)"
  | frameOutOfReach name =>
      "frame of procedure " ++ name ++ " does not fit an immediate offset"
  | entryUndefined entry => "entry procedure '" ++ entry ++ "' is not defined"
  | lowered code data =>
      Decimal.text code ++ " code lines, " ++ Decimal.text data ++ " data lines"
  | emitting instructions => "emitting " ++ Decimal.text instructions ++ " instructions"

/-- The events of a log that are at least as severe as a level. -/
def keep (least : Level) (log : List Event) : List Event :=
  log.filter fun event => event.level.rank ≤ least.rank

end Event

end ProcLang
