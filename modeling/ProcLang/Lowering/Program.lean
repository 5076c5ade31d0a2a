import ProcLang.Lowering.Node

/-!
# Lowering programs

A lowered program starts by pointing the stack register at the stack, calling
the entry procedure, and stopping. The procedures follow in source order, then
the globals, and last the start of the stack.

The sizes of all globals are known before any code is emitted, so an array may
be used before its declaration. A statement outside all procedures sees the
globals only.
-/

set_option autoImplicit false

namespace ProcLang

/-- What the caller of the compiler can choose. -/
structure LoweringOptions where
  /-- The procedure that is called first. -/
  entry : String
  /-- Whether remarks are emitted. -/
  annotate : Bool
  deriving DecidableEq, Repr, Inhabited

/-- The choices made if nothing is said. -/
def LoweringOptions.standard : LoweringOptions := ⟨"main", false⟩

namespace Node

mutual
/-- The global declarations of a program, in order. -/
def globalDeclarations : Node → List Declaration
  | .program items => globalDeclarationsAll items
  | .declarations declared => declared
  | .declaration declared => [declared]
  | _ => []

/-- The global declarations of items, in order. -/
def globalDeclarationsAll : List Node → List Declaration
  | [] => []
  | item :: rest => globalDeclarations item ++ globalDeclarationsAll rest
end

mutual
/-- The names of the procedures of a program, in order. -/
def procedureNames : Node → List String
  | .program items => procedureNamesAll items
  | .procedure heading _ _ => [heading.name]
  | _ => []

/-- The names of the procedures of items, in order. -/
def procedureNamesAll : List Node → List String
  | [] => []
  | item :: rest => procedureNames item ++ procedureNamesAll rest
end

end Node

namespace Emitter

/-- Log that a frame is out of reach, if it is. -/
def noteReach (name : String) (scope : Scope) : Emitter Unit := do
  if scope.frameExtent?.isNone then note (.frameOutOfReach name)

/-- A procedure. -/
def procedure (heading : Header) (locals : List Declaration) (body : Emitter Unit) :
    Emitter Unit := do
  let scope : Scope := ⟨locals, heading.parameters⟩
  let words := scope.frameSize
  note (.procedure heading.name locals.length heading.parameters.length words)
  noteReach heading.name scope
  emit (.label (Label.procedure heading.name).text)
  annotate ("frame " ++ Decimal.text words ++ " words, " ++
    Decimal.text heading.parameters.length ++ " args")
  enter scope
  makeFrame words
  body
  leaveFrame words

mutual
/-- An item of a program. -/
def item : Node → Emitter Unit
  | .program items => itemAll items
  | .procedure heading locals body => procedure heading locals body.lower.effect
  | node => do
      enter .empty
      node.lower.effect

/-- Items of a program, in order. -/
def itemAll : List Node → Emitter Unit
  | [] => pure ()
  | node :: rest => do
      item node
      itemAll rest
end

/-- The code and the data of a program. -/
def program (entry : String) (root : Node) : Emitter Unit := do
  root.globalDeclarations.forM recordGlobal
  unless root.procedureNames.contains entry do
    note (.entryUndefined entry)
  emit (.loadAddress .stack Label.stackBegin.text)
  emit (.call (Label.procedure entry).text)
  emit .halt
  item root

end Emitter

/-- A lowered program and the log of lowering it. -/
structure LoweredProgram where
  instructions : List Instruction
  events : List Event
  deriving DecidableEq, Repr, Inhabited

/-- Lower a program. -/
def lowerProgram (options : LoweringOptions) (root : Node) : Except Overflow LoweredProgram :=
  match (Emitter.program options.entry root).run (Context.initial options.annotate) with
  | .error overflow => .error overflow
  | .ok emitted =>
      let output := emitted.output
      .ok ⟨output.code ++ output.data ++ [.label Label.stackBegin.text],
        output.events ++ [.lowered output.code.length output.data.length]⟩

end ProcLang
