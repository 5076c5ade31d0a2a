import ProcLang.Lowering.Stack

/-!
# Lowering nodes

A node can be lowered in three ways: for its value, which is left in the cursor
register; for the address it stands for, which is left there too; or for its
effect. `Node.lower` gives all three, each put together from those of the parts
of the node.

A binary operator leaves its left operand in the cursor register and its right
operand in the register above it. An expression used for its effect is
evaluated into the first scratch register. A statement used for its value has
the value zero; since it starts again from the first scratch register, the
registers in use are pushed while it runs.

The caller of a procedure pushes the link register and the arguments, last to
first, and takes them off again after the call.
-/

set_option autoImplicit false

namespace ProcLang

/-- The three ways to lower a node. -/
structure Lowered where
  value : Emitter Unit
  address : Emitter Unit
  effect : Emitter Unit

namespace Emitter

/-! ## Values -/

/-- Combine the cursor register with the one above it. -/
def combine (op : BinaryOperator) (left right : Register) : Instruction :=
  match op with
  | .add => .operate .add left left right
  | .sub => .operate .sub left left right
  | .mul => .operate .mul left left right
  | .div => .operate .div left left right
  | .mod => .operate .rem left left right
  | .equal => .operate .seq left left right
  | .notEqual => .operate .sne left left right
  | .less => .operate .slt left left right
  | .greater => .operate .slt left right left
  | .and => .operate .and left left right
  | .or => .operate .or left left right
  | .xor => .operate .xor left left right

/-- The value of a constant. -/
def constant (value : Int32) : Emitter Unit := do
  emit (.loadImmediate (← cursor) value)

/-- The value of a name: an array stands for its address. -/
def reference (name : String) : Emitter Unit := do
  let target ← cursor
  let address ← addressOf name target
  unless address.isArray do
    emit (.load target target 0)

/-- The address of a name. -/
def referenceAddress (name : String) : Emitter Unit := do
  let _ ← addressOf name (← cursor)

/-- The value of a binary operation. -/
def binary (op : BinaryOperator) (left right : Emitter Unit) : Emitter Unit := do
  let target ← cursor
  left
  let above ← advanceCursor
  right
  retreatCursor
  emit (combine op target above)

/-- The value of a unary operation. -/
def unary (op : UnaryOperator) (operand : Emitter Unit) : Emitter Unit := do
  let target ← cursor
  operand
  match op with
  | .plus => pure ()
  | .minus => emit (.operate .sub target .zero target)
  | .not => emit (.complement target target)
  | .dereference => emit (.load target target 0)

/-- A value where an address is needed. -/
def valueAsAddress (value : Emitter Unit) : Emitter Unit := do
  note .addressOfValue
  value

/-- A value that is not used. -/
def valueAsEffect (value : Emitter Unit) : Emitter Unit := do
  resetCursor
  value

/-- The scratch registers below a cursor, from the first on. -/
def scratchBelow (cursor : Nat) : List Register :=
  (List.range' Register.scratchBase (cursor - Register.scratchBase)).map .general

/-- A statement where a value is needed: the registers in use are pushed while
it runs, and its value is zero. -/
def effectAsValue (effect : Emitter Unit) : Emitter Unit := do
  let index := (← context).cursor
  note (.parked index)
  (scratchBelow index).forM push
  effect
  (scratchBelow index).reverse.forM pop
  setCursor index
  emit (.loadImmediate (← cursor) 0)

/-! ## Statements -/

/-- Store a value at an address. -/
def assign (target value : Emitter Unit) : Emitter Unit := do
  resetCursor
  let address ← cursor
  target
  let source ← advanceCursor
  value
  retreatCursor
  emit (.store source address 0)

/-- Do one of two things, or one thing or nothing. -/
def branch (condition consequent : Emitter Unit) (alternative : Option (Emitter Unit)) :
    Emitter Unit := do
  resetCursor
  condition
  let tested ← cursor
  let id ← freshLabel
  note (.branch id alternative.isSome)
  emit (.branchIfZero tested (Label.branchFalse id).text)
  consequent
  match alternative with
  | none => emit (.label (Label.branchFalse id).text)
  | some alternative =>
      emit (.jump (Label.branchEnd id).text)
      emit (.label (Label.branchFalse id).text)
      alternative
  emit (.label (Label.branchEnd id).text)

/-- Do something as long as a condition holds. -/
def loop (condition body : Emitter Unit) : Emitter Unit := do
  let id ← freshLabel
  note (.loop id)
  emit (.label (Label.loopBegin id).text)
  resetCursor
  condition
  emit (.branchIfZero (← cursor) (Label.loopEnd id).text)
  body
  emit (.jump (Label.loopBegin id).text)
  emit (.label (Label.loopEnd id).text)

/-! ## Calls -/

/-- Read a word into an address. -/
def read (target : Emitter Unit) : Emitter Unit := do
  resetCursor
  let address ← cursor
  note .intrinsicRead
  target
  let word ← advanceCursor
  emit (.read word)
  emit (.store word address 0)
  retreatCursor

/-- Write a value. -/
def write (value : Emitter Unit) : Emitter Unit := do
  resetCursor
  let source ← cursor
  note .intrinsicWrite
  value
  emit (.write source)

/-- Set the number of arguments pushed so far. -/
def setPending (pending : Nat) : Emitter Unit :=
  change fun context => .ok { context with pendingArguments := pending }

/-- Push an argument. -/
def pushArgument (value : Emitter Unit) : Emitter Unit := do
  resetCursor
  value
  push (← cursor)
  change fun context => do
    return { context with pendingArguments := ← countUp context.pendingArguments 1 }

/-- Call a procedure. -/
def callProcedure (name : String) (arguments : List (Emitter Unit)) : Emitter Unit := do
  note (.call name arguments.length)
  annotate ("call " ++ name ++ " (" ++ Decimal.text arguments.length ++ " args)")
  push .link
  let outer := (← context).pendingArguments
  setPending 0
  arguments.reverse.forM pushArgument
  emit (.call (Label.procedure name).text)
  drop (← context).pendingArguments
  pop .link
  setPending outer

/-- Log that an intrinsic uses its first argument only, if it has more. -/
def noteExtra (name : String) (extra : Nat) : Emitter Unit := do
  if 0 < extra then note (.extraArguments name extra)

/-- Call a procedure or an intrinsic. -/
def call (name : String) (arguments : List Lowered) : Emitter Unit :=
  match Intrinsic.ofName? name, arguments with
  | some .read, first :: rest => do
      noteExtra name rest.length
      read first.address
  | some .write, first :: rest => do
      noteExtra name rest.length
      write first.value
  | _, arguments => callProcedure name (arguments.map Lowered.value)

end Emitter

/-! ## Nodes -/

namespace Lowered

open Emitter

/-- The ways to lower an expression without an address, given its value. -/
def ofValue (value : Emitter Unit) : Lowered :=
  ⟨value, valueAsAddress value, valueAsEffect value⟩

/-- The ways to lower an expression with an address. -/
def ofPlace (value address : Emitter Unit) : Lowered :=
  ⟨value, address, valueAsEffect value⟩

/-- The ways to lower a statement, given its effect. -/
def ofEffect (effect : Emitter Unit) : Lowered :=
  ⟨effectAsValue effect, valueAsAddress (effectAsValue effect), effect⟩

end Lowered

namespace Node

open Emitter

mutual
/-- The ways to lower a node. -/
def lower : Node → Lowered
  | .program items => .ofEffect ((lowerAll items).forM Lowered.effect)
  | .procedure heading _ _ => .ofEffect (note (.nestedProcedure heading.name))
  | .header _ => .ofEffect (pure ())
  | .declarations declared => .ofEffect (declared.forM reserveGlobal)
  | .declaration declared => .ofEffect (reserveGlobal declared)
  | .block statements => .ofEffect ((lowerAll statements).forM Lowered.effect)
  | .call name arguments => .ofEffect (Emitter.call name (lowerAll arguments))
  | .assign target value => .ofEffect (Emitter.assign (lower target).address (lower value).value)
  | .branch condition consequent none =>
      .ofEffect (Emitter.branch (lower condition).value (lower consequent).effect none)
  | .branch condition consequent (some alternative) =>
      .ofEffect (Emitter.branch (lower condition).value (lower consequent).effect
        (some (lower alternative).effect))
  | .loop condition body => .ofEffect (Emitter.loop (lower condition).value (lower body).effect)
  | .binary op left right => .ofValue (Emitter.binary op (lower left).value (lower right).value)
  | .unary .dereference operand =>
      .ofPlace (Emitter.unary .dereference (lower operand).value) (lower operand).value
  | .unary op operand => .ofValue (Emitter.unary op (lower operand).value)
  | .constant value => .ofValue (Emitter.constant value)
  | .reference name => .ofPlace (Emitter.reference name) (referenceAddress name)

/-- The ways to lower nodes, in order. -/
def lowerAll : List Node → List Lowered
  | [] => []
  | node :: rest => lower node :: lowerAll rest
end

end Node

end ProcLang
