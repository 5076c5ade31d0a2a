import ProcLang.Proofs.Lowering.Realization

/-!
# Meaning over named variables

What a program means without an address in sight. Every name stands for a local
variable, else for an argument, else for a global. A variable is a row of words,
each with an index. Each activation of a procedure has locals of its own, to
which nothing was assigned yet, and arguments that are copies of the values
given. Globals start as zero.

Both operands of a binary operator are evaluated, the left one first. Arguments
are evaluated from the last to the first, and the place of an assignment before
its value. A call where a value is needed gives zero.

A run goes wrong if it uses an index out of bounds or the value of a word that
was never assigned, and also if it needs more stack than there is. What it needs
is counted: `height` is the number of words on the stack, and `waiting` the
number of operands that have to be put there while a call is made.

Loops and calls have fuel.
-/

set_option autoImplicit false

namespace ProcLang

/-! ## Variables -/

/-- The storage that a name stands for. -/
structure Variable where
  /-- It belongs to one activation; otherwise it is shared by all. -/
  own : Bool
  words : Nat
  deriving DecidableEq

/-- The variable that a name stands for: the first local of that name, else the
first argument, else the first global. -/
def Scope.lookup? (scope : Scope) (globals : List Declaration) (name : String) :
    Option Variable :=
  match scope.locals.find? fun declared => declared.name == name with
  | some declared => some ⟨true, declared.words⟩
  | none =>
      if name ∈ scope.parameters then some ⟨true, 1⟩
      else (globals.find? fun declared => declared.name == name).map fun declared =>
        ⟨false, declared.words⟩

/-- A word of a variable. -/
structure Cell where
  name : String
  index : Word

/-- What all activations share. -/
structure Shared where
  globals : String → Nat → Word
  channel : Channel

/-- What an activation can use. A word of its own has no value until one is
assigned. -/
structure Store where
  own : String → Nat → Option Word
  shared : Shared

/-- Take a word from the input, if there is one. -/
def Shared.read? (shared : Shared) : Option (Word × Shared) :=
  match shared.channel.input with
  | [] => none
  | value :: rest => some (value, { shared with channel := ⟨rest, shared.channel.output⟩ })

/-- Put a word on the output. -/
def Shared.write (shared : Shared) (value : Word) : Shared :=
  { shared with channel := ⟨shared.channel.input, shared.channel.output ++ [value]⟩ }

namespace Store

/-- Change one word of the activation. -/
def setOwn (store : Store) (name : String) (index : Nat) (value : Word) : Store :=
  { store with
    own := fun other position =>
      if other = name ∧ position = index then some value else store.own other position }

/-- Change one word that is shared. -/
def setShared (store : Store) (name : String) (index : Nat) (value : Word) : Store :=
  { store with
    shared := { store.shared with
      globals := fun other position =>
        if other = name ∧ position = index then value else store.shared.globals other position } }

/-- The value of a word, if the word exists and has one. -/
def load? (lookup? : String → Option Variable) (store : Store) (cell : Cell) : Option Word :=
  match lookup? cell.name with
  | none => none
  | some found =>
      if cell.index.toNat < found.words then
        if found.own then store.own cell.name cell.index.toNat
        else some (store.shared.globals cell.name cell.index.toNat)
      else none

/-- Assign a value to a word, if the word exists. -/
def assign? (lookup? : String → Option Variable) (store : Store) (cell : Cell) (value : Word) :
    Option Store :=
  match lookup? cell.name with
  | none => none
  | some found =>
      if cell.index.toNat < found.words then
        if found.own then some (store.setOwn cell.name cell.index.toNat value)
        else some (store.setShared cell.name cell.index.toNat value)
      else none

end Store

/-- A result, or a run that goes wrong. -/
def Outcome.ofOption {α : Type} : Option α → Outcome α
  | some value => .done value
  | none => .fault

/-! ## Constructs -/

/-- What a node means: its value, the word it designates, and its effect. -/
structure Sense where
  value : (waiting height : Nat) → Store → Outcome (Word × Store)
  cell : (waiting height : Nat) → Store → Outcome (Cell × Store)
  effect : (height : Nat) → Store → Outcome Store

namespace Sense

/-- An expression that designates no word. -/
def ofValue (value : Nat → Nat → Store → Outcome (Word × Store)) : Sense :=
  ⟨value, fun _ _ _ => .fault, fun _ _ => .fault⟩

/-- An expression that designates a word. -/
def ofCell (lookup? : String → Option Variable)
    (cell : Nat → Nat → Store → Outcome (Cell × Store)) : Sense where
  value := fun waiting height store =>
    cell waiting height store >>= fun result =>
      .ofOption (result.2.load? lookup? result.1) >>= fun value => .done (value, result.2)
  cell := cell
  effect := fun _ _ => .fault

/-- A statement. Where a value is needed, the operands that wait are put on the
stack, if there is room for them. -/
def ofEffect (room : Nat) (effect : Nat → Store → Outcome Store) : Sense where
  value := fun waiting height store =>
    if height + waiting ≤ room then
      effect (height + waiting) store >>= fun store => .done (0, store)
    else .fault
  cell := fun _ _ _ => .fault
  effect := effect

/-- Nothing that can be run. -/
def undefined : Sense :=
  ⟨fun _ _ _ => .fault, fun _ _ _ => .fault, fun _ _ => .fault⟩

/-- The value of a binary operation. -/
def binary (arithmetic : Arithmetic) (op : BinaryOperator) (left right : Sense)
    (waiting height : Nat) (store : Store) : Outcome (Word × Store) :=
  left.value waiting height store >>= fun result =>
    right.value (waiting + 1) height result.2 >>= fun result' =>
      .done (arithmetic.binary op result.1 result'.1, result'.2)

/-- The value of a unary operation. -/
def unary (op : UnaryOperator) (operand : Sense) (waiting height : Nat) (store : Store) :
    Outcome (Word × Store) :=
  operand.value waiting height store >>= fun result =>
    .done (Arithmetic.unary op result.1, result.2)

/-- The element of an array. The array itself waits for the index. -/
def element (name : String) (index : Sense) (waiting height : Nat) (store : Store) :
    Outcome (Cell × Store) :=
  index.value (waiting + 1) height store >>= fun result => .done (⟨name, result.1⟩, result.2)

/-- The effects of statements, one after the other. -/
def sequence : List Sense → Nat → Store → Outcome Store
  | [], _, store => .done store
  | sense :: rest, height, store => sense.effect height store >>= sequence rest height

/-- The values of arguments. The last one is evaluated and put on the stack first. -/
def arguments : List Sense → Nat → Store → Outcome (List Word × Store)
  | [], _, store => .done ([], store)
  | sense :: rest, height, store =>
      arguments rest height store >>= fun results =>
        sense.value 0 (height + rest.length) results.2 >>= fun result =>
          .done (result.1 :: results.1, result.2)

/-- A call of a procedure. Where to return to is put on the stack, and then the
arguments. -/
def callProcedure (room : Nat) (invoke : List Word → Nat → Shared → Outcome Shared)
    (senses : List Sense) (height : Nat) (store : Store) : Outcome Store :=
  if height + 1 + senses.length ≤ room then
    arguments senses (height + 1) store >>= fun results =>
      invoke results.1 (height + 1 + senses.length) results.2.shared >>= fun shared =>
        .done { results.2 with shared := shared }
  else .fault

/-- Read a word. -/
def read (lookup? : String → Option Variable) (target : Sense) (height : Nat) (store : Store) :
    Outcome Store :=
  target.cell 0 height store >>= fun result =>
    match result.2.shared.read? with
    | none => .waits result.2.shared.channel
    | some (word, shared) =>
        .ofOption ({ result.2 with shared := shared }.assign? lookup? result.1 word)

/-- Write a value. -/
def write (value : Sense) (height : Nat) (store : Store) : Outcome Store :=
  value.value 0 height store >>= fun result =>
    .done { result.2 with shared := result.2.shared.write result.1 }

/-- A call of a procedure or an intrinsic. -/
def call (lookup? : String → Option Variable) (room : Nat)
    (invoke : String → List Word → Nat → Shared → Outcome Shared) (name : String)
    (senses : List Sense) (height : Nat) (store : Store) : Outcome Store :=
  match Intrinsic.ofName? name, senses with
  | some .read, target :: _ => read lookup? target height store
  | some .write, value :: _ => write value height store
  | _, senses => callProcedure room (invoke name) senses height store

/-- Assign a value to a word, which is determined first. -/
def assign (lookup? : String → Option Variable) (target value : Sense) (height : Nat)
    (store : Store) : Outcome Store :=
  target.cell 0 height store >>= fun result =>
    value.value 1 height result.2 >>= fun result' =>
      .ofOption (result'.2.assign? lookup? result.1 result'.1)

/-- Do something, or something else if a condition is zero. -/
def branch (condition consequent : Sense) (alternative : Store → Outcome Store) (height : Nat)
    (store : Store) : Outcome Store :=
  condition.value 0 height store >>= fun result =>
    if result.1 = 0 then alternative result.2 else consequent.effect height result.2

/-- Do something as long as a condition is not zero. -/
def loop (fuel : Nat) (condition body : Sense) (height : Nat) (store : Store) : Outcome Store :=
  Outcome.iterate (fun store => store.shared.channel) (condition.value 0 height)
    (body.effect height) fuel store

end Sense

/-! ## Nodes -/

/-- What the code of a procedure refers to. -/
structure Surroundings where
  lookup? : String → Option Variable
  arithmetic : Arithmetic
  /-- The words that the stack may take. -/
  room : Nat
  fuel : Nat
  /-- A call of a procedure, with the words that are on the stack by then. -/
  invoke : String → List Word → Nat → Shared → Outcome Shared

namespace Node

variable (around : Surroundings)

mutual
/-- What a node means. -/
def sense : Node → Sense
  | .program _ | .procedure .. | .header _ | .declarations _ | .declaration _ => .undefined
  | .block statements => .ofEffect around.room (Sense.sequence (senseAll statements))
  | .call name arguments =>
      .ofEffect around.room
        (Sense.call around.lookup? around.room around.invoke name (senseAll arguments))
  | .assign target value =>
      .ofEffect around.room (Sense.assign around.lookup? (sense target) (sense value))
  | .branch condition consequent none =>
      .ofEffect around.room (Sense.branch (sense condition) (sense consequent) .done)
  | .branch condition consequent (some alternative) =>
      .ofEffect around.room fun height =>
        Sense.branch (sense condition) (sense consequent) ((sense alternative).effect height) height
  | .loop condition body =>
      .ofEffect around.room (Sense.loop around.fuel (sense condition) (sense body))
  | .binary op left right =>
      .ofValue (Sense.binary around.arithmetic op (sense left) (sense right))
  | .unary .dereference (.binary .add (.reference name) index) =>
      .ofCell around.lookup? (Sense.element name (sense index))
  | .unary .dereference _ => .undefined
  | .unary op operand => .ofValue (Sense.unary op (sense operand))
  | .constant value => .ofValue fun _ _ store => .done (value.toBitVec, store)
  | .reference name => .ofCell around.lookup? fun _ _ store => .done (⟨name, 0⟩, store)

/-- What nodes mean, in order. -/
def senseAll : List Node → List Sense
  | [] => []
  | node :: rest => sense node :: senseAll rest
end

theorem length_senseAll (nodes : List Node) : (senseAll around nodes).length = nodes.length := by
  induction nodes with
  | nil => rfl
  | cons node rest ih => rw [senseAll, List.length_cons, ih, List.length_cons]

end Node

/-! ## Programs -/

/-- A procedure. -/
structure Procedure where
  heading : Header
  locals : List Declaration
  body : Node

namespace Procedure

/-- The names of a procedure. -/
def scope (procedure : Procedure) : Scope :=
  ⟨procedure.locals, procedure.heading.parameters⟩

/-- The words of an activation at its start: the first parameter of a name has
the value given, unless a local of that name hides it. -/
def fresh (procedure : Procedure) (arguments : List Word) (name : String) (_ : Nat) :
    Option Word :=
  if procedure.locals.any fun declared => declared.name == name then none
  else (procedure.heading.parameters.zip arguments).lookup name

end Procedure

mutual
/-- The procedures of a program, in order. -/
def Node.procedures : Node → List Procedure
  | .program items => proceduresAll items
  | .procedure heading locals body => [⟨heading, locals, body⟩]
  | _ => []

/-- The procedures of items, in order. -/
def Node.proceduresAll : List Node → List Procedure
  | [] => []
  | item :: rest => item.procedures ++ proceduresAll rest
end

/-- A program, and what it is run with. -/
structure Source where
  globals : List Declaration
  procedures : List Procedure
  arithmetic : Arithmetic
  room : Nat

/-- A program that is run with a given stack. -/
def Node.source (root : Node) (arithmetic : Arithmetic) (room : Nat) : Source :=
  ⟨root.globalDeclarations, root.procedures, arithmetic, room⟩

namespace Source

variable (source : Source)

/-- The procedure of a name. -/
def procedure? (name : String) : Option Procedure :=
  source.procedures.find? fun procedure => procedure.heading.name == name

/-- What the body of a procedure refers to. -/
def around (scope : Scope) (fuel : Nat)
    (invoke : String → List Word → Nat → Shared → Outcome Shared) : Surroundings :=
  ⟨scope.lookup? source.globals, source.arithmetic, source.room, fuel, invoke⟩

/-- One activation of a procedure, from the call to the return. -/
def invoke : Nat → String → List Word → Nat → Shared → Outcome Shared
  | 0, _, _, _, shared => .cut shared.channel
  | fuel + 1, name, arguments, height, shared =>
      match source.procedure? name with
      | none => .fault
      | some procedure =>
          let top := height + procedure.scope.frameSize
          if top ≤ source.room then
            (procedure.body.sense (source.around procedure.scope fuel (invoke fuel))).effect top
              ⟨procedure.fresh arguments, shared⟩ >>= fun store => .done store.shared
          else .fault

/-- A run of the program from its entry, with all globals zero. -/
def run (entry : String) (fuel : Nat) (input : List Word) : Outcome Channel :=
  source.invoke fuel entry [] 0 ⟨fun _ _ => 0, ⟨input, []⟩⟩ >>= fun shared => .done shared.channel

end Source

/-! ## Programs that are meant -/

namespace Node

section

variable (lookup? : String → Option Variable) (defined : String → Nat → Bool)

mutual
/-- Every name stands for something and is used as what it stands for: one word
by its name alone, an array only together with an index, and a procedure with as
many arguments as it has parameters. -/
def resolves : Node → Bool
  | .reference name => (lookup? name).any fun found => found.words ≤ 1
  | .unary .dereference (.binary .add (.reference name) index) =>
      (lookup? name).any (fun found => 1 < found.words) && resolves index
  | .unary .dereference _ => false
  | .unary _ operand => resolves operand
  | .binary _ left right => resolves left && resolves right
  | .call name arguments =>
      ((Intrinsic.ofName? name).isSome || defined name arguments.length) && resolvesAll arguments
  | .assign target value => resolves target && resolves value
  | .branch condition consequent none => resolves condition && resolves consequent
  | .branch condition consequent (some alternative) =>
      resolves condition && resolves consequent && resolves alternative
  | .loop condition body => resolves condition && resolves body
  | .block statements => resolvesAll statements
  | .constant _ => true
  | .program _ | .procedure .. | .header _ | .declarations _ | .declaration _ => true

/-- Every name in a list of nodes is used as what it stands for. -/
def resolvesAll : List Node → Bool
  | [] => true
  | node :: rest => resolves node && resolvesAll rest
end

theorem resolvesAll_eq_all (nodes : List Node) :
    resolvesAll lookup? defined nodes = nodes.all (resolves lookup? defined) := by
  induction nodes with
  | nil => rfl
  | cons node rest ih => rw [resolvesAll, ih, List.all_cons]

variable {lookup? defined}

/-- What is dereferenced is the element of an array. -/
theorem resolves_dereference {operand : Node}
    (resolved : (Node.unary .dereference operand).resolves lookup? defined) :
    ∃ name index found, operand = .binary .add (.reference name) index ∧
      lookup? name = some found ∧ 1 < found.words ∧ index.resolves lookup? defined := by
  by_cases element : ∃ name index, operand = .binary .add (.reference name) index
  · obtain ⟨name, index, rfl⟩ := element
    rw [resolves, Bool.and_eq_true, Option.any_eq_true] at resolved
    obtain ⟨⟨found, listed, several⟩, inner⟩ := resolved
    exact ⟨name, index, found, rfl, listed, of_decide_eq_true several, inner⟩
  · rw [resolves] at resolved
    · cases resolved
    · exact fun name index same => element ⟨name, index, same⟩

end

/-- Whether a name is that of a procedure with a number of parameters. -/
def defines (root : Node) (name : String) (count : Nat) : Bool :=
  (root.procedures.find? fun procedure => procedure.heading.name == name).any fun procedure =>
    procedure.heading.parameters.length == count

/-- No two procedures and no two globals share a name, the entry is a procedure
without parameters, and every procedure uses names as what they stand for. -/
structure Scoped (root : Node) (entry : String) : Prop where
  procedures : root.procedureNames.Nodup
  globals : (root.globalDeclarations.map Declaration.name).Nodup
  entry : root.defines entry 0
  resolved : ∀ procedure ∈ root.procedures,
    procedure.body.resolves (procedure.scope.lookup? root.globalDeclarations) root.defines

end Node

end ProcLang
