import Mathlib
import ProcLang.Lowering.Program

/-!
# Lowering in closed form

A walk over a tree depends on little of its context: the register at the
cursor, the number of words pushed, the number of the next choice or loop, and
how names resolve. A `Plan` is what lowering emits for a node as a function of
these, in the same three ways as `Lowered`, together with the number of choices
and loops among the emitted code.

`Node.plan` gives the plan of every node. That lowering follows it is proved in
`ProcLang.Proofs.Lowering.Following`.
-/

set_option autoImplicit false

namespace ProcLang

namespace Output

/-- Code and nothing else. -/
def ofCode (code : List Instruction) : Output := ⟨code, [], []⟩

/-- A log entry and nothing else. -/
def ofEvent (event : Event) : Output := ⟨[], [], [event]⟩

@[simp] theorem code_empty : empty.code = [] := rfl

@[simp] theorem data_empty : empty.data = [] := rfl

@[simp] theorem events_empty : empty.events = [] := rfl

@[simp] theorem code_ofCode (code : List Instruction) : (ofCode code).code = code := rfl

@[simp] theorem data_ofCode (code : List Instruction) : (ofCode code).data = [] := rfl

@[simp] theorem events_ofCode (code : List Instruction) : (ofCode code).events = [] := rfl

@[simp] theorem code_ofEvent (event : Event) : (ofEvent event).code = [] := rfl

@[simp] theorem data_ofEvent (event : Event) : (ofEvent event).data = [] := rfl

@[simp] theorem events_ofEvent (event : Event) : (ofEvent event).events = [event] := rfl

end Output

/-! ## The stack -/

/-- The code that pushes registers, the first one first. -/
def pushCode (registers : List Register) : List Instruction :=
  registers.flatMap fun register =>
    [.store register .stack 0, .addImmediate .stack .stack 1]

/-- The code that pops registers, the first one first. -/
def popCode (registers : List Register) : List Instruction :=
  registers.flatMap fun register =>
    [.addImmediate .stack .stack (-1), .load register .stack 0]

/-- The code that forgets a number of pushed words. -/
def dropCode (words : Nat) : List Instruction :=
  if 0 < words then [.addImmediate .stack .stack (-wordImmediate words)] else []

/-- The code that makes a frame. -/
def frameCode (words : Nat) : List Instruction :=
  if 0 < words then [.addImmediate .stack .stack (wordImmediate words)] else []

/-! ## Plans -/

/-- What lowering emits for a node. -/
structure Plan where
  /-- The output for the value of the node. -/
  value : (cursor pushed label : Nat) → Output
  /-- The output for the address of the node. -/
  address : (cursor pushed label : Nat) → Output
  /-- The output for the effect of the node. -/
  effect : (pushed label : Nat) → Output
  /-- How many choices and loops are lowered. -/
  choices : Nat

namespace Plan

open Output

/-- The choices and loops of plans. -/
def choicesOf (plans : List Plan) : Nat :=
  (plans.map choices).sum

@[simp] theorem choicesOf_nil : choicesOf [] = 0 := rfl

@[simp] theorem choicesOf_cons (plan : Plan) (plans : List Plan) :
    choicesOf (plan :: plans) = plan.choices + choicesOf plans := by
  simp [choicesOf]

@[simp] theorem choicesOf_reverse (plans : List Plan) :
    choicesOf plans.reverse = choicesOf plans := by
  simp [choicesOf, List.sum_reverse]

/-- A remark, if remarks are wanted. -/
def remark (annotate : Bool) (text : String) : Output :=
  if annotate then ofCode [.comment text] else empty

/-- The address of a word of the frame. -/
def frameAddress (name : String) (shift : Nat) (target : Register) (pushed : Nat) : Output :=
  ofEvent (.frameSlot name shift pushed) ++
    ofCode [.addImmediate target .stack (-wordImmediate (addCount shift pushed))]

/-- The address of a name. -/
def addressOf (resolve : String → Address) (name : String) (target : Register) (pushed : Nat) :
    Output :=
  match resolve name with
  | .frameLocal shift _ => frameAddress name shift target pushed
  | .parameter shift => frameAddress name shift target pushed
  | .global name _ =>
      ofEvent (.globalLabel name (Label.global name).text) ++
        ofCode [.loadAddress target (Label.global name).text]

/-- The value of a name. -/
def reference (resolve : String → Address) (name : String) (cursor pushed : Nat) : Output :=
  addressOf resolve name (.general cursor) pushed ++
    if (resolve name).isArray then empty
    else ofCode [.load (.general cursor) (.general cursor) 0]

/-- The last instruction of a unary operation, if it has one. -/
def unaryCode (op : UnaryOperator) (target : Register) : List Instruction :=
  match op with
  | .plus => []
  | .minus => [.operate .sub target .zero target]
  | .not => [.complement target target]
  | .dereference => [.load target target 0]

/-- A statement where a value is needed. -/
def parked (effect : Nat → Nat → Output) (cursor pushed label : Nat) : Output :=
  let registers := Emitter.scratchBelow cursor
  ofEvent (.parked cursor) ++ ofCode (pushCode registers) ++
    effect (pushed + registers.length) label ++
    ofCode (popCode registers.reverse) ++ ofCode [.loadImmediate (.general cursor) 0]

/-- The plan of an expression without an address. -/
def ofValue (value : Nat → Nat → Nat → Output) (choices : Nat) : Plan where
  value := value
  address := fun cursor pushed label =>
    ofEvent .addressOfValue ++ value cursor pushed label
  effect := value Register.scratchBase
  choices := choices

/-- The plan of an expression with an address. -/
def ofPlace (value address : Nat → Nat → Nat → Output) (choices : Nat) : Plan where
  value := value
  address := address
  effect := value Register.scratchBase
  choices := choices

/-- The plan of a statement. -/
def ofEffect (effect : Nat → Nat → Output) (choices : Nat) : Plan where
  value := parked effect
  address := fun cursor pushed label =>
    ofEvent .addressOfValue ++ parked effect cursor pushed label
  effect := effect
  choices := choices

/-- The effects of nodes, one after the other. -/
def sequence : List Plan → Nat → Nat → Output
  | [], _, _ => empty
  | plan :: rest, pushed, label =>
      plan.effect pushed label ++ sequence rest pushed (label + plan.choices)

/-- The arguments of a call, in the order in which they are pushed. -/
def pushArguments : List Plan → Nat → Nat → Output
  | [], _, _ => empty
  | plan :: rest, pushed, label =>
      plan.value Register.scratchBase pushed label ++
        ofCode (pushCode [.general Register.scratchBase]) ++
        pushArguments rest (pushed + 1) (label + plan.choices)

theorem pushArguments_append (first second : List Plan) (pushed label : Nat) :
    pushArguments (first ++ second) pushed label =
      pushArguments first pushed label ++
        pushArguments second (pushed + first.length) (label + choicesOf first) := by
  induction first generalizing pushed label with
  | nil => simp [pushArguments]
  | cons plan rest ih =>
      simp only [List.cons_append, pushArguments, ih, Output.append_assoc, List.length_cons,
        choicesOf_cons, Nat.add_assoc, Nat.add_comm 1]

/-- A call of a procedure. -/
def callProcedure (annotate : Bool) (name : String) (arguments : List Plan)
    (pushed label : Nat) : Output :=
  ofEvent (.call name arguments.length) ++
    remark annotate ("call " ++ name ++ " (" ++ Decimal.text arguments.length ++ " args)") ++
    ofCode (pushCode [.link]) ++
    pushArguments arguments.reverse (pushed + 1) label ++
    ofCode [.call (Label.procedure name).text] ++
    ofCode (dropCode arguments.length) ++ ofCode (popCode [.link])

/-- Read a word into an address. -/
def read (target : Plan) (pushed label : Nat) : Output :=
  ofEvent .intrinsicRead ++ target.address Register.scratchBase pushed label ++
    ofCode [.read (.general (Register.scratchBase + 1)),
      .store (.general (Register.scratchBase + 1)) (.general Register.scratchBase) 0]

/-- Write a value. -/
def write (value : Plan) (pushed label : Nat) : Output :=
  ofEvent .intrinsicWrite ++ value.value Register.scratchBase pushed label ++
    ofCode [.write (.general Register.scratchBase)]

/-- The log entry for arguments that an intrinsic does not use. -/
def extra (name : String) (count : Nat) : Output :=
  if 0 < count then ofEvent (.extraArguments name count) else empty

/-- A call of a procedure or an intrinsic. -/
def call (annotate : Bool) (name : String) (arguments : List Plan) (pushed label : Nat) : Output :=
  match Intrinsic.ofName? name, arguments with
  | some .read, first :: rest => extra name rest.length ++ read first pushed label
  | some .write, first :: rest => extra name rest.length ++ write first pushed label
  | _, arguments => callProcedure annotate name arguments pushed label

/-- The choices and loops of a call. -/
def callChoices (name : String) (arguments : List Plan) : Nat :=
  match Intrinsic.ofName? name, arguments with
  | some _, first :: _ => first.choices
  | _, arguments => choicesOf arguments

/-- A call goes to a procedure, or it is an intrinsic with an argument. -/
theorem general_or_intrinsic {α : Type} (name : String) (arguments : List α) :
    (Intrinsic.ofName? name = none ∨ arguments = []) ∨
      ∃ intrinsic first rest,
        Intrinsic.ofName? name = some intrinsic ∧ arguments = first :: rest := by
  cases known : Intrinsic.ofName? name with
  | none => exact .inl (.inl rfl)
  | some intrinsic =>
      cases arguments with
      | nil => exact .inl (.inr rfl)
      | cons first rest => exact .inr ⟨intrinsic, first, rest, rfl, rfl⟩

section Call

variable {name : String} {arguments : List Plan}

theorem call_general (annotate : Bool)
    (general : Intrinsic.ofName? name = none ∨ arguments = []) :
    call annotate name arguments = callProcedure annotate name arguments := by
  funext pushed label
  rcases general with unknown | rfl
  · simp [call, unknown]
  · simp [call]

theorem callChoices_general (general : Intrinsic.ofName? name = none ∨ arguments = []) :
    callChoices name arguments = choicesOf arguments := by
  rcases general with unknown | rfl
  · simp [callChoices, unknown]
  · simp [callChoices]

theorem call_read (annotate : Bool) (first : Plan) (rest : List Plan)
    (known : Intrinsic.ofName? name = some .read) (pushed label : Nat) :
    call annotate name (first :: rest) pushed label =
      extra name rest.length ++ read first pushed label := by
  simp [call, known]

theorem call_write (annotate : Bool) (first : Plan) (rest : List Plan)
    (known : Intrinsic.ofName? name = some .write) (pushed label : Nat) :
    call annotate name (first :: rest) pushed label =
      extra name rest.length ++ write first pushed label := by
  simp [call, known]

theorem callChoices_intrinsic {intrinsic : Intrinsic} (first : Plan) (rest : List Plan)
    (known : Intrinsic.ofName? name = some intrinsic) :
    callChoices name (first :: rest) = first.choices := by
  simp [callChoices, known]

end Call

@[simp] theorem code_extra (name : String) (count : Nat) : (extra name count).code = [] := by
  unfold extra
  split <;> rfl

/-- Store a value at an address. -/
def assign (target value : Plan) (pushed label : Nat) : Output :=
  target.address Register.scratchBase pushed label ++
    value.value (Register.scratchBase + 1) pushed (label + target.choices) ++
    ofCode [.store (.general (Register.scratchBase + 1)) (.general Register.scratchBase) 0]

/-- A choice without an alternative. The number of the choice is taken after its
condition. -/
def branch (condition consequent : Plan) (pushed label : Nat) : Output :=
  let id := label + condition.choices
  condition.value Register.scratchBase pushed label ++ ofEvent (.branch id false) ++
    ofCode [.branchIfZero (.general Register.scratchBase) (Label.branchFalse id).text] ++
    consequent.effect pushed (id + 1) ++
    ofCode [.label (Label.branchFalse id).text] ++ ofCode [.label (Label.branchEnd id).text]

/-- A choice with an alternative. -/
def branchElse (condition consequent alternative : Plan) (pushed label : Nat) : Output :=
  let id := label + condition.choices
  condition.value Register.scratchBase pushed label ++ ofEvent (.branch id true) ++
    ofCode [.branchIfZero (.general Register.scratchBase) (Label.branchFalse id).text] ++
    consequent.effect pushed (id + 1) ++
    ofCode [.jump (Label.branchEnd id).text] ++ ofCode [.label (Label.branchFalse id).text] ++
    alternative.effect pushed (id + 1 + consequent.choices) ++
    ofCode [.label (Label.branchEnd id).text]

/-- A loop. Its number is taken before its condition. -/
def loop (condition body : Plan) (pushed label : Nat) : Output :=
  ofEvent (.loop label) ++ ofCode [.label (Label.loopBegin label).text] ++
    condition.value Register.scratchBase pushed (label + 1) ++
    ofCode [.branchIfZero (.general Register.scratchBase) (Label.loopEnd label).text] ++
    body.effect pushed (label + 1 + condition.choices) ++
    ofCode [.jump (Label.loopBegin label).text] ++ ofCode [.label (Label.loopEnd label).text]

/-- The value of a binary operation. -/
def binary (op : BinaryOperator) (left right : Plan) (cursor pushed label : Nat) : Output :=
  left.value cursor pushed label ++ right.value (cursor + 1) pushed (label + left.choices) ++
    ofCode [Emitter.combine op (.general cursor) (.general (cursor + 1))]

/-- The value of a unary operation. -/
def unary (op : UnaryOperator) (operand : Plan) (cursor pushed label : Nat) : Output :=
  operand.value cursor pushed label ++ ofCode (unaryCode op (.general cursor))

/-- The storage of global declarations. -/
def reserve (declared : List Declaration) : Output :=
  ⟨[], declared.flatMap fun entry =>
    [.label (Label.global entry.name).text, .reserve entry.size], []⟩

/-- The log entry for a frame that is out of reach. -/
def reach (name : String) (scope : Scope) : Output :=
  if scope.frameExtent?.isNone then ofEvent (.frameOutOfReach name) else empty

/-- A procedure, given the plan of its body. -/
def procedure (annotate : Bool) (heading : Header) (locals : List Declaration) (body : Plan)
    (label : Nat) : Output :=
  let scope : Scope := ⟨locals, heading.parameters⟩
  let words := scope.frameSize
  ofEvent (.procedure heading.name locals.length heading.parameters.length words) ++
    reach heading.name scope ++ ofCode [.label (Label.procedure heading.name).text] ++
    remark annotate ("frame " ++ Decimal.text words ++ " words, " ++
      Decimal.text heading.parameters.length ++ " args") ++
    ofCode (frameCode words) ++ body.effect 0 label ++ ofCode (dropCode words ++ [.ret])

end Plan

/-- Where a name lives, given the names of a procedure and the globals. -/
def Scope.resolve (scope : Scope) (globals : List Declaration) (name : String) : Address :=
  (scope.find name).getD
    (.global name ((globals.find? fun declared => declared.name == name).map Declaration.size))

namespace Node

open Plan

section

variable (annotate : Bool) (resolve : String → Address)

mutual
/-- The plan of a node. -/
def plan : Node → Plan
  | .program items => .ofEffect (sequence (planAll items)) (choicesOf (planAll items))
  | .procedure heading _ _ =>
      .ofEffect (fun _ _ => Output.ofEvent (.nestedProcedure heading.name)) 0
  | .header _ => .ofEffect (fun _ _ => Output.empty) 0
  | .declarations declared => .ofEffect (fun _ _ => reserve declared) 0
  | .declaration declared => .ofEffect (fun _ _ => reserve [declared]) 0
  | .block statements =>
      .ofEffect (sequence (planAll statements)) (choicesOf (planAll statements))
  | .call name arguments =>
      .ofEffect (Plan.call annotate name (planAll arguments)) (callChoices name (planAll arguments))
  | .assign target value =>
      .ofEffect (Plan.assign (plan target) (plan value))
        ((plan target).choices + (plan value).choices)
  | .branch condition consequent none =>
      .ofEffect (Plan.branch (plan condition) (plan consequent))
        ((plan condition).choices + 1 + (plan consequent).choices)
  | .branch condition consequent (some alternative) =>
      .ofEffect (branchElse (plan condition) (plan consequent) (plan alternative))
        ((plan condition).choices + 1 + (plan consequent).choices + (plan alternative).choices)
  | .loop condition body =>
      .ofEffect (Plan.loop (plan condition) (plan body))
        (1 + (plan condition).choices + (plan body).choices)
  | .binary op left right =>
      .ofValue (Plan.binary op (plan left) (plan right))
        ((plan left).choices + (plan right).choices)
  | .unary .dereference operand =>
      .ofPlace (Plan.unary .dereference (plan operand)) (plan operand).value (plan operand).choices
  | .unary op operand => .ofValue (Plan.unary op (plan operand)) (plan operand).choices
  | .constant value =>
      .ofValue (fun cursor _ _ => Output.ofCode [.loadImmediate (.general cursor) value]) 0
  | .reference name =>
      .ofPlace (fun cursor pushed _ => Plan.reference resolve name cursor pushed)
        (fun cursor pushed _ => addressOf resolve name (.general cursor) pushed) 0

/-- The plans of nodes, in order. -/
def planAll : List Node → List Plan
  | [] => []
  | node :: rest => plan node :: planAll rest
end

theorem planAll_eq_map (nodes : List Node) :
    planAll annotate resolve nodes = nodes.map (plan annotate resolve) := by
  induction nodes with
  | nil => rfl
  | cons node rest ih => rw [planAll, ih, List.map_cons]

theorem lowerAll_eq_map (nodes : List Node) : lowerAll nodes = nodes.map lower := by
  induction nodes with
  | nil => rfl
  | cons node rest ih => rw [lowerAll, ih, List.map_cons]

end

end Node

end ProcLang
