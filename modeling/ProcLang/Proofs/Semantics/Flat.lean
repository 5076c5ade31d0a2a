import ProcLang.Proofs.Lowering.Realization

/-!
# Meaning over a flat memory

What a node means in one activation of a procedure, where variables are words of
one memory and any word may be read or written through a pointer. The meaning
is a step function of the world with an outcome. Loops have fuel, and every call
of a procedure is answered from outside.

While an activation runs, the words from the top of its frame up to the stack
register are in use: the operands, the link and the arguments that wait there
for a call to end. A store into these words, or an answer that changes them, is
a fault, and nothing is said about what comes after it.

As in lowering, a node has a value, an address and an effect. The value of a
statement is zero, and while it runs the operands that are already there are put
on the stack.
-/

set_option autoImplicit false

namespace ProcLang

/-- What an activation refers to: where names live, the top of its frame, and
where it returns to. -/
structure Setting where
  resolve : String → Address
  /-- The addresses of the globals. -/
  place : String → Word
  arithmetic : Arithmetic
  top : Word
  link : Word

/-- The address of a name. -/
def Setting.address (setting : Setting) (name : String) : Word :=
  match setting.resolve name with
  | .frameLocal shift _ => setting.top - BitVec.ofNat 32 shift
  | .parameter shift => setting.top - BitVec.ofNat 32 shift
  | .global name _ => setting.place name

/-- What a node means. The words pushed so far and, for a value, the operands
that wait for it are given. -/
structure Meaning where
  value : (operands : List Word) → (pushed : Nat) → World → Outcome (Word × World)
  address : (operands : List Word) → (pushed : Nat) → World → Outcome (Word × World)
  effect : (pushed : Nat) → World → Outcome World

namespace Meaning

section

variable (setting : Setting)

/-- Store a word that is not in use. -/
def store (pushed : Nat) (address value : Word) (world : World) : Outcome World :=
  if (address - setting.top).toNat < pushed then .fault else .done (world.store address value)

/-- If nothing is pushed, any word may be changed. -/
theorem store_zero (address value : Word) (world : World) :
    store setting 0 address value world = .done (world.store address value) :=
  if_neg (Nat.not_lt_zero _)

/-- Take the answer to a call. -/
def answer (pushed : Nat) (world : World) : Outcome World :=
  match world.answers with
  | [] => .waits world.channel
  | answer :: rest =>
      if ∀ index < pushed,
          answer.memory (above setting.top index) = world.memory (above setting.top index) then
        .done ⟨answer.memory, answer.channel, rest⟩
      else .fault

/-- A statement where a value is needed. -/
def parked (effect : Nat → World → Outcome World) (operands : List Word) (pushed : Nat)
    (world : World) : Outcome (Word × World) :=
  effect (pushed + operands.length) (world.storeAll (above setting.top pushed) operands) >>=
    fun world => .done (0, world)

/-- A value that is not used. -/
def unused (value : List Word → Nat → World → Outcome (Word × World)) (pushed : Nat)
    (world : World) : Outcome World :=
  value [] pushed world >>= fun result => .done result.2

/-- The meaning of an expression without an address. -/
def ofValue (value : List Word → Nat → World → Outcome (Word × World)) : Meaning :=
  ⟨value, value, unused value⟩

/-- The meaning of an expression with an address. -/
def ofPlace (value address : List Word → Nat → World → Outcome (Word × World)) : Meaning :=
  ⟨value, address, unused value⟩

/-- The meaning of a statement. -/
def ofEffect (effect : Nat → World → Outcome World) : Meaning :=
  ⟨parked setting effect, parked setting effect, effect⟩

/-- The value of a name: an array stands for its address. -/
def reference (name : String) (_ : List Word) (_ : Nat) (world : World) : Outcome (Word × World) :=
  if (setting.resolve name).isArray then .done (setting.address name, world)
  else .done (world.memory (setting.address name), world)

/-- The value of a binary operation; both operands are evaluated, the left one first. -/
def binary (op : BinaryOperator) (left right : Meaning) (operands : List Word) (pushed : Nat)
    (world : World) : Outcome (Word × World) :=
  left.value operands pushed world >>= fun result =>
    right.value (operands ++ [result.1]) pushed result.2 >>= fun result' =>
      .done (setting.arithmetic.binary op result.1 result'.1, result'.2)

/-- The value of a unary operation. -/
def unary (op : UnaryOperator) (operand : Meaning) (operands : List Word) (pushed : Nat)
    (world : World) : Outcome (Word × World) :=
  operand.value operands pushed world >>= fun result =>
    match op with
    | .dereference => .done (result.2.memory result.1, result.2)
    | op => .done (Arithmetic.unary op result.1, result.2)

/-- The effects of nodes, one after the other. -/
def sequence : List Meaning → Nat → World → Outcome World
  | [], _, world => .done world
  | meaning :: rest, pushed, world => meaning.effect pushed world >>= sequence rest pushed

/-- The values of arguments. The last one is evaluated and pushed first. -/
def arguments : List Meaning → Nat → World → Outcome (List Word × World)
  | [], _, world => .done ([], world)
  | meaning :: rest, pushed, world =>
      arguments rest pushed world >>= fun results =>
        meaning.value [] (pushed + rest.length) results.2 >>= fun result =>
          .done (result.1 :: results.1,
            result.2.store (above setting.top (pushed + rest.length)) result.1)

/-- What happens up to the moment when a procedure is entered: the link and the
arguments are pushed. -/
def prepare (meanings : List Meaning) (pushed : Nat) (world : World) :
    Outcome (List Word × World) :=
  arguments setting meanings (pushed + 1) (world.store (above setting.top pushed) setting.link)

/-- A call of a procedure. -/
def callProcedure (meanings : List Meaning) (pushed : Nat) (world : World) : Outcome World :=
  prepare setting meanings pushed world >>= fun results =>
    answer setting (pushed + 1 + meanings.length) results.2

/-- Read a word into an address. -/
def read (target : Meaning) (pushed : Nat) (world : World) : Outcome World :=
  target.address [] pushed world >>= fun result =>
    match result.2.read? with
    | none => .waits result.2.channel
    | some (word, world) => store setting pushed result.1 word world

/-- Write a value. -/
def write (value : Meaning) (pushed : Nat) (world : World) : Outcome World :=
  value.value [] pushed world >>= fun result => .done (result.2.write result.1)

/-- A call of a procedure or an intrinsic. -/
def call (name : String) (meanings : List Meaning) (pushed : Nat) (world : World) :
    Outcome World :=
  match Intrinsic.ofName? name, meanings with
  | some .read, first :: _ => read setting first pushed world
  | some .write, first :: _ => write first pushed world
  | _, meanings => callProcedure setting meanings pushed world

section Call

variable {name : String} {meanings : List Meaning}

theorem call_general (general : Intrinsic.ofName? name = none ∨ meanings = []) :
    call setting name meanings = callProcedure setting meanings := by
  funext pushed world
  rcases general with unknown | rfl
  · simp [call, unknown]
  · simp [call]

theorem call_read (first : Meaning) (rest : List Meaning)
    (known : Intrinsic.ofName? name = some .read) :
    call setting name (first :: rest) = read setting first := by
  funext pushed world
  simp [call, known]

theorem call_write (first : Meaning) (rest : List Meaning)
    (known : Intrinsic.ofName? name = some .write) :
    call setting name (first :: rest) = write first := by
  funext pushed world
  simp [call, known]

end Call

/-- Store a value at an address, which is evaluated first. -/
def assign (target value : Meaning) (pushed : Nat) (world : World) : Outcome World :=
  target.address [] pushed world >>= fun result =>
    value.value [result.1] pushed result.2 >>= fun result' =>
      store setting pushed result.1 result'.1 result'.2

/-- Do something, or something else if a condition is zero. -/
def branch (condition consequent : Meaning) (alternative : World → Outcome World) (pushed : Nat)
    (world : World) : Outcome World :=
  condition.value [] pushed world >>= fun result =>
    if result.1 = 0 then alternative result.2 else consequent.effect pushed result.2

/-- Do something as long as a condition is not zero. -/
def loop (fuel : Nat) (condition body : Meaning) (pushed : Nat) (world : World) : Outcome World :=
  Outcome.iterate World.channel (condition.value [] pushed) (body.effect pushed) fuel world

end

end Meaning

namespace Node

open Meaning

section

variable (setting : Setting) (fuel : Nat)

mutual
/-- The meaning of a node. -/
def meaning : Node → Meaning
  | .program items => .ofEffect setting (sequence (meaningAll items))
  | .procedure .. | .header _ | .declarations _ | .declaration _ =>
      .ofEffect setting fun _ world => .done world
  | .block statements => .ofEffect setting (sequence (meaningAll statements))
  | .call name arguments => .ofEffect setting (Meaning.call setting name (meaningAll arguments))
  | .assign target value =>
      .ofEffect setting (Meaning.assign setting (meaning target) (meaning value))
  | .branch condition consequent none =>
      .ofEffect setting fun pushed =>
        Meaning.branch (meaning condition) (meaning consequent) .done pushed
  | .branch condition consequent (some alternative) =>
      .ofEffect setting fun pushed =>
        Meaning.branch (meaning condition) (meaning consequent)
          ((meaning alternative).effect pushed) pushed
  | .loop condition body =>
      .ofEffect setting (Meaning.loop fuel (meaning condition) (meaning body))
  | .binary op left right => .ofValue (Meaning.binary setting op (meaning left) (meaning right))
  | .unary .dereference operand =>
      .ofPlace (Meaning.unary .dereference (meaning operand)) (meaning operand).value
  | .unary op operand => .ofValue (Meaning.unary op (meaning operand))
  | .constant value => .ofValue fun _ _ world => .done (value.toBitVec, world)
  | .reference name =>
      .ofPlace (Meaning.reference setting name) fun _ _ world =>
        .done (setting.address name, world)

/-- The meanings of nodes, in order. -/
def meaningAll : List Node → List Meaning
  | [] => []
  | node :: rest => meaning node :: meaningAll rest
end

theorem length_meaningAll (nodes : List Node) :
    (meaningAll setting fuel nodes).length = nodes.length := by
  induction nodes with
  | nil => rfl
  | cons node rest ih => rw [meaningAll, List.length_cons, ih, List.length_cons]

end

end Node

end ProcLang
