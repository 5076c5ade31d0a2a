import Mathlib
import ProcLang.Assembly.Instruction
import ProcLang.Syntax.Operator

/-!
# The machine

The target machine has numbered registers of 32 bits, of which register zero is
always zero, and a memory of as many words as there are addresses. It reads
words from an input and writes words to an output.

A program is run from its instructions, by position. An assembler gives each
position an address: labels and remarks take no room, reserved storage takes
its words, and every other instruction takes at least one word. A call leaves
the address of the next position in the link register, and a return goes to the
position with the address found there.

Some procedures may be outside the program. A call of one of them takes the
next of the answers that the world holds, which says what the procedure leaves
behind: anything at all, except that the stack register is as it was and that
the machine goes on after the call.

How the machine divides is left open.
-/

set_option autoImplicit false

namespace ProcLang

/-- What fits a register. -/
abbrev Word := BitVec 32

/-- One or zero. -/
def truth (holds : Bool) : Word :=
  if holds then 1 else 0

/-- How division works. -/
structure Arithmetic where
  quotient : Word → Word → Word
  remainder : Word → Word → Word

namespace Arithmetic

variable (arithmetic : Arithmetic)

/-- The result of an operation of the machine. -/
def operate : Operation → Word → Word → Word
  | .add, left, right => left + right
  | .sub, left, right => left - right
  | .mul, left, right => left * right
  | .div, left, right => arithmetic.quotient left right
  | .rem, left, right => arithmetic.remainder left right
  | .seq, left, right => truth (left == right)
  | .sne, left, right => truth (left != right)
  | .slt, left, right => truth (left.slt right)
  | .and, left, right => left &&& right
  | .or, left, right => left ||| right
  | .xor, left, right => left ^^^ right

end Arithmetic

/-! ## States -/

/-- What has been read and written so far. -/
structure Channel where
  input : List Word
  output : List Word

/-- What a procedure outside the program leaves behind. -/
structure Answer where
  registers : Nat → Word
  memory : Word → Word
  channel : Channel

/-- What is outside the registers: the memory, the channel, and the answers to
calls of procedures outside the program, in the order of the calls. -/
structure World where
  memory : Word → Word
  channel : Channel
  answers : List Answer

/-- The registers and the world. -/
structure Core where
  registers : Nat → Word
  world : World

/-- Where the machine is in its program, and all it holds. -/
structure State where
  position : Nat
  core : Core

namespace World

/-- Change one word of the memory. -/
def store (world : World) (address value : Word) : World :=
  { world with memory := fun other => if other = address then value else world.memory other }

/-- Change words of the memory from an address on. -/
def storeAll (world : World) (address : Word) : List Word → World
  | [] => world
  | value :: rest => (world.store address value).storeAll (address + 1) rest

/-- Put a word on the output. -/
def write (world : World) (value : Word) : World :=
  { world with channel := ⟨world.channel.input, world.channel.output ++ [value]⟩ }

/-- Take a word from the input, if there is one. -/
def read? (world : World) : Option (Word × World) :=
  match world.channel.input with
  | [] => none
  | value :: rest => some (value, { world with channel := ⟨rest, world.channel.output⟩ })

@[simp] theorem memory_store_self (world : World) (address value : Word) :
    (world.store address value).memory address = value :=
  if_pos rfl

theorem memory_store_of_ne (world : World) {address other : Word} (value : Word)
    (different : other ≠ address) :
    (world.store address value).memory other = world.memory other :=
  if_neg different

@[simp] theorem channel_store (world : World) (address value : Word) :
    (world.store address value).channel = world.channel := rfl

@[simp] theorem answers_store (world : World) (address value : Word) :
    (world.store address value).answers = world.answers := rfl

theorem memory_of_read? {world world' : World} {value : Word}
    (taken : world.read? = some (value, world')) : world'.memory = world.memory := by
  unfold read? at taken
  split at taken
  · cases taken
  · cases taken
    rfl

@[simp] theorem memory_write (world : World) (value : Word) :
    (world.write value).memory = world.memory := rfl

end World

namespace Core

/-- The value of a register. -/
def get (core : Core) (register : Register) : Word :=
  if register.number = 0 then 0 else core.registers register.number

/-- Change a register. -/
def set (core : Core) (register : Register) (value : Word) : Core :=
  { core with
    registers := fun number =>
      if number = register.number then value else core.registers number }

/-- Change the world. -/
def withWorld (core : Core) (world : World) : Core :=
  { core with world := world }

@[simp] theorem get_zero (core : Core) : core.get .zero = 0 := rfl

theorem get_set_self (core : Core) {register : Register} (value : Word)
    (nonzero : register.number ≠ 0) : (core.set register value).get register = value := by
  simp [get, set, nonzero]

theorem get_set_of_ne (core : Core) {register other : Register} (value : Word)
    (different : other.number ≠ register.number) :
    (core.set register value).get other = core.get other := by
  simp [get, set, different]

@[simp] theorem world_set (core : Core) (register : Register) (value : Word) :
    (core.set register value).world = core.world := rfl

@[simp] theorem get_withWorld (core : Core) (world : World) (register : Register) :
    (core.withWorld world).get register = core.get register := rfl

@[simp] theorem world_withWorld (core : Core) (world : World) :
    (core.withWorld world).world = world := rfl

end Core

/-! ## Machines -/

/-- A program, and how it is placed and run. -/
structure Machine where
  program : List Instruction
  /-- The labels of procedures outside the program. -/
  external : String → Bool
  /-- The address of the first instruction. -/
  origin : Nat
  /-- The words that an instruction takes. -/
  width : Instruction → Nat
  arithmetic : Arithmetic
  width_pos : ∀ instruction, 0 < width instruction

namespace Machine

/-- A program that starts at address zero, with one word for each instruction,
nothing outside it, and division that rounds toward zero. -/
def alone (program : List Instruction) : Machine :=
  ⟨program, fun _ => false, 0, fun _ => 1, ⟨BitVec.sdiv, BitVec.srem⟩, fun _ => Nat.one_pos⟩

variable (machine : Machine)

/-- The words between a position and the next. -/
def extent : Instruction → Nat
  | .label _ | .comment _ => 0
  | .reserve words => words.toNat
  | instruction => machine.width instruction

/-- The address of a position. -/
def address (position : Nat) : Nat :=
  machine.origin + ((machine.program.take position).map machine.extent).sum

/-- The position of a label: the first one where it stands. -/
def target? (name : String) : Option Nat :=
  machine.program.findIdx? (· == .label name)

/-- The address of a label. A label that stands nowhere gets the end of the program. -/
def labelAddress (name : String) : Word :=
  BitVec.ofNat 32 (machine.address ((machine.target? name).getD machine.program.length))

/-- The address of a position as a word. -/
def link (position : Nat) : Word :=
  BitVec.ofNat 32 (machine.address position)

/-- The first position with an address. -/
def positionAt? (address : Word) : Option Nat :=
  (List.range (machine.program.length + 1)).find? fun position => machine.link position == address

/-- What an instruction does if the machine goes on with the next one. -/
def effect? (core : Core) : Instruction → Option Core
  | .operate op target left right =>
      some (core.set target (machine.arithmetic.operate op (core.get left) (core.get right)))
  | .addImmediate target source amount =>
      some (core.set target (core.get source + amount.toBitVec))
  | .complement target source => some (core.set target (~~~core.get source))
  | .loadImmediate target value => some (core.set target value.toBitVec)
  | .loadAddress target name => some (core.set target (machine.labelAddress name))
  | .load target base offset =>
      some (core.set target (core.world.memory (core.get base + offset.toBitVec)))
  | .store source base offset =>
      some (core.withWorld (core.world.store (core.get base + offset.toBitVec) (core.get source)))
  | .read target => core.world.read?.map fun result => (core.withWorld result.2).set target result.1
  | .write source => some (core.withWorld (core.world.write (core.get source)))
  | .label _ | .comment _ => some core
  | .jump _ | .branchIfZero .. | .call _ | .ret | .halt | .reserve _ => none

/-- What a procedure outside the program leaves behind, if it answers. -/
def answer? (core : Core) : Option Core :=
  match core.world.answers with
  | [] => none
  | answer :: rest =>
      some ⟨fun number => if number = Register.stack.number then core.registers number
        else answer.registers number, ⟨answer.memory, answer.channel, rest⟩⟩

/-- What an instruction does at a position. -/
def execute (state : State) : Instruction → Option State
  | .jump name => (machine.target? name).map fun position => ⟨position, state.core⟩
  | .branchIfZero tested name =>
      if state.core.get tested = 0 then
        (machine.target? name).map fun position => ⟨position, state.core⟩
      else some ⟨state.position + 1, state.core⟩
  | .call name =>
      if machine.external name then
        (answer? state.core).map fun core => ⟨state.position + 1, core⟩
      else
        (machine.target? name).map fun position =>
          ⟨position, state.core.set .link (machine.link (state.position + 1))⟩
  | .ret =>
      (machine.positionAt? (state.core.get .link)).map fun position => ⟨position, state.core⟩
  | instruction =>
      (machine.effect? state.core instruction).map fun core => ⟨state.position + 1, core⟩

/-- One step, if the machine can take one. -/
def step (state : State) : Option State :=
  match machine.program[state.position]? with
  | none => none
  | some instruction => machine.execute state instruction

/-- A number of steps, if the machine can take them. -/
def steps : Nat → State → Option State
  | 0, state => some state
  | count + 1, state =>
      match machine.step state with
      | none => none
      | some next => steps count next

/-- The machine has stopped. -/
def Halts (state : State) : Prop :=
  machine.program[state.position]? = some .halt

/-- The machine waits for a word to read or for an answer. -/
def Waits (state : State) : Prop :=
  (∃ target, machine.program[state.position]? = some (.read target) ∧
    state.core.world.channel.input = []) ∨
  ∃ name, machine.program[state.position]? = some (.call name) ∧ machine.external name ∧
    state.core.world.answers = []

theorem step_of_effect {position : Nat} {core after : Core} {instruction : Instruction}
    (found : machine.program[position]? = some instruction)
    (done : machine.effect? core instruction = some after) :
    machine.step ⟨position, core⟩ = some ⟨position + 1, after⟩ := by
  simp only [step, found]
  cases instruction <;> simp_all [execute, effect?]

theorem step_of_waits {state : State} (waits : machine.Waits state) :
    machine.step state = none := by
  rcases waits with ⟨target, found, empty⟩ | ⟨name, found, outside, none⟩
  · simp [step, found, execute, effect?, World.read?, empty]
  · simp [step, found, execute, outside, answer?, none]

theorem step_of_halts {state : State} (halts : machine.Halts state) :
    machine.step state = none := by
  unfold Halts at halts
  simp [step, halts, execute, effect?]

end Machine

end ProcLang
