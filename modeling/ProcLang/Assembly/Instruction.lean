import ProcLang.Text.Decimal

/-!
# Instructions

The target is a load and store machine. Register `x0` is always zero, `x1` is
the stack register, `x2` holds the return address of a call, and the registers
from `x3` on are free for evaluating expressions. Labels are symbolic.

A listing has one instruction per line. Labels start the line, and everything
else is indented by a tab.
-/

set_option autoImplicit false

namespace ProcLang

/-- A register, by its role or by its number. -/
inductive Register where
  | zero
  | stack
  | link
  | general (index : Nat)
  deriving DecidableEq, Repr, Inhabited

namespace Register

/-- The number of the first register that is free for expressions. -/
def scratchBase : Nat := 3

/-- The number of a register. -/
def number : Register → Nat
  | zero => 0
  | stack => 1
  | link => 2
  | general index => index

/-- The written form of a register. -/
def text (register : Register) : String :=
  "x" ++ Decimal.text register.number

end Register

/-- Operations on two registers. Comparisons give one or zero. -/
inductive Operation where
  | add
  | sub
  | mul
  | div
  | rem
  | seq
  | sne
  | slt
  | and
  | or
  | xor
  deriving DecidableEq, Repr, Inhabited

/-- The mnemonic of an operation. -/
def Operation.text : Operation → String
  | .add => "add"
  | .sub => "sub"
  | .mul => "mul"
  | .div => "div"
  | .rem => "rem"
  | .seq => "seq"
  | .sne => "sne"
  | .slt => "slt"
  | .and => "and"
  | .or => "or"
  | .xor => "xor"

/-- A machine instruction, a label, reserved storage, or a comment. -/
inductive Instruction where
  /-- Combine two registers. -/
  | operate (op : Operation) (target left right : Register)
  /-- Add a constant to a register. -/
  | addImmediate (target source : Register) (amount : Int32)
  /-- Invert every bit. -/
  | complement (target source : Register)
  /-- Load a constant. -/
  | loadImmediate (target : Register) (value : Int32)
  /-- Load the address of a label. -/
  | loadAddress (target : Register) (label : String)
  /-- Load the word at a base plus an offset. -/
  | load (target base : Register) (offset : Int32)
  /-- Store a word at a base plus an offset. -/
  | store (source base : Register) (offset : Int32)
  /-- Continue at a label. -/
  | jump (label : String)
  /-- Continue at a label if a register is zero. -/
  | branchIfZero (tested : Register) (label : String)
  /-- Continue at a label and keep the return address. -/
  | call (label : String)
  /-- Continue at the return address. -/
  | ret
  /-- Take a word from the input. -/
  | read (target : Register)
  /-- Put a word on the output. -/
  | write (source : Register)
  /-- Stop the machine. -/
  | halt
  /-- Name this place. -/
  | label (name : String)
  /-- Reserve words that start out as zero. -/
  | reserve (words : UInt32)
  /-- A remark without effect. -/
  | comment (text : String)
  deriving DecidableEq, Repr, Inhabited

namespace Instruction

/-- The written form of an instruction. -/
def text : Instruction → String
  | operate op target left right =>
      op.text ++ " " ++ target.text ++ " " ++ left.text ++ " " ++ right.text
  | addImmediate target source amount =>
      "addi " ++ target.text ++ " " ++ source.text ++ " " ++ Decimal.signedText amount.toInt
  | complement target source => "not " ++ target.text ++ " " ++ source.text
  | loadImmediate target value => "li " ++ target.text ++ " " ++ Decimal.signedText value.toInt
  | loadAddress target place => "li " ++ target.text ++ " " ++ place
  | load target base offset =>
      "lw " ++ target.text ++ " " ++ base.text ++ " " ++ Decimal.signedText offset.toInt
  | store source base offset =>
      "sw " ++ source.text ++ " " ++ base.text ++ " " ++ Decimal.signedText offset.toInt
  | jump place => "jal " ++ Register.zero.text ++ " " ++ place
  | branchIfZero tested place => "beqz " ++ tested.text ++ " " ++ place
  | call place => "jal " ++ Register.link.text ++ " " ++ place
  | ret => "jalr " ++ Register.zero.text ++ " " ++ Register.link.text
  | read target => "eread " ++ target.text
  | write source => "ewrite " ++ source.text
  | halt => "ehlt"
  | label name => name ++ ":"
  | reserve words => "data 0 " ++ Decimal.text words.toNat
  | comment remark => "; " ++ remark

/-- What stands in front of an instruction on its line. -/
def indentation : Instruction → String
  | label _ => ""
  | _ => "\t"

/-- An instruction on a line of its own. -/
def line (instruction : Instruction) : String :=
  instruction.indentation ++ instruction.text ++ "\n"

end Instruction

/-- The listing of a program. -/
def listing (program : List Instruction) : String :=
  String.join (program.map Instruction.line)

end ProcLang
