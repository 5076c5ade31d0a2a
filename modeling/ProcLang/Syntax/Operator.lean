import ProcLang.Token.Basic

/-!
# Operators

The operators of expressions, how they are written, and how tightly the binary
ones bind. All binary operators associate to the left, and both operands are
always evaluated, also of the logical ones, which work bit by bit.
-/

set_option autoImplicit false

namespace ProcLang

/-- Operators between two operands. -/
inductive BinaryOperator where
  | add
  | sub
  | mul
  | div
  | mod
  | equal
  | notEqual
  | greater
  | less
  | and
  | or
  | xor
  deriving DecidableEq, Repr, Inhabited

namespace BinaryOperator

/-- The written form of a binary operator. -/
def text : BinaryOperator → String
  | .add => "+"
  | .sub => "-"
  | .mul => "*"
  | .div => "/"
  | .mod => "%"
  | .equal => "=="
  | .notEqual => "!="
  | .greater => ">"
  | .less => "<"
  | .and => "and"
  | .or => "or"
  | .xor => "xor"

/-- How loosely a binary operator binds: products bind tightest. -/
def looseness : BinaryOperator → Nat
  | .mul | .div | .mod => 1
  | .add | .sub => 2
  | .equal | .notEqual | .greater | .less => 3
  | .and => 4
  | .xor => 5
  | .or => 6

/-- The looseness of the operators that bind least. -/
def loosest : Nat := 6

/-- The binary operator a token stands for between two operands. -/
def ofKind? : TokenKind → Option BinaryOperator
  | .symbol .plus => some .add
  | .symbol .minus => some .sub
  | .symbol .star => some .mul
  | .symbol .slash => some .div
  | .symbol .percent => some .mod
  | .symbol .equalEqual => some .equal
  | .symbol .bangEqual => some .notEqual
  | .symbol .greater => some .greater
  | .symbol .less => some .less
  | .keyword .kwAnd => some .and
  | .keyword .kwOr => some .or
  | .keyword .kwXor => some .xor
  | _ => none

theorem looseness_le_loosest (op : BinaryOperator) : op.looseness ≤ loosest := by
  cases op <;> decide

theorem looseness_pos (op : BinaryOperator) : 0 < op.looseness := by
  cases op <;> decide

end BinaryOperator

/-- Operators in front of one operand. -/
inductive UnaryOperator where
  | plus
  | minus
  | not
  | dereference
  deriving DecidableEq, Repr, Inhabited

namespace UnaryOperator

/-- The written form of a unary operator. -/
def text : UnaryOperator → String
  | .plus => "+"
  | .minus => "-"
  | .not => "not"
  | .dereference => "*"

/-- The unary operator a token stands for in front of an operand. -/
def ofKind? : TokenKind → Option UnaryOperator
  | .symbol .plus => some .plus
  | .symbol .minus => some .minus
  | .symbol .star => some .dereference
  | .keyword .kwNot => some .not
  | _ => none

end UnaryOperator

end ProcLang
