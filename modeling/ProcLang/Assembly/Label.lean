import ProcLang.Text.Decimal

/-!
# Labels

The places that a lowered program names. Each kind of place has a spelling of
its own, so two places share a label only if they are the same place.
-/

set_option autoImplicit false

namespace ProcLang

/-- A place in a lowered program. -/
inductive Label where
  /-- The first instruction of a procedure. -/
  | procedure (name : String)
  /-- The storage of a global. -/
  | global (name : String)
  /-- The first word of the stack. -/
  | stackBegin
  /-- Where a choice goes if its condition does not hold. -/
  | branchFalse (id : Nat)
  /-- Just after a choice. -/
  | branchEnd (id : Nat)
  /-- Where a loop tests its condition. -/
  | loopBegin (id : Nat)
  /-- Just after a loop. -/
  | loopEnd (id : Nat)
  deriving DecidableEq, Repr, Inhabited

namespace Label

/-- The spelling of a label. -/
def text : Label → String
  | procedure name => "p_" ++ name
  | global name => "g_" ++ name
  | stackBegin => "l_stack_begin"
  | branchFalse id => "if_" ++ Decimal.text id ++ "_false"
  | branchEnd id => "if_" ++ Decimal.text id ++ "_end"
  | loopBegin id => "while_" ++ Decimal.text id ++ "_begin"
  | loopEnd id => "while_" ++ Decimal.text id ++ "_end"

end Label

end ProcLang
