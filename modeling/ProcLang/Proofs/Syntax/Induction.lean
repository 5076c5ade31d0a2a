import Mathlib
import ProcLang.Syntax.Node

/-!
# Induction over trees

A tree holds other trees in lists and in an optional part. `Node.induction` is
the principle that gives the hypothesis for each of them, so a property of
nodes is proved once per construct.
-/

set_option autoImplicit false

namespace ProcLang.Node

/-- What holds of a node whenever it holds of its parts holds of every node. -/
@[elab_as_elim, induction_eliminator]
theorem induction {motive : Node → Prop}
    (program : ∀ items, (∀ item ∈ items, motive item) → motive (.program items))
    (procedure : ∀ heading locals body, motive body → motive (.procedure heading locals body))
    (header : ∀ heading, motive (.header heading))
    (declarations : ∀ declared, motive (.declarations declared))
    (declaration : ∀ declared, motive (.declaration declared))
    (block : ∀ statements, (∀ statement ∈ statements, motive statement) →
      motive (.block statements))
    (call : ∀ name arguments, (∀ argument ∈ arguments, motive argument) →
      motive (.call name arguments))
    (assign : ∀ target value, motive target → motive value → motive (.assign target value))
    (branch : ∀ condition consequent, motive condition → motive consequent →
      motive (.branch condition consequent none))
    (branchElse : ∀ condition consequent alternative, motive condition → motive consequent →
      motive alternative → motive (.branch condition consequent (some alternative)))
    (loop : ∀ condition body, motive condition → motive body → motive (.loop condition body))
    (binary : ∀ op left right, motive left → motive right → motive (.binary op left right))
    (unary : ∀ op operand, motive operand → motive (.unary op operand))
    (constant : ∀ value, motive (.constant value))
    (reference : ∀ name, motive (.reference name))
    (node : Node) : motive node := by
  refine @Node.rec motive (fun nodes => ∀ node ∈ nodes, motive node)
    (fun part => ∀ node, part = some node → motive node)
    program procedure header declarations declaration block call assign ?_ loop binary unary
    constant reference ?_ ?_ ?_ ?_ node
  case refine_1 =>
    intro condition consequent alternative ihCondition ihConsequent ihAlternative
    cases alternative with
    | none => exact branch condition consequent ihCondition ihConsequent
    | some alternative =>
        exact branchElse condition consequent alternative ihCondition ihConsequent
          (ihAlternative alternative rfl)
  case refine_2 => exact nofun
  case refine_3 =>
    intro first rest ihFirst ihRest node member
    rcases List.mem_cons.mp member with rfl | member
    · exact ihFirst
    · exact ihRest node member
  case refine_4 => exact nofun
  case refine_5 =>
    intro part ihPart node same
    obtain rfl : part = node := by simpa using same
    exact ihPart

end ProcLang.Node
