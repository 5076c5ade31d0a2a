import ProcLang.Syntax.Node

/-!
# Outlines

An outline shows a tree with one line per node: the depth as a run of bars, the
kind of the node, and its own data. The lists of a tree have no line of their
own; their members stand at the depth of the list.
-/

set_option autoImplicit false

namespace ProcLang

/-- One line of an outline. -/
structure OutlineLine where
  depth : Nat
  label : String
  deriving DecidableEq, Repr, Inhabited

namespace OutlineLine

/-- What stands in front of a line for each level of depth. -/
def bar : String := "|   "

/-- A line as text, with its end of line. -/
def text (line : OutlineLine) : String :=
  String.join (List.replicate line.depth bar) ++ line.label ++ "\n"

end OutlineLine

/-- The line of a declaration. -/
def Declaration.outline (depth : Nat) (declared : Declaration) : OutlineLine :=
  ⟨depth, "decl_var " ++ declared.name ++ " [ " ++ Decimal.text declared.words ++ " ]"⟩

/-- The lines of a procedure header. -/
def Header.outline (depth : Nat) (header : Header) : List OutlineLine :=
  ⟨depth, "proc_header " ++ header.name⟩ ::
    header.parameters.map fun parameter => ⟨depth + 1, "arg_list " ++ parameter⟩

namespace Node

mutual
/-- The lines of a tree whose root stands at a given depth. -/
def outline (depth : Nat) : Node → List OutlineLine
  | .program items => outlineAll depth items
  | .procedure heading locals body =>
      ⟨depth, "procedure"⟩ :: (heading.outline (depth + 1) ++
        (locals.map (Declaration.outline (depth + 1)) ++ outline (depth + 1) body))
  | .header heading => heading.outline depth
  | .declarations declared => declared.map (Declaration.outline depth)
  | .declaration declared => [declared.outline depth]
  | .block statements => outlineAll depth statements
  | .call name arguments => ⟨depth, "proc_call " ++ name⟩ :: outlineAll (depth + 1) arguments
  | .assign target value =>
      ⟨depth, "assign"⟩ :: (outline (depth + 1) target ++ outline (depth + 1) value)
  | .branch condition consequent none =>
      ⟨depth, "if"⟩ :: (outline (depth + 1) condition ++ outline (depth + 1) consequent)
  | .branch condition consequent (some alternative) =>
      ⟨depth, "if"⟩ :: (outline (depth + 1) condition ++
        (outline (depth + 1) consequent ++ outline (depth + 1) alternative))
  | .loop condition body =>
      ⟨depth, "while"⟩ :: (outline (depth + 1) condition ++ outline (depth + 1) body)
  | .binary op left right =>
      ⟨depth, "binop " ++ op.text⟩ :: (outline (depth + 1) left ++ outline (depth + 1) right)
  | .unary op operand => ⟨depth, "unop " ++ op.text⟩ :: outline (depth + 1) operand
  | .constant value => [⟨depth, "constant " ++ Decimal.signedText value.toInt⟩]
  | .reference name => [⟨depth, "refname " ++ name⟩]

/-- The lines of trees that stand at the same depth. -/
def outlineAll (depth : Nat) : List Node → List OutlineLine
  | [] => []
  | node :: rest => outline depth node ++ outlineAll depth rest
end

/-- The outline of a tree as text. -/
def outlineText (node : Node) : String :=
  String.join ((node.outline 0).map OutlineLine.text)

end Node

end ProcLang
