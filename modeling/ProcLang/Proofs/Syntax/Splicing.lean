import ProcLang.Proofs.Grammar.HandedOver
import ProcLang.Proofs.Syntax.Outline

/-!
# Trees with the same outline

An outline has no line for a list, so it does not show where a list starts. A block among
statements looks like its statements, and a list of declarations among the items of a program
looks like its declarations. `Node.spliced` puts the members in place of such a list. The
branches of a choice stand side by side, so an outline does not show either where the
alternative starts.

This is all that an outline hides: trees that were read from source texts and have no
alternatives have the same outline exactly if they are the same after splicing
(`outlineText_eq_iff_spliced`). The tree is assembled from the outlines again, each caption
taking a fixed number of parts in front of a list (`Caption.assemble`).
-/

set_option autoImplicit false

namespace ProcLang

namespace Node

/-! ## Splicing -/

/-- What a node puts into a list: the members of a block or of declarations, or itself. -/
def members : Node → List Node
  | .block statements => statements
  | .declarations declared => declared.map .declaration
  | node => [node]

mutual
/-- A tree where the members of blocks among statements, and of declarations among items,
stand in place of these lists. Expressions hold no statements. -/
def spliced : Node → Node
  | .program items => .program (splicedAll items)
  | .procedure heading locals body => .procedure heading locals body.spliced
  | .block statements => .block (splicedAll statements)
  | .branch condition consequent none => .branch condition consequent.spliced none
  | .branch condition consequent (some alternative) =>
      .branch condition consequent.spliced (some alternative.spliced)
  | .loop condition body => .loop condition body.spliced
  | node => node

/-- The list of what spliced trees put into it. -/
def splicedAll : List Node → List Node
  | [] => []
  | node :: rest => node.spliced.members ++ splicedAll rest
end

mutual
/-- No choice among the statements of a tree has an alternative. -/
def isElseless : Node → Bool
  | .program nodes | .block nodes => isElselessAll nodes
  | .procedure _ _ body | .loop _ body => body.isElseless
  | .branch _ consequent none => consequent.isElseless
  | .branch _ _ (some _) => false
  | _ => true

/-- No choice in trees has an alternative. -/
def isElselessAll : List Node → Bool
  | [] => true
  | node :: rest => node.isElseless && isElselessAll rest
end

theorem isElselessAll_iff {nodes : List Node} :
    isElselessAll nodes ↔ ∀ node ∈ nodes, node.isElseless := by
  induction nodes with
  | nil => simp [isElselessAll]
  | cons node rest ih => simp [isElselessAll, ih]

theorem splicedAll_eq_flatMap (nodes : List Node) :
    splicedAll nodes = nodes.flatMap fun node => node.spliced.members := by
  induction nodes with
  | nil => rfl
  | cons node rest ih => rw [splicedAll, ih, List.flatMap_cons]

/-- The statements of a spliced block are its members. -/
theorem block_members {node : Node} (block : node.isBlock) :
    .block node.spliced.members = node.spliced := by
  obtain ⟨statements, rfl⟩ := exists_of_isBlock block
  rfl

@[simp] theorem outlinesAll_append (first second : List Node) :
    outlinesAll (first ++ second) = outlinesAll first ++ outlinesAll second := by
  induction first with
  | nil => rfl
  | cons node rest ih => rw [List.cons_append, outlinesAll, outlinesAll, ih, List.append_assoc]

theorem outlinesAll_members (node : Node) : outlinesAll node.members = node.outlines := by
  cases node with
  | declarations declared =>
      rw [members, outlines]
      induction declared with
      | nil => rfl
      | cons first rest ih => rw [List.map_cons, outlinesAll, ih, outlines]; rfl
  | block statements => rfl
  | _ => exact List.append_nil _

theorem outlinesAll_splicedAll {nodes : List Node}
    (all : ∀ node ∈ nodes, node.spliced.outlines = node.outlines) :
    outlinesAll (splicedAll nodes) = outlinesAll nodes := by
  induction nodes with
  | nil => rfl
  | cons node rest ih =>
      obtain ⟨first, others⟩ := List.forall_mem_cons.mp all
      rw [splicedAll, outlinesAll_append, outlinesAll_members, first, ih others, outlinesAll]

/-- Splicing does not change the outlines. -/
theorem outlines_spliced (node : Node) : node.spliced.outlines = node.outlines := by
  induction node with
  | program nodes ih | block nodes ih => exact outlinesAll_splicedAll ih
  | procedure heading locals body ih => rw [spliced, outlines, outlines, ih]
  | branch condition consequent _ ih => rw [spliced, outlines, outlines, ih]
  | branchElse condition consequent alternative _ ih ih' =>
      rw [spliced, outlines, outlines, ih, ih']
  | loop condition body _ ih => rw [spliced, outlines, outlines, ih]
  | _ => rfl

/-! ## Proper names -/

section Proper

open Outline

theorem isProperAll_outlinesAll {nodes : List Node}
    (all : ∀ node ∈ nodes, IsProperAll node.outlines) : IsProperAll (outlinesAll nodes) := by
  induction nodes with
  | nil => exact isProperAll_nil
  | cons node rest ih =>
      obtain ⟨first, others⟩ := List.forall_mem_cons.mp all
      exact isProperAll_append.mpr ⟨first, ih others⟩

variable {node : Node}

theorem isProperAll_of_isExpression (proper : node.isExpression) : IsProperAll node.outlines := by
  induction node with
  | constant value => simp [outlines]
  | reference name => simpa [outlines] using isIdentifier_of_isName proper
  | unary op operand ih => simpa [outlines] using ih proper
  | binary op left right ih ih' =>
      rw [isExpression, Bool.and_eq_true] at proper
      simpa [outlines] using ⟨ih proper.1, ih' proper.2⟩
  | call name arguments ih =>
      simp only [isExpression, Bool.and_eq_true, isExpressionAll_iff] at proper
      obtain ⟨⟨named, -⟩, all⟩ := proper
      have inner := isProperAll_outlinesAll fun argument member =>
        ih argument member (all argument member)
      simpa [outlines] using ⟨isIdentifier_of_isName named, inner⟩
  | _ => cases proper

theorem isProperAll_of_isStatement (proper : node.isStatement) : IsProperAll node.outlines := by
  induction node with
  | assign target value =>
      simp only [isStatement, Bool.and_eq_true] at proper
      simpa [outlines] using ⟨isProperAll_of_isExpression proper.1.2,
        isProperAll_of_isExpression proper.2⟩
  | call name arguments => exact isProperAll_of_isExpression proper
  | block statements ih =>
      rw [isStatement, isStatementAll_iff] at proper
      exact isProperAll_outlinesAll fun statement member =>
        ih statement member (proper statement member)
  | branch condition consequent _ ih =>
      simp only [isStatement, Bool.and_eq_true] at proper
      simpa [outlines] using ⟨isProperAll_of_isExpression proper.1.1, ih proper.2⟩
  | branchElse condition consequent alternative _ ih ih' =>
      simp only [isStatement, Bool.and_eq_true] at proper
      simpa [outlines] using
        ⟨isProperAll_of_isExpression proper.1.1, ih proper.1.2.2, ih' proper.2.2⟩
  | loop condition body _ ih =>
      simp only [isStatement, Bool.and_eq_true] at proper
      simpa [outlines] using ⟨isProperAll_of_isExpression proper.1.1, ih proper.2⟩
  | _ => cases proper

theorem isIdentifier_of_isProper {declared : List Declaration}
    (proper : declared.all Declaration.isProper) : ∀ entry ∈ declared, isIdentifier entry.name := by
  intro entry member
  have sized := List.all_eq_true.mp proper entry member
  simp only [Declaration.isProper, Bool.and_eq_true] at sized
  exact isIdentifier_of_isName sized.1.1

theorem isProperAll_of_isItem (proper : node.isItem) : IsProperAll node.outlines := by
  cases node with
  | declarations declared =>
      rw [isItem, Bool.and_eq_true] at proper
      simpa [outlines] using isIdentifier_of_isProper proper.2
  | procedure heading locals body =>
      simp only [isItem, Bool.and_eq_true, List.all_eq_true] at proper
      obtain ⟨⟨⟨⟨⟨named, parameters⟩, sized⟩, -⟩, -⟩, command⟩ := proper
      have declared := isIdentifier_of_isProper (List.all_eq_true.mpr sized)
      have header : isIdentifier heading.name ∧ ∀ name ∈ heading.parameters, isIdentifier name :=
        ⟨isIdentifier_of_isName named, fun name member =>
          isIdentifier_of_isName (parameters name member)⟩
      simpa [outlines, Header.toOutline] using
        ⟨header, declared, isProperAll_of_isStatement command⟩
  | _ => cases proper

theorem isProperAll_of_isWellFormed (proper : node.isWellFormed) : IsProperAll node.outlines := by
  cases node with
  | program items =>
      exact isProperAll_outlinesAll fun item member =>
        isProperAll_of_isItem (List.all_eq_true.mp proper item member)
  | _ => cases proper

end Proper

/-! ## Assembling -/

/-- The declaration that a node is. -/
def declared? : Node → Option Declaration
  | .declaration declared => some declared
  | _ => none

/-- The name that a node refers to. -/
def referred? : Node → Option String
  | .reference name => some name
  | _ => none

end Node

/-- The tree of a caption and the trees of its parts. A header has its parameters for parts,
and a procedure its header, its declarations and its statements. -/
def Caption.assemble : Caption → List Node → Node
  | .procedure, .header heading :: parts =>
      .procedure heading (parts.filterMap Node.declared?)
        (.block (parts.filter fun part => part.declared?.isNone))
  | .header name, parts => .header ⟨name, parts.filterMap Node.referred?⟩
  | .parameter name, [] => .reference name
  | .declaration declared, [] => .declaration declared
  | .call name, arguments => .call name arguments
  | .assign, [target, value] => .assign target value
  | .branch, condition :: statements => .branch condition (.block statements) none
  | .loop, condition :: statements => .loop condition (.block statements)
  | .binary op, [left, right] => .binary op left right
  | .unary op, [operand] => .unary op operand
  | .constant value, [] => .constant value
  | .reference name, [] => .reference name
  | _, parts => .block parts

namespace Outline

mutual
/-- The tree of an outline. -/
def tree : Outline → Node
  | node caption parts => caption.assemble (trees parts)

/-- The trees of outlines. -/
def trees : List Outline → List Node
  | [] => []
  | first :: rest => tree first :: trees rest
end

@[simp] theorem trees_nil : trees [] = [] := rfl

@[simp] theorem trees_cons (caption : Caption) (parts rest : List Outline) :
    trees (node caption parts :: rest) = caption.assemble (trees parts) :: trees rest := by
  rw [trees, tree]

@[simp] theorem trees_append (first second : List Outline) :
    trees (first ++ second) = trees first ++ trees second := by
  induction first with
  | nil => rfl
  | cons outline rest ih => rw [List.cons_append, trees, trees, ih, List.cons_append]

@[simp] theorem trees_leaves {α : Type} (caption : α → Caption) (items : List α) :
    trees (items.map fun item => node (caption item) []) =
      items.map fun item => (caption item).assemble [] := by
  induction items with
  | nil => rfl
  | cons item rest ih => rw [List.map_cons, trees_cons, trees_nil, ih, List.map_cons]

end Outline

namespace Node

open Outline

theorem tree_header (heading : Header) : trees [heading.toOutline] = [.header heading] := by
  simp [Header.toOutline, Caption.assemble, List.filterMap_map, Function.comp_def, referred?]

variable {node : Node}

theorem trees_outlinesAll (nodes : List Node) :
    trees (outlinesAll nodes) = nodes.flatMap fun node => trees node.outlines := by
  induction nodes with
  | nil => rfl
  | cons node rest ih => rw [outlinesAll, trees_append, ih, List.flatMap_cons]

/-- An expression is assembled again. -/
theorem trees_of_isExpression (proper : node.isExpression) : trees node.outlines = [node] := by
  induction node with
  | constant value => rfl
  | reference name => rfl
  | unary op operand ih => simp [outlines, Caption.assemble, ih proper]
  | binary op left right ih ih' =>
      rw [isExpression, Bool.and_eq_true] at proper
      simp [outlines, Caption.assemble, ih proper.1, ih' proper.2]
  | call name arguments ih =>
      simp only [isExpression, Bool.and_eq_true, isExpressionAll_iff] at proper
      have inner : trees (outlinesAll arguments) = arguments := by
        rw [trees_outlinesAll, List.flatMap_congr fun argument member =>
          ih argument member (proper.2 argument member), List.flatMap_singleton']
      simp [outlines, Caption.assemble, inner]
  | _ => cases proper

/-- No statement puts a declaration into a list. -/
theorem declared?_of_mem_members (proper : node.isStatement) :
    ∀ part ∈ node.spliced.members, part.declared? = none := by
  induction node with
  | block statements ih =>
      rw [isStatement, isStatementAll_iff] at proper
      rw [spliced, members, splicedAll_eq_flatMap, List.forall_mem_flatMap]
      exact fun statement listed => ih statement listed (proper statement listed)
  | assign | call | branch | branchElse | loop => simp [spliced, members, declared?]
  | _ => cases proper

/-- A statement is assembled as it is spliced. -/
theorem trees_of_isStatement (proper : node.isStatement) (elseless : node.isElseless) :
    trees node.outlines = node.spliced.members := by
  induction node with
  | assign target value =>
      simp only [isStatement, Bool.and_eq_true] at proper
      simp [outlines, Caption.assemble, trees_of_isExpression proper.1.2,
        trees_of_isExpression proper.2, spliced, members]
  | call name arguments => exact trees_of_isExpression proper
  | block statements ih =>
      rw [isStatement, isStatementAll_iff] at proper
      rw [isElseless, isElselessAll_iff] at elseless
      rw [outlines, trees_outlinesAll, spliced, members, splicedAll_eq_flatMap]
      exact List.flatMap_congr fun statement member =>
        ih statement member (proper statement member) (elseless statement member)
  | branch condition consequent _ ih =>
      simp only [isStatement, Bool.and_eq_true] at proper
      obtain ⟨⟨test, block⟩, command⟩ := proper
      rw [outlines, trees_cons, trees_append, trees_of_isExpression test, ih command elseless]
      exact congrArg (fun body => [Node.branch condition body none]) (block_members block)
  | loop condition body _ ih =>
      simp only [isStatement, Bool.and_eq_true] at proper
      obtain ⟨⟨test, block⟩, command⟩ := proper
      rw [outlines, trees_cons, trees_append, trees_of_isExpression test, ih command elseless]
      exact congrArg (fun body => [Node.loop condition body]) (block_members block)
  | branchElse => cases elseless
  | _ => cases proper

/-- An item is assembled as it is spliced. -/
theorem trees_of_isItem (proper : node.isItem) (elseless : node.isElseless) :
    trees node.outlines = node.spliced.members := by
  cases node with
  | declarations declared => simp [outlines, Caption.assemble, spliced, members]
  | procedure heading locals body =>
      simp only [isItem, Bool.and_eq_true] at proper
      obtain ⟨⟨-, block⟩, command⟩ := proper
      have parts : trees (heading.toOutline ::
          ((locals.map fun declared => .node (.declaration declared) []) ++ body.outlines)) =
            .header heading :: (locals.map .declaration ++ body.spliced.members) := by
        rw [← List.singleton_append, trees_append, tree_header, trees_append, trees_leaves,
          trees_of_isStatement command elseless]
        rfl
      have statements := declared?_of_mem_members command
      have declared : (locals.map declaration ++ body.spliced.members).filterMap declared? =
          locals := by
        rw [List.filterMap_append, List.filterMap_eq_nil_iff.mpr statements, List.filterMap_map,
          List.append_nil]
        exact List.filterMap_some
      have others : (locals.map declaration ++ body.spliced.members).filter
          (fun part => part.declared?.isNone) = body.spliced.members := by
        rw [List.filter_append, List.filter_eq_nil_iff.mpr (by simp [declared?]),
          List.filter_eq_self.mpr fun part member => by rw [statements part member]; rfl,
          List.nil_append]
      rw [outlines, trees_cons, parts, Caption.assemble, declared, others, block_members block]
      rfl
  | _ => cases proper

/-- **A program is assembled as it is spliced.** -/
theorem spliced_eq_program_trees (proper : node.isWellFormed) (elseless : node.isElseless) :
    node.spliced = .program (trees node.outlines) := by
  cases node with
  | program items =>
      rw [isElseless, isElselessAll_iff] at elseless
      rw [spliced, outlines, trees_outlinesAll, splicedAll_eq_flatMap]
      congr 1
      exact (List.flatMap_congr fun item member => trees_of_isItem
        (List.all_eq_true.mp proper item member) (elseless item member)).symm
  | _ => cases proper

end Node

/-! ## Outlines of source texts -/

/-- **An outline hides no more than where its lists start.** Trees that were read from source
texts and have no alternatives have the same outline exactly if they are spliced alike. -/
theorem outlineText_eq_iff_spliced {source source' : String} {tree tree' : Node}
    {events events' : List Event} (parsed : parse source = (.ok tree, events))
    (parsed' : parse source' = (.ok tree', events')) (elseless : tree.isElseless)
    (elseless' : tree'.isElseless) :
    tree.outlineText = tree'.outlineText ↔ tree.spliced = tree'.spliced := by
  have wellFormed := isWellFormed_of_parse parsed
  have wellFormed' := isWellFormed_of_parse parsed'
  rw [Node.outlineText_eq_iff_outlines (Node.isProperAll_of_isWellFormed wellFormed)
    (Node.isProperAll_of_isWellFormed wellFormed')]
  constructor
  · intro same
    rw [Node.spliced_eq_program_trees wellFormed elseless, same,
      ← Node.spliced_eq_program_trees wellFormed' elseless']
  · intro same
    rw [← Node.outlines_spliced tree, same, Node.outlines_spliced]

-- With alternatives the same lines may belong to either branch.
example : (Node.branch (.reference "a") (.block [.call "f" []]) (some (.block []))).outlineText =
    (Node.branch (.reference "a") (.block []) (some (.block [.call "f" []]))).outlineText := rfl

/-- A program with declarations in one list and a block inside a choice. -/
def listedText : String :=
  "var a, b proc f() begin if a then begin b := 1 end end end"

/-- The tree of the program. -/
def listedTree : Node :=
  .program [.declarations [⟨"a", 1⟩, ⟨"b", 1⟩],
    .procedure ⟨"f", []⟩ [] (.block [.branch (.reference "a")
      (.block [.block [.assign (.reference "b") (.constant 1)]]) none])]

/-- The same program with declarations and statements on their own. -/
def singledText : String :=
  "var a; var b; proc f() begin if a then b := 1 end end"

/-- The tree of the program. -/
def singledTree : Node :=
  .program [.declarations [⟨"a", 1⟩], .declarations [⟨"b", 1⟩],
    .procedure ⟨"f", []⟩ [] (.block [.branch (.reference "a")
      (.block [.assign (.reference "b") (.constant 1)]) none])]

/-- Two different trees with the same outline, which are spliced alike. -/
theorem outlineText_eq_iff_spliced_listed :
    (parse listedText).1 = .ok listedTree ∧ (parse singledText).1 = .ok singledTree ∧
      listedTree.isElseless ∧ singledTree.isElseless ∧ listedTree ≠ singledTree ∧
      listedTree.outlineText = singledTree.outlineText ∧
      listedTree.spliced = singledTree.spliced := by
  have outcome : (parse listedText).1 = .ok listedTree := by with_unfolding_all rfl
  have outcome' : (parse singledText).1 = .ok singledTree := by with_unfolding_all rfl
  have parsed : parse listedText = (.ok listedTree, (parse listedText).2) := Prod.ext outcome rfl
  have parsed' : parse singledText = (.ok singledTree, (parse singledText).2) :=
    Prod.ext outcome' rfl
  have alike : listedTree.spliced = singledTree.spliced := rfl
  have different : listedTree ≠ singledTree := by simp [listedTree, singledTree]
  exact ⟨outcome, outcome', rfl, rfl, different,
    (outlineText_eq_iff_spliced parsed parsed' rfl rfl).mpr alike, alike⟩

end ProcLang
