import ProcLang.Proofs.Grammar.Derivation
import ProcLang.Proofs.Token.Spacing

/-!
# Well-formed trees

A tree can put any node anywhere. A well-formed one could stand in a source text:
its root is a list of declarations and procedures, statements and expressions stand
where they belong, every name can be written, and the side conditions of the grammar
hold (`Node.isWellFormed`).

The grammar takes care of all this but for the spelling of names and numbers: a tree
that is spelled by tokens is well-formed exactly if the tokens can be written
(`Grammar.IsProgram.isWellFormed_iff`).
-/

set_option autoImplicit false

namespace ProcLang

/-- A declaration that can be written: its size is a positive integer. -/
def Declaration.isProper (declared : Declaration) : Bool :=
  isName declared.name && 1 ≤ declared.words && declared.words ≤ maxInteger

namespace Node

/-- The side conditions of a call. -/
def isCallable (name : String) (arguments : List Node) : Bool :=
  match Intrinsic.ofName? name with
  | none => true
  | some .write => arguments.length = 1
  | some .read => arguments.length = 1 && arguments.all isAssignable

mutual
/-- An expression of constants that are not negative, names, operations and calls. -/
def isExpression : Node → Bool
  | .constant value => 0 ≤ value
  | .reference name => isName name
  | .unary _ operand => operand.isExpression
  | .binary _ left right => left.isExpression && right.isExpression
  | .call name arguments =>
      isName name && isCallable name arguments && isExpressionAll arguments
  | _ => false

/-- Expressions only. -/
def isExpressionAll : List Node → Bool
  | [] => true
  | node :: rest => node.isExpression && isExpressionAll rest
end

/-- Statements in a block of their own. -/
def isBlock : Node → Bool
  | .block _ => true
  | _ => false

mutual
/-- A statement whose parts are blocks. -/
def isStatement : Node → Bool
  | .assign target value => target.isAssignable && target.isExpression && value.isExpression
  | .call name arguments => (Node.call name arguments).isExpression
  | .block statements => isStatementAll statements
  | .branch condition consequent none =>
      condition.isExpression && consequent.isBlock && consequent.isStatement
  | .branch condition consequent (some alternative) =>
      condition.isExpression && (consequent.isBlock && consequent.isStatement) &&
        (alternative.isBlock && alternative.isStatement)
  | .loop condition body => condition.isExpression && body.isBlock && body.isStatement
  | _ => false

/-- Statements only. -/
def isStatementAll : List Node → Bool
  | [] => true
  | node :: rest => node.isStatement && isStatementAll rest
end

/-- One or more declarations, or a procedure whose frame is in reach. -/
def isItem : Node → Bool
  | .declarations declared => !declared.isEmpty && declared.all Declaration.isProper
  | .procedure heading locals body =>
      isName heading.name && heading.parameters.all isName && locals.all Declaration.isProper &&
        (Scope.mk locals heading.parameters).frameExtent?.isSome && body.isBlock && body.isStatement
  | _ => false

/-- A tree that could stand in a source text. -/
def isWellFormed : Node → Bool
  | .program items => items.all isItem
  | _ => false

/-! ## Parts of well-formed trees -/

theorem isCallable_iff {name : String} {arguments : List Node} :
    isCallable name arguments ↔ Callable name arguments := by
  unfold isCallable Callable
  cases Intrinsic.ofName? name with
  | none => simp
  | some intrinsic =>
      cases intrinsic with
      | write => simp [List.length_eq_one_iff]
      | read =>
          simp only [Bool.and_eq_true, decide_eq_true_eq, List.length_eq_one_iff]
          constructor
          · rintro ⟨⟨target, rfl⟩, assignable⟩
            exact ⟨target, rfl, by simpa using assignable⟩
          · rintro ⟨target, rfl, assignable⟩
            exact ⟨⟨target, rfl⟩, by simpa using assignable⟩

theorem isExpressionAll_iff {nodes : List Node} :
    isExpressionAll nodes ↔ ∀ node ∈ nodes, node.isExpression := by
  induction nodes with
  | nil => simp [isExpressionAll]
  | cons node rest ih => simp [isExpressionAll, ih]

theorem isStatementAll_iff {nodes : List Node} :
    isStatementAll nodes ↔ ∀ node ∈ nodes, node.isStatement := by
  induction nodes with
  | nil => simp [isStatementAll]
  | cons node rest ih => simp [isStatementAll, ih]

theorem exists_of_isBlock {node : Node} (block : node.isBlock) :
    ∃ statements, node = .block statements := by
  cases node with
  | block statements => exact ⟨statements, rfl⟩
  | _ => cases block

end Node

/-! ## Spelled trees -/

namespace Grammar

/-- All tokens can be written. -/
def Writable (kinds : List TokenKind) : Prop :=
  ∀ kind ∈ kinds, kind.isWritable

section Writable

variable {kinds kinds' : List TokenKind} {kind : TokenKind}

@[simp] theorem writable_nil : Writable [] :=
  nofun

@[simp] theorem writable_cons : Writable (kind :: kinds) ↔ kind.isWritable ∧ Writable kinds :=
  List.forall_mem_cons

@[simp] theorem writable_append : Writable (kinds ++ kinds') ↔ Writable kinds ∧ Writable kinds' :=
  List.forall_mem_append

@[simp] theorem writable_flatMap {α : Type} {parts : List α} {spelling : α → List TokenKind} :
    Writable (parts.flatMap spelling) ↔ ∀ part ∈ parts, Writable (spelling part) := by
  unfold Writable
  rw [List.forall_mem_flatMap]

@[simp] theorem writable_closing (closed : Bool) : Writable (closing closed) := by
  cases closed <;> simp [closing, TokenKind.isWritable]

@[simp] theorem writable_divided {parts : List (List TokenKind)} :
    Writable (divided parts) ↔ ∀ part ∈ parts, Writable part := by
  induction parts with
  | nil => simp [divided]
  | cons part parts ih =>
      cases parts with
      | nil => simp [divided]
      | cons second others =>
          rw [divided, List.intercalate_cons_cons, ← divided, writable_append, ih]
          simp [TokenKind.isWritable]

@[simp] theorem writable_kind (op : BinaryOperator) : op.kind.isWritable := by
  cases op <;> rfl

@[simp] theorem writable_unary_kind (op : UnaryOperator) : op.kind.isWritable := by
  cases op <;> rfl

end Writable

section Spelled

variable {kinds : List TokenKind} {tree : Node} {level : Nat} {beside : Clause → Clause → Prop}

theorem IsExpression.isExpression_iff (spelled : IsExpression level kinds tree) :
    tree.isExpression ↔ Writable kinds := by
  induction spelled with
  | constant value => simp [Node.isExpression, TokenKind.isWritable]
  | reference name => simp [Node.isExpression, TokenKind.isWritable]
  | element name _ ih => simp [Node.element, Node.isExpression, TokenKind.isWritable, ih]
  | call name arguments _ callable ih =>
      have inner : Node.isExpressionAll (arguments.map Phrase.tree) ↔
          ∀ part ∈ arguments.map Phrase.kinds, Writable part := by
        rw [Node.isExpressionAll_iff, List.forall_mem_map, List.forall_mem_map]
        exact forall₂_congr ih
      simp [Node.isExpression, inner, Node.isCallable_iff.mpr callable, callKinds,
        TokenKind.isWritable]
  | enclosed _ ih => simp [TokenKind.isWritable, ih]
  | unary op _ ih => simp [Node.isExpression, ih]
  | looser _ ih => exact ih
  | binary op _ _ _ ih ih' => simp [Node.isExpression, ih, ih']

theorem isStatementAll_iff_writable {body : List Clause}
    (all : ∀ clause ∈ body, clause.tree.isStatement ↔ Writable clause.kinds) :
    Node.isStatementAll (body.map Clause.tree) ↔ Writable (body.flatMap Clause.spelling) := by
  rw [Node.isStatementAll_iff, List.forall_mem_map, writable_flatMap]
  refine forall₂_congr fun clause member => (all clause member).trans ?_
  simp [Clause.spelling]

theorem IsStatement.isStatement_iff (spelled : IsStatement beside kinds tree) :
    tree.isStatement ↔ Writable kinds := by
  induction spelled with
  | assign place assignable term =>
      simp [Node.isStatement, assignable, place.isExpression_iff, term.isExpression_iff,
        TokenKind.isWritable]
  | call name arguments all callable =>
      exact (IsExpression.call name arguments all callable).isExpression_iff
  | block body _ _ ih =>
      simp [Node.isStatement, isStatementAll_iff_writable ih, TokenKind.isWritable]
  | branch test taken _ _ ih =>
      simp [Node.isStatement, Node.isBlock, isStatementAll_iff_writable ih, TokenKind.isWritable,
        test.isExpression_iff]
  | branchElse test taken skipped _ _ _ _ ih ih' =>
      simp [Node.isStatement, Node.isBlock, isStatementAll_iff_writable ih,
        isStatementAll_iff_writable ih', TokenKind.isWritable, test.isExpression_iff, and_assoc]
  | loop test body _ _ ih =>
      simp [Node.isStatement, Node.isBlock, isStatementAll_iff_writable ih, TokenKind.isWritable,
        test.isExpression_iff]

theorem IsDeclaration.isProper_iff {declared : Declaration}
    (spelled : IsDeclaration kinds declared) : declared.isProper ↔ Writable kinds := by
  cases spelled with
  | word name => simp [Declaration.isProper, Declaration.words, maxInteger, TokenKind.isWritable]
  | @array name size positive =>
      have nonneg : 0 ≤ size := Int32.le_trans (by decide) positive
      obtain ⟨n, high, rfl, -⟩ := exists_of_nonneg nonneg
      have small : n % 4294967296 = n := by
        unfold maxInteger at high
        omega
      have low : 1 ≤ n := by
        cases n with
        | zero => exact absurd positive (by decide)
        | succ n => exact Nat.le_add_left 1 n
      simp [Declaration.isProper, Declaration.words, small, low, high, TokenKind.isWritable, nonneg]

theorem IsDeclarations.all_isProper_iff {declared : List Declaration}
    (spelled : IsDeclarations kinds declared) :
    declared ≠ [] ∧ (declared.all Declaration.isProper ↔ Writable kinds) := by
  cases spelled with
  | announced declared nonempty all closed =>
      refine ⟨by simpa using nonempty, ?_⟩
      have inner : (∀ entry ∈ declared.map Phrase.tree, entry.isProper) ↔
          ∀ part ∈ declared.map Phrase.kinds, Writable part := by
        rw [List.forall_mem_map, List.forall_mem_map]
        exact forall₂_congr fun entry member => (all entry member).isProper_iff
      rw [List.all_eq_true, inner]
      simp [TokenKind.isWritable]

theorem IsLocals.all_isProper_iff {declared : List Declaration}
    (spelled : IsLocals kinds declared) :
    declared.all Declaration.isProper ↔ Writable kinds := by
  cases spelled with
  | missing => simp
  | present spelled => exact spelled.all_isProper_iff.2

theorem IsItem.isItem_iff (spelled : IsItem beside kinds tree) :
    tree.isItem ↔ Writable kinds := by
  cases spelled with
  | declarations spelled =>
      obtain ⟨nonempty, iff⟩ := spelled.all_isProper_iff
      rw [Node.isItem, Bool.and_eq_true, iff]
      simp [nonempty]
  | procedure heading spelled body chain all closed reach =>
      have performed := isStatementAll_iff_writable fun clause member =>
        (all clause member).isStatement_iff
      rw [Node.isItem]
      simp [reach, Node.isBlock, Node.isStatement, performed, headerKinds, TokenKind.isWritable,
        spelled.all_isProper_iff, and_assoc]

/-- **A tree that is spelled by tokens is well-formed if they can be written.** -/
theorem IsProgram.isWellFormed_iff (spelled : IsProgram beside kinds tree) :
    tree.isWellFormed ↔ Writable kinds := by
  cases spelled with
  | ofItems items all =>
      rw [Node.isWellFormed, List.all_eq_true, List.forall_mem_map, writable_flatMap]
      exact forall₂_congr fun item member => (all item member).isItem_iff

end Spelled

end Grammar

end ProcLang
