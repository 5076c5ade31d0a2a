import ProcLang.Proofs.Grammar.Shape

/-!
# The grammar as a relation

What it means that the kinds of tokens spell a tree, production by production and
without any order in which tokens are looked at. Expressions have a level for each
class of binary operators, from single operands at level zero to the loosest
operators, and operators of a class associate to the left.

Repeated parts are lists of phrases: a phrase is a tree with the kinds that spell
it. A semicolon after a statement may be left out, so a list of statements is a
list of clauses, which say whether it stands there. Without it two statements may
run into each other, and the relation between neighbours that the productions take
as a parameter says which ones may stand side by side (`Clause.Separate`, and
`Clause.Apart`, which looks at the second statement only).
-/

set_option autoImplicit false

namespace ProcLang

/-- The token that a binary operator is written as. -/
def BinaryOperator.kind : BinaryOperator → TokenKind
  | .add => .symbol .plus
  | .sub => .symbol .minus
  | .mul => .symbol .star
  | .div => .symbol .slash
  | .mod => .symbol .percent
  | .equal => .symbol .equalEqual
  | .notEqual => .symbol .bangEqual
  | .greater => .symbol .greater
  | .less => .symbol .less
  | .and => .keyword .kwAnd
  | .or => .keyword .kwOr
  | .xor => .keyword .kwXor

theorem BinaryOperator.ofKind?_kind (op : BinaryOperator) : ofKind? op.kind = some op := by
  cases op <;> rfl

/-- The token that a unary operator is written as. -/
def UnaryOperator.kind : UnaryOperator → TokenKind
  | .plus => .symbol .plus
  | .minus => .symbol .minus
  | .not => .keyword .kwNot
  | .dereference => .symbol .star

theorem UnaryOperator.ofKind?_kind (op : UnaryOperator) : ofKind? op.kind = some op := by
  cases op <;> rfl

/-- Whether a statement ends with an expression: only assignments do. -/
def Node.endsOpen : Node → Bool
  | .assign _ _ => true
  | _ => false

namespace Grammar

/-- Something that was read, and the kinds of the tokens that spell it. -/
structure Phrase (α : Type) where
  kinds : List TokenKind
  tree : α

/-- Parts divided by commas. -/
def divided (parts : List (List TokenKind)) : List TokenKind :=
  [.symbol .comma].intercalate parts

/-- A semicolon that may be left out. -/
def closing : Bool → List TokenKind
  | true => [.symbol .semicolon]
  | false => []

/-! ## Expressions -/

/-- The kinds of a call, given those of its arguments. -/
def callKinds (name : String) (arguments : List (List TokenKind)) : List TokenKind :=
  .identifier name :: .symbol .leftParen :: (divided arguments ++ [.symbol .rightParen])

/-- The kinds spell an expression of a level. -/
inductive IsExpression : Nat → List TokenKind → Node → Prop
  | constant (value : Int32) : IsExpression 0 [.integer value] (.constant value)
  | reference (name : String) : IsExpression 0 [.identifier name] (.reference name)
  | element (name : String) {kinds : List TokenKind} {index : Node}
      (inner : IsExpression BinaryOperator.loosest kinds index) :
      IsExpression 0
        (.identifier name :: .symbol .leftBracket :: (kinds ++ [.symbol .rightBracket]))
        (.element name index)
  | call (name : String) (arguments : List (Phrase Node))
      (all : ∀ argument ∈ arguments,
        IsExpression BinaryOperator.loosest argument.kinds argument.tree)
      (callable : Node.Callable name (arguments.map Phrase.tree)) :
      IsExpression 0 (callKinds name (arguments.map Phrase.kinds))
        (.call name (arguments.map Phrase.tree))
  | enclosed {kinds : List TokenKind} {tree : Node}
      (inner : IsExpression BinaryOperator.loosest kinds tree) :
      IsExpression 0 (.symbol .leftParen :: (kinds ++ [.symbol .rightParen])) tree
  | unary (op : UnaryOperator) {kinds : List TokenKind} {operand : Node}
      (inner : IsExpression 0 kinds operand) : IsExpression 0 (op.kind :: kinds) (.unary op operand)
  | looser {level : Nat} {kinds : List TokenKind} {tree : Node}
      (inner : IsExpression level kinds tree) : IsExpression (level + 1) kinds tree
  | binary (op : BinaryOperator) {level : Nat} (ofLevel : op.looseness = level + 1)
      {kinds kinds' : List TokenKind} {left right : Node}
      (first : IsExpression (level + 1) kinds left) (second : IsExpression level kinds' right) :
      IsExpression (level + 1) (kinds ++ op.kind :: kinds') (.binary op left right)

/-- The last token is a name. -/
def EndsInName (kinds : List TokenKind) : Prop :=
  ∃ front name, kinds = front ++ [.identifier name]

/-- A token that goes on with an expression of a level: an operator of the level or a
tighter one, or what makes a call or an element of a name that stands last. -/
def Prolongs (level : Nat) (kinds : List TokenKind) (next : TokenKind) : Prop :=
  (∃ op, BinaryOperator.ofKind? next = some op ∧ op.looseness ≤ level) ∨
    (next = .symbol .leftParen ∨ next = .symbol .leftBracket) ∧ EndsInName kinds

/-! ## Statements -/

/-- A statement in a list of statements, with or without a semicolon after it. -/
structure Clause where
  kinds : List TokenKind
  tree : Node
  closed : Bool

namespace Clause

/-- All kinds of a clause, with those of the semicolon. -/
def spelling (clause : Clause) : List TokenKind :=
  clause.kinds ++ closing clause.closed

/-- Whether a clause ends with an expression, which more tokens could prolong. -/
def isOpen (clause : Clause) : Bool :=
  clause.tree.endsOpen && !clause.closed

/-- Neighbours that do not run into each other: what follows an open clause does not go
on with its expression. -/
def Separate (first second : Clause) : Prop :=
  first.isOpen → ∀ next ∈ second.kinds.head?, ¬ Prolongs BinaryOperator.loosest first.kinds next

/-- Neighbours that cannot run into each other: what follows an open clause does not
start like the rest of an expression. -/
def Apart (first second : Clause) : Prop :=
  first.isOpen → second.kinds.head? ≠ some (.symbol .star) ∧
    second.kinds.head? ≠ some (.symbol .leftParen)

end Clause

/-- The kinds spell a statement, without a semicolon after it, in which neighbouring
statements stand in a given relation. -/
inductive IsStatement (beside : Clause → Clause → Prop) : List TokenKind → Node → Prop
  | assign {kinds kinds' : List TokenKind} {target value : Node}
      (place : IsExpression 0 kinds target) (assignable : target.isAssignable)
      (term : IsExpression BinaryOperator.loosest kinds' value) :
      IsStatement beside (kinds ++ .symbol .assign :: kinds') (.assign target value)
  | call (name : String) (arguments : List (Phrase Node))
      (all : ∀ argument ∈ arguments,
        IsExpression BinaryOperator.loosest argument.kinds argument.tree)
      (callable : Node.Callable name (arguments.map Phrase.tree)) :
      IsStatement beside (callKinds name (arguments.map Phrase.kinds))
        (.call name (arguments.map Phrase.tree))
  | block (body : List Clause) (chain : body.IsChain beside)
      (all : ∀ clause ∈ body, IsStatement beside clause.kinds clause.tree) :
      IsStatement beside
        (.keyword .kwBegin :: (body.flatMap Clause.spelling ++ [.keyword .kwEnd]))
        (.block (body.map Clause.tree))
  | branch {kinds : List TokenKind} {condition : Node}
      (test : IsExpression BinaryOperator.loosest kinds condition) (taken : List Clause)
      (chain : taken.IsChain beside)
      (all : ∀ clause ∈ taken, IsStatement beside clause.kinds clause.tree) :
      IsStatement beside
        (.keyword .kwIf :: (kinds ++ .keyword .kwThen ::
          (taken.flatMap Clause.spelling ++ [.keyword .kwEnd])))
        (.branch condition (.block (taken.map Clause.tree)) none)
  | branchElse {kinds : List TokenKind} {condition : Node}
      (test : IsExpression BinaryOperator.loosest kinds condition) (taken skipped : List Clause)
      (chain : taken.IsChain beside) (chain' : skipped.IsChain beside)
      (all : ∀ clause ∈ taken, IsStatement beside clause.kinds clause.tree)
      (all' : ∀ clause ∈ skipped, IsStatement beside clause.kinds clause.tree) :
      IsStatement beside
        (.keyword .kwIf :: (kinds ++ .keyword .kwThen ::
          (taken.flatMap Clause.spelling ++ .keyword .kwElse ::
            (skipped.flatMap Clause.spelling ++ [.keyword .kwEnd]))))
        (.branch condition (.block (taken.map Clause.tree))
          (some (.block (skipped.map Clause.tree))))
  | loop {kinds : List TokenKind} {condition : Node}
      (test : IsExpression BinaryOperator.loosest kinds condition) (body : List Clause)
      (chain : body.IsChain beside)
      (all : ∀ clause ∈ body, IsStatement beside clause.kinds clause.tree) :
      IsStatement beside
        (.keyword .kwWhile :: (kinds ++ .keyword .kwDo ::
          (body.flatMap Clause.spelling ++ [.keyword .kwEnd])))
        (.loop condition (.block (body.map Clause.tree)))

/-! ## Items -/

/-- The kinds spell a declaration; a size that is left out is one. -/
inductive IsDeclaration : List TokenKind → Declaration → Prop
  | word (name : String) : IsDeclaration [.identifier name] ⟨name, 1⟩
  | array (name : String) {size : Int32} (positive : 1 ≤ size) :
      IsDeclaration
        [.identifier name, .symbol .leftBracket, .integer size, .symbol .rightBracket]
        ⟨name, size.toUInt32⟩

/-- The kinds spell one or more declarations, with the word that announces them. -/
inductive IsDeclarations : List TokenKind → List Declaration → Prop
  | announced (declared : List (Phrase Declaration)) (nonempty : declared ≠ [])
      (all : ∀ entry ∈ declared, IsDeclaration entry.kinds entry.tree) (closed : Bool) :
      IsDeclarations
        (.keyword .kwVar :: (divided (declared.map Phrase.kinds) ++ closing closed))
        (declared.map Phrase.tree)

/-- The kinds spell the local declarations of a procedure, which may be missing. -/
inductive IsLocals : List TokenKind → List Declaration → Prop
  | missing : IsLocals [] []
  | present {kinds : List TokenKind} {declared : List Declaration}
      (spelled : IsDeclarations kinds declared) : IsLocals kinds declared

/-- The kinds of the name and the parameters of a procedure. -/
def headerKinds (heading : Header) : List TokenKind :=
  .keyword .kwProc :: .identifier heading.name :: .symbol .leftParen ::
    (divided (heading.parameters.map fun name => [.identifier name]) ++ [.symbol .rightParen])

/-- The kinds spell an item of a program. -/
inductive IsItem (beside : Clause → Clause → Prop) : List TokenKind → Node → Prop
  | declarations {kinds : List TokenKind} {declared : List Declaration}
      (spelled : IsDeclarations kinds declared) : IsItem beside kinds (.declarations declared)
  | procedure (heading : Header) {kinds : List TokenKind} {locals : List Declaration}
      (spelled : IsLocals kinds locals) (body : List Clause) (chain : body.IsChain beside)
      (all : ∀ clause ∈ body, IsStatement beside clause.kinds clause.tree) (closed : Bool)
      (reach : (Scope.mk locals heading.parameters).frameExtent?.isSome) :
      IsItem beside
        (headerKinds heading ++ (kinds ++ .keyword .kwBegin ::
          (body.flatMap Clause.spelling ++ .keyword .kwEnd :: closing closed)))
        (.procedure heading locals (.block (body.map Clause.tree)))

/-- The kinds spell a program. -/
inductive IsProgram (beside : Clause → Clause → Prop) : List TokenKind → Node → Prop
  | ofItems (items : List (Phrase Node))
      (all : ∀ item ∈ items, IsItem beside item.kinds item.tree) :
      IsProgram beside (items.flatMap Phrase.kinds) (.program (items.map Phrase.tree))

end Grammar

end ProcLang
