import ProcLang.Proofs.Grammar.Completeness
import ProcLang.Proofs.Grammar.WellFormed
import ProcLang.Proofs.Syntax.Induction

/-!
# Reading undoes writing

A well-formed tree can be written as a source text. A semicolon stands after every
statement, and parentheses stand only where an operand would bind too loosely
without them: on the left of an operator if it is looser, on the right if it is
looser or equal, and behind a unary operator if it is a binary operation.

What is written spells the tree (`Node.isProgram_render`), so it is read back as
this tree (`parse_written`).
-/

set_option autoImplicit false

namespace ProcLang

open Grammar

/-! ## Writing -/

/-- How a declaration is written: a size that is one is left out. -/
def Declaration.render (declared : Declaration) : List TokenKind :=
  if declared.size = 1 then [.identifier declared.name]
  else [.identifier declared.name, .symbol .leftBracket, .integer (Int32.ofNat declared.words),
    .symbol .rightBracket]

/-- How declarations are written. -/
def renderDeclarations (declared : List Declaration) : List TokenKind :=
  .keyword .kwVar :: (divided (declared.map Declaration.render) ++ [.symbol .semicolon])

/-- Statements in order, with a semicolon after each. -/
def sequence (parts : List (List TokenKind)) : List TokenKind :=
  parts.flatMap fun part => part ++ [.symbol .semicolon]

namespace Node

/-- How loosely the operation at the top of an expression binds. -/
def looseness : Node → Nat
  | .binary op _ _ => op.looseness
  | _ => 0

/-- What binds more loosely than a level is put in parentheses. -/
def enclose (level : Nat) (node : Node) (kinds : List TokenKind) : List TokenKind :=
  if node.looseness ≤ level then kinds
  else .symbol .leftParen :: (kinds ++ [.symbol .rightParen])

mutual
/-- The kinds of the tokens that a tree is written with. -/
def render : Node → List TokenKind
  | .constant value => [.integer value]
  | .reference name => [.identifier name]
  | .unary op operand => op.kind :: operand.enclose 0 operand.render
  | .binary op left right =>
      left.enclose op.looseness left.render ++
        op.kind :: right.enclose (op.looseness - 1) right.render
  | .call name arguments => callKinds name (renderAll arguments)
  | .assign target value => target.render ++ .symbol .assign :: value.render
  | .block statements =>
      .keyword .kwBegin :: (sequence (renderAll statements) ++ [.keyword .kwEnd])
  | .branch condition (.block taken) none =>
      .keyword .kwIf :: (condition.render ++ .keyword .kwThen ::
        (sequence (renderAll taken) ++ [.keyword .kwEnd]))
  | .branch condition (.block taken) (some (.block skipped)) =>
      .keyword .kwIf :: (condition.render ++ .keyword .kwThen ::
        (sequence (renderAll taken) ++ .keyword .kwElse ::
          (sequence (renderAll skipped) ++ [.keyword .kwEnd])))
  | .loop condition (.block body) =>
      .keyword .kwWhile :: (condition.render ++ .keyword .kwDo ::
        (sequence (renderAll body) ++ [.keyword .kwEnd]))
  | .declarations declared => renderDeclarations declared
  | .procedure heading locals (.block body) =>
      headerKinds heading ++ ((if locals.isEmpty then [] else renderDeclarations locals) ++
        .keyword .kwBegin :: (sequence (renderAll body) ++ [.keyword .kwEnd]))
  | .program items => (renderAll items).flatten
  | _ => []

/-- The kinds of the tokens of every tree. -/
def renderAll : List Node → List (List TokenKind)
  | [] => []
  | node :: rest => node.render :: renderAll rest
end

/-- A tree as a source text: its tokens, with a space after each. -/
def written (node : Node) : String :=
  String.ofList (node.render.flatMap fun kind => kind.text.toList ++ [' '])

theorem renderAll_eq_map (nodes : List Node) : renderAll nodes = nodes.map render := by
  induction nodes with
  | nil => rfl
  | cons node rest ih => rw [renderAll, ih, List.map_cons]

/-! ## Written expressions -/

/-- A tree with the kinds that it is written with. -/
def phrase (node : Node) : Phrase Node :=
  ⟨node.render, node⟩

theorem map_tree_phrase (nodes : List Node) : (nodes.map phrase).map Phrase.tree = nodes := by
  rw [List.map_map]
  exact List.map_id nodes

theorem map_kinds_phrase (nodes : List Node) :
    (nodes.map phrase).map Phrase.kinds = renderAll nodes := by
  rw [List.map_map, renderAll_eq_map]
  rfl

theorem looseness_le_loosest (node : Node) : node.looseness ≤ BinaryOperator.loosest := by
  cases node with
  | binary op left right => exact op.looseness_le_loosest
  | _ => exact Nat.zero_le _

end Node

/-- What is spelled at a level is spelled at all looser ones. -/
theorem Grammar.IsExpression.mono {level level' : Nat} {kinds : List TokenKind} {tree : Node}
    (spelled : IsExpression level kinds tree) (le : level ≤ level') :
    IsExpression level' kinds tree := by
  induction le with
  | refl => exact spelled
  | step _ ih => exact ih.looser

namespace Node

theorem isExpression_enclose {node : Node} (spelled : IsExpression node.looseness node.render node)
    (level : Nat) : IsExpression level (node.enclose level node.render) node := by
  unfold enclose
  split
  next tight => exact spelled.mono tight
  next =>
    exact (IsExpression.enclosed (spelled.mono node.looseness_le_loosest)).mono (Nat.zero_le _)

theorem isExpression_render {node : Node} (proper : node.isExpression) :
    IsExpression node.looseness node.render node := by
  induction node with
  | constant value => exact .constant value
  | reference name => exact .reference name
  | unary op operand ih => exact .unary op (isExpression_enclose (ih proper) 0)
  | binary op left right ihLeft ihRight =>
      rw [isExpression, Bool.and_eq_true] at proper
      obtain ⟨level, ofLevel⟩ := Nat.exists_eq_add_one_of_ne_zero (Nat.ne_of_gt op.looseness_pos)
      have first := isExpression_enclose (ihLeft proper.1) op.looseness
      have second := isExpression_enclose (ihRight proper.2) (op.looseness - 1)
      rw [looseness, render]
      rw [ofLevel] at first second ⊢
      exact .binary op ofLevel first second
  | call name arguments ih =>
      simp only [isExpression, Bool.and_eq_true, isExpressionAll_iff] at proper
      obtain ⟨⟨-, callable⟩, all⟩ := proper
      have spelled := IsExpression.call name (arguments.map phrase)
        (List.forall_mem_map.mpr fun argument member =>
          (ih argument member (all argument member)).mono argument.looseness_le_loosest)
        (by rw [map_tree_phrase]; exact isCallable_iff.mp callable)
      rwa [map_tree_phrase, map_kinds_phrase] at spelled
  | _ => cases proper

theorem isExpression_loosest {node : Node} (proper : node.isExpression) :
    IsExpression BinaryOperator.loosest node.render node :=
  (isExpression_render proper).mono node.looseness_le_loosest

/-! ## Written statements -/

/-- A statement as it is written, with a semicolon. -/
def clause (node : Node) : Clause :=
  ⟨node.render, node, true⟩

theorem map_tree_clause (nodes : List Node) : (nodes.map clause).map Clause.tree = nodes := by
  rw [List.map_map]
  exact List.map_id nodes

theorem flatMap_spelling_clause (nodes : List Node) :
    (nodes.map clause).flatMap Clause.spelling = sequence (renderAll nodes) := by
  rw [List.flatMap_map, renderAll_eq_map, sequence, List.flatMap_map]
  rfl

/-- Statements with semicolons do not run into each other. -/
theorem isChain_clause (nodes : List Node) : (nodes.map clause).IsChain Clause.Apart := by
  have apart : ∀ first second : Node, Clause.Apart first.clause second.clause := by
    intro first second isOpen
    simp [Clause.isOpen, clause] at isOpen
  exact (List.pairwise_map.mpr (List.pairwise_of_forall apart)).isChain

/-- The statements of a block. -/
def statements : Node → List Node
  | .block statements => statements
  | _ => []

theorem looseness_of_isAssignable {node : Node} (assignable : node.isAssignable) :
    node.looseness = 0 := by
  cases node with
  | binary op left right => cases assignable
  | _ => rfl

/-- **A written statement spells the statement.** What is known of the statements of
a block is kept, because they stand in choices and loops without its own words. -/
theorem isStatement_render {node : Node} (proper : node.isStatement) :
    IsStatement Clause.Apart node.render node ∧
      ∀ statement ∈ node.statements, IsStatement Clause.Apart statement.render statement := by
  induction node with
  | assign target value _ _ =>
      simp only [isStatement, Bool.and_eq_true] at proper
      obtain ⟨⟨assignable, place⟩, term⟩ := proper
      have place := isExpression_render place
      rw [looseness_of_isAssignable assignable] at place
      exact ⟨.assign place assignable (isExpression_loosest term), List.forall_mem_nil _⟩
  | call name arguments _ =>
      refine ⟨?_, List.forall_mem_nil _⟩
      simp only [isStatement, isExpression, Bool.and_eq_true, isExpressionAll_iff] at proper
      obtain ⟨⟨-, callable⟩, all⟩ := proper
      have spelled := @IsStatement.call Clause.Apart name (arguments.map phrase)
        (List.forall_mem_map.mpr fun argument member => isExpression_loosest (all argument member))
        (by rw [map_tree_phrase]; exact isCallable_iff.mp callable)
      rwa [map_tree_phrase, map_kinds_phrase] at spelled
  | block statements ih =>
      rw [isStatement, isStatementAll_iff] at proper
      have parts : ∀ statement ∈ statements,
          IsStatement Clause.Apart statement.render statement :=
        fun statement member => (ih statement member (proper statement member)).1
      have spelled := IsStatement.block (statements.map clause) (isChain_clause statements)
        (List.forall_mem_map.mpr parts)
      rw [map_tree_clause, flatMap_spelling_clause] at spelled
      exact ⟨spelled, parts⟩
  | branch condition consequent _ ih =>
      simp only [isStatement, Bool.and_eq_true] at proper
      obtain ⟨⟨test, block⟩, command⟩ := proper
      obtain ⟨taken, rfl⟩ := exists_of_isBlock block
      have spelled := IsStatement.branch (isExpression_loosest test) (taken.map clause)
        (isChain_clause taken)
        (List.forall_mem_map.mpr (ih command).2)
      rw [map_tree_clause, flatMap_spelling_clause] at spelled
      exact ⟨spelled, List.forall_mem_nil _⟩
  | branchElse condition consequent alternative _ ih ih' =>
      simp only [isStatement, Bool.and_eq_true] at proper
      obtain ⟨⟨test, block, command⟩, block', command'⟩ := proper
      obtain ⟨taken, rfl⟩ := exists_of_isBlock block
      obtain ⟨skipped, rfl⟩ := exists_of_isBlock block'
      have spelled := IsStatement.branchElse (isExpression_loosest test) (taken.map clause)
        (skipped.map clause)
        (isChain_clause taken) (isChain_clause skipped) (List.forall_mem_map.mpr (ih command).2)
        (List.forall_mem_map.mpr (ih' command').2)
      simp only [map_tree_clause, flatMap_spelling_clause] at spelled
      exact ⟨spelled, List.forall_mem_nil _⟩
  | loop condition body _ ih =>
      simp only [isStatement, Bool.and_eq_true] at proper
      obtain ⟨⟨test, block⟩, command⟩ := proper
      obtain ⟨body, rfl⟩ := exists_of_isBlock block
      have spelled := IsStatement.loop (isExpression_loosest test) (body.map clause)
        (isChain_clause body)
        (List.forall_mem_map.mpr (ih command).2)
      rw [map_tree_clause, flatMap_spelling_clause] at spelled
      exact ⟨spelled, List.forall_mem_nil _⟩
  | _ => cases proper

end Node

/-! ## Written items -/

theorem Declaration.isDeclaration_render {declared : Declaration} (proper : declared.isProper) :
    IsDeclaration declared.render declared := by
  obtain ⟨name, size⟩ := declared
  simp only [isProper, words, Bool.and_eq_true] at proper
  have low := of_decide_eq_true proper.1.2
  have high := of_decide_eq_true proper.2
  unfold render
  split
  next single =>
    obtain rfl : size = 1 := single
    exact .word name
  next =>
    have same : (Int32.ofNat size.toNat).toUInt32 = size := UInt32.ofNat_toNat
    have positive : 1 ≤ Int32.ofNat size.toNat := by
      unfold maxInteger at high
      rw [Int32.le_iff_toInt_le, Int32.toInt_ofNat_of_lt (by omega)]
      exact Int.ofNat_le.mpr low
    have spelled := IsDeclaration.array name positive
    rwa [same] at spelled

theorem isDeclarations_render {declared : List Declaration} (nonempty : declared ≠ [])
    (proper : declared.all Declaration.isProper) :
    IsDeclarations (renderDeclarations declared) declared := by
  rw [List.all_eq_true] at proper
  have spelled := IsDeclarations.announced
    (declared.map fun entry => Phrase.mk entry.render entry) (by simpa using nonempty)
    (List.forall_mem_map.mpr fun entry member =>
      Declaration.isDeclaration_render (proper entry member)) true
  simp only [List.map_map, Function.comp_def, List.map_id'] at spelled
  exact spelled

namespace Node

theorem isItem_render {node : Node} (proper : node.isItem) :
    IsItem Clause.Apart node.render node := by
  cases node with
  | declarations declared =>
      simp only [isItem, Bool.and_eq_true] at proper
      exact .declarations (isDeclarations_render (by simpa using proper.1) proper.2)
  | procedure heading locals body =>
      simp only [isItem, Bool.and_eq_true] at proper
      obtain ⟨⟨⟨⟨-, declared⟩, reach⟩, block⟩, command⟩ := proper
      obtain ⟨body, rfl⟩ := exists_of_isBlock block
      have present :
          IsLocals (if locals.isEmpty then [] else renderDeclarations locals) locals := by
        cases locals with
        | nil => exact .missing
        | cons first rest =>
            exact .present (isDeclarations_render (List.cons_ne_nil first rest) declared)
      have spelled := IsItem.procedure heading present (body.map clause) (isChain_clause body)
        (List.forall_mem_map.mpr (isStatement_render command).2) false reach
      rwa [map_tree_clause, flatMap_spelling_clause] at spelled
  | _ => cases proper

/-- **A written tree spells the tree.** -/
theorem isProgram_render {node : Node} (proper : node.isWellFormed) :
    IsProgram Clause.Apart node.render node := by
  cases node with
  | program items =>
      rw [isWellFormed, List.all_eq_true] at proper
      have spelled := IsProgram.ofItems (items.map phrase)
        (List.forall_mem_map.mpr fun item member => isItem_render (proper item member))
      rwa [map_tree_phrase, List.flatMap_def, map_kinds_phrase] at spelled
  | _ => cases proper

end Node

/-! ## Round trip -/

/-- Written tokens with a space after each are kept apart. -/
theorem spaced_written {kinds : List TokenKind} (writable : Writable kinds) :
    Spaced kinds (kinds.flatMap fun kind => kind.text.toList ++ [' ']) := by
  induction kinds with
  | nil => exact .nil
  | cons kind kinds ih =>
      rw [writable_cons] at writable
      rw [List.flatMap_cons, List.append_assoc]
      refine .cons writable.1 (isTrivia_nil.cons (by decide)) ?_ (ih writable.2)
      rintro c ⟨⟩
      decide

/-- **Reading undoes writing.** Every well-formed tree is read back from the text that
it is written as. -/
theorem parse_written {tree : Node} (wellFormed : tree.isWellFormed) :
    (parse tree.written).1 = .ok tree := by
  have spelled := tree.isProgram_render wellFormed
  have writable := spelled.isWellFormed_iff.mp wellFormed
  obtain ⟨used, span, scanned, kinds⟩ := tokensOf_spaced (spaced_written writable)
  exact parse_of_isProgram scanned (by rw [kinds]; exact spelled)

/-- A tree with operators of several classes on both sides of each other, unary
operators, an element of an array, and a choice in a loop. -/
def mixedTree : Node :=
  .program [.declarations [⟨"a", 10⟩],
    .procedure ⟨"main", ["n"]⟩ [⟨"i", 1⟩] (.block [
      .call "read" [.element "a" (.constant 1)],
      .assign (.reference "i") (.binary .sub (.reference "n")
        (.binary .sub (.constant 4) (.binary .mul (.binary .add (.reference "i") (.constant 2))
          (.unary .minus (.unary .not (.binary .less (.reference "i") (.constant 3))))))),
      .loop (.binary .and (.binary .equal (.reference "i") (.constant 0))
          (.binary .or (.reference "n") (.call "f" [.reference "i", .reference "n"])))
        (.block [.branch (.reference "i") (.block [])
          (some (.block [.call "write" [.reference "i"]]))])])]

/-- The text of the tree. -/
def mixedText : String :=
  "var a [ 10 ] ; proc main ( n ) var i ; begin read ( * ( a + 1 ) ) ; " ++
    "i := n - ( 4 - ( i + 2 ) * - not ( i < 3 ) ) ; " ++
    "while i == 0 and ( n or f ( i , n ) ) do if i then else write ( i ) ; end ; end ; end "

set_option maxRecDepth 4000 in
/-- Parentheses stand around five operands, and the tree is read back. -/
theorem parse_written_mixed :
    mixedTree.isWellFormed ∧ mixedTree.written = mixedText ∧
      (parse mixedText).1 = .ok mixedTree := by
  have wellFormed : mixedTree.isWellFormed := by decide +kernel
  have text : mixedTree.written = mixedText := by with_unfolding_all rfl
  exact ⟨wellFormed, text, by rw [← text]; exact parse_written wellFormed⟩

end ProcLang
