import ProcLang.Proofs.Grammar.Rendering

/-!
# What is read is spelled

Whatever a rule of the grammar reads is spelled by the tokens that it takes, and the
end of the text is not among them (`Reading.Spelled`). Each rule has one lemma, which
follows the rule and ends in the production of the grammar that the rule reads.

A rule takes as much as it can, so a statement without a semicolon may run into the
next one. The lemmas about expressions therefore also say that what is left does not go
on with what was read (`IsWhole`), and a program that is read has neighbours that are
separate (`exists_isProgram_of_read`). Without any condition on neighbours (`Clause.Any`) more
is spelled than is read; what keeps them apart is sure to be read
(`TokenStream.program_accepts_derivations`).
-/

set_option autoImplicit false

namespace ProcLang

theorem BinaryOperator.kind_eq_of_ofKind? {kind : TokenKind} {op : BinaryOperator}
    (known : ofKind? kind = some op) : op.kind = kind := by
  unfold ofKind? at known
  split at known <;> cases known <;> rfl

theorem UnaryOperator.kind_eq_of_ofKind? {kind : TokenKind} {op : UnaryOperator}
    (known : ofKind? kind = some op) : op.kind = kind := by
  unfold ofKind? at known
  split at known <;> cases known <;> rfl

/-! ## Readings and what spells their values -/

namespace Reading

variable {α β : Type} {least more : Nat} {tokens : List Token}

/-- If two readings in a row succeed, the first one does, and the second one goes on
where it stopped. -/
theorem exists_of_bind {first : Reading least tokens α}
    {second : (value : α) → (rest : List Token) → rest.length + least ≤ tokens.length →
      Reading more rest β} {result : β} (success : (first.bind second).outcome = .ok result) :
    ∃ value fewer, first.outcome = .ok value ∧
      (second value first.rest fewer).outcome = .ok result ∧
      (first.bind second).rest = (second value first.rest fewer).rest := by
  cases done : first.outcome with
  | error fault =>
      rw [(bind_of_error done).1] at success
      cases success
  | ok value =>
      obtain ⟨outcome, left, -⟩ := @bind_of_ok _ _ _ _ _ _ second _ done
      exact ⟨value, first.taken value done, rfl, outcome.symm.trans success, left⟩

/-- Whatever is read is spelled by the tokens that are taken, and the end of the text is
not one of them. Their kinds, the tokens that are left and the value are as described. -/
def Splits (reading : Reading least tokens α) (post : List TokenKind → List Token → α → Prop) :
    Prop :=
  ∀ value, reading.outcome = .ok value → ∃ kinds,
    Grammar.Spells kinds tokens reading.rest ∧ .endOfFile ∉ kinds ∧ post kinds reading.rest value

/-- Whatever is read is spelled, as described, by the tokens that are taken, and the
end of the text is not one of them. -/
def Spelled (reading : Reading least tokens α) (post : List TokenKind → α → Prop) : Prop :=
  reading.Splits fun kinds _ => post kinds

section Splits

variable {post : List TokenKind → List Token → α → Prop}
  {post' : List TokenKind → List Token → β → Prop}

theorem splits_pure {value : α} (holds : post [] tokens value) :
    (pure value : Reading 0 tokens α).Splits post := by
  rintro _ ⟨⟩
  exact ⟨[], rfl, List.not_mem_nil, holds⟩

theorem splits_fail (fault : SyntaxFault) : (fail fault : Reading least tokens α).Splits post := by
  intro value failed
  cases failed

theorem splits_take {value : α} {token : Token} (ordinary : token.kind ≠ .endOfFile)
    (holds : post [token.kind] tokens value) :
    (take token value : Reading 1 (token :: tokens) α).Splits post := by
  rintro _ ⟨⟩
  exact ⟨[token.kind], ⟨token.span, tokens, rfl, rfl⟩, by simpa using ordinary.symm, holds⟩

theorem Splits.imp {post' : List TokenKind → List Token → α → Prop}
    {reading : Reading least tokens α} (splits : reading.Splits post)
    (holds : ∀ kinds rest value, Grammar.Spells kinds tokens rest → post kinds rest value →
      post' kinds rest value) : reading.Splits post' := by
  intro value done
  obtain ⟨kinds, spells, ordinary, described⟩ := splits value done
  exact ⟨kinds, spells, ordinary, holds kinds _ value spells described⟩

theorem Splits.map {reading : Reading least tokens α} {f : α → β} (splits : reading.Splits post)
    (holds : ∀ kinds rest value, Grammar.Spells kinds tokens rest → post kinds rest value →
      post' kinds rest (f value)) : (reading.map f).Splits post' := by
  intro result success
  simp only [Reading.map] at success
  split at success
  next value done =>
    cases success
    obtain ⟨kinds, spells, ordinary, described⟩ := splits value done
    exact ⟨kinds, spells, ordinary, holds kinds _ value spells described⟩
  next => cases success

theorem Splits.bind {first : Reading least tokens α}
    {second : (value : α) → (rest : List Token) → rest.length + least ≤ tokens.length →
      Reading more rest β} (splits : first.Splits post)
    (next : ∀ value rest fewer kinds, post kinds rest value →
      (second value rest fewer).Splits fun others => post' (kinds ++ others)) :
    (first.bind second).Splits post' := by
  intro result success
  obtain ⟨value, fewer, done, outcome, left⟩ := exists_of_bind success
  obtain ⟨kinds, spells, ordinary, described⟩ := splits value done
  obtain ⟨others, spells', ordinary', described'⟩ :=
    next value first.rest fewer kinds described result outcome
  rw [left]
  exact ⟨kinds ++ others, Grammar.spells_append.mpr ⟨_, spells, spells'⟩,
    by simp [ordinary, ordinary'], described'⟩

theorem Splits.after {reading : Reading least tokens α} {token : Token}
    (splits : reading.Splits fun kinds => post (token.kind :: kinds))
    (ordinary : token.kind ≠ .endOfFile) : (reading.after token).Splits post := by
  intro value done
  obtain ⟨kinds, spells, ordinary', described⟩ := splits value done
  exact ⟨token.kind :: kinds, ⟨token.span, tokens, rfl, spells⟩, by simp [ordinary.symm, ordinary'],
    described⟩

theorem Splits.weaken {reading : Reading least tokens α} {fewer : Nat}
    {le : Nat.ble fewer least = true} (splits : reading.Splits post) :
    (reading.weaken fewer le).Splits post :=
  splits

end Splits

variable {post : List TokenKind → α → Prop} {post' : List TokenKind → β → Prop}

theorem spelled_pure {value : α} (holds : post [] value) :
    (pure value : Reading 0 tokens α).Spelled post :=
  splits_pure holds

theorem spelled_fail (fault : SyntaxFault) : (fail fault : Reading least tokens α).Spelled post :=
  splits_fail fault

theorem spelled_failAfter (token : Token) (fault : SyntaxFault) :
    (failAfter token fault : Reading least (token :: tokens) α).Spelled post := by
  intro value failed
  cases failed

theorem spelled_take {value : α} {token : Token} (ordinary : token.kind ≠ .endOfFile)
    (holds : post [token.kind] value) :
    (take token value : Reading 1 (token :: tokens) α).Spelled post :=
  splits_take ordinary holds

theorem spelled_report {value : α} (event : Event) (holds : post [] value) :
    (report event value : Reading 0 tokens α).Spelled post := by
  rintro _ ⟨⟩
  exact ⟨[], rfl, List.not_mem_nil, holds⟩

theorem spelled_check {checked : Except SyntaxFault α}
    (holds : ∀ value, checked = .ok value → post [] value) :
    (check checked : Reading 0 tokens α).Spelled post := by
  cases checked with
  | ok value => exact spelled_pure (holds value rfl)
  | error fault => exact spelled_fail fault

theorem Spelled.imp {post' : List TokenKind → α → Prop} {reading : Reading least tokens α}
    (spelled : reading.Spelled post) (holds : ∀ kinds value, post kinds value → post' kinds value) :
    reading.Spelled post' :=
  Splits.imp spelled fun kinds _ value _ => holds kinds value

theorem Spelled.map {reading : Reading least tokens α} {f : α → β} (spelled : reading.Spelled post)
    (holds : ∀ kinds value, post kinds value → post' kinds (f value)) :
    (reading.map f).Spelled post' :=
  Splits.map spelled fun kinds _ value _ => holds kinds value

theorem Spelled.bind {first : Reading least tokens α}
    {second : (value : α) → (rest : List Token) → rest.length + least ≤ tokens.length →
      Reading more rest β} (spelled : first.Spelled post)
    (next : ∀ value rest fewer kinds, post kinds value →
      (second value rest fewer).Spelled fun others => post' (kinds ++ others)) :
    (first.bind second).Spelled post' :=
  Splits.bind spelled next

theorem Spelled.after {reading : Reading least tokens α} {token : Token}
    (spelled : reading.Spelled fun kinds => post (token.kind :: kinds))
    (ordinary : token.kind ≠ .endOfFile) : (reading.after token).Spelled post :=
  Splits.after spelled ordinary

theorem Spelled.weaken {reading : Reading least tokens α} {fewer : Nat}
    {le : Nat.ble fewer least = true} (spelled : reading.Spelled post) :
    (reading.weaken fewer le).Spelled post :=
  spelled

end Reading

namespace Grammar

open Reading

/-- Any two statements may stand side by side. -/
def Clause.Any (_ _ : Clause) : Prop :=
  True

/-! ## Single tokens -/

section Single

variable {finish : Location} {tokens : List Token}

theorem spelled_expectWith {α : Type} {expected : Expectation} {accept : TokenKind → Option α} :
    (expectWith finish expected accept tokens).Spelled fun kinds value =>
      ∃ kind, accept kind = some value ∧ kinds = [kind] := by
  cases tokens with
  | nil => exact spelled_fail _
  | cons token tokens =>
      rw [expectWith]
      split
      next => exact spelled_failAfter _ _
      next ordinary =>
        split
        next value accepted => exact spelled_take ordinary ⟨token.kind, accepted, rfl⟩
        next => exact spelled_failAfter _ _

theorem spelled_expect (kind : TokenKind) (construct : Construct) :
    (expect finish kind construct tokens).Spelled fun kinds _ => kinds = [kind] := by
  refine spelled_expectWith.imp ?_
  rintro _ _ ⟨found, accepted, rfl⟩
  simp only [Option.ite_none_right_eq_some] at accepted
  rw [accepted.1]

theorem spelled_expectIdentifier (construct : Construct) :
    (expectIdentifier finish construct tokens).Spelled fun kinds name =>
      kinds = [.identifier name] := by
  refine spelled_expectWith.imp ?_
  rintro _ _ ⟨found, accepted, rfl⟩
  split at accepted
  next => rw [Option.some.inj accepted]
  next => cases accepted

theorem spelled_expectInteger (construct : Construct) :
    (expectInteger finish construct tokens).Spelled fun kinds value =>
      kinds = [.integer value] := by
  refine spelled_expectWith.imp ?_
  rintro _ _ ⟨found, accepted, rfl⟩
  split at accepted
  next => rw [Option.some.inj accepted]
  next => cases accepted

theorem spelled_skip :
    (skip (.symbol .semicolon) tokens).Spelled fun kinds _ =>
      ∃ closed, kinds = closing closed := by
  cases tokens with
  | nil => exact spelled_pure ⟨false, rfl⟩
  | cons token tokens =>
      rw [skip]
      split
      next same => exact (spelled_take (by simp [same]) ⟨true, by rw [same]; rfl⟩).weaken
      next => exact spelled_pure ⟨false, rfl⟩

end Single

/-! ## Lists -/

/-- The kinds spell one or more things of a sort, divided by commas. -/
def Enumerates {α : Type} (each : List TokenKind → α → Prop) (kinds : List TokenKind)
    (trees : List α) : Prop :=
  ∃ phrases : List (Phrase α), phrases ≠ [] ∧
    (∀ phrase ∈ phrases, each phrase.kinds phrase.tree) ∧
    divided (phrases.map Phrase.kinds) = kinds ∧ phrases.map Phrase.tree = trees

section Enumerates

variable {α : Type} {each : List TokenKind → α → Prop} {kinds kinds' : List TokenKind} {tree : α}
  {trees : List α}

theorem enumerates_singleton (spelled : each kinds tree) : Enumerates each kinds [tree] :=
  ⟨[⟨kinds, tree⟩], List.cons_ne_nil _ _, List.forall_mem_singleton.mpr spelled,
    divided_singleton kinds, rfl⟩

theorem Enumerates.cons (spelled : each kinds tree) (later : Enumerates each kinds' trees) :
    Enumerates each (kinds ++ .symbol .comma :: kinds') (tree :: trees) := by
  obtain ⟨phrases, nonempty, all, rfl, rfl⟩ := later
  refine ⟨⟨kinds, tree⟩ :: phrases, List.cons_ne_nil _ _,
    List.forall_mem_cons.mpr ⟨spelled, all⟩, ?_, rfl⟩
  obtain ⟨second, others, rfl⟩ := List.exists_cons_of_ne_nil nonempty
  simp [divided, List.intercalate_cons_cons]

end Enumerates

/-! ## Expressions -/

/-- What is read of a call after its opening parenthesis. -/
def IsCallTail (name : String) (kinds : List TokenKind) (tree : Node) : Prop :=
  ∃ arguments : List (Phrase Node),
    (∀ argument ∈ arguments, IsExpression BinaryOperator.loosest argument.kinds argument.tree) ∧
    Node.Callable name (arguments.map Phrase.tree) ∧
    kinds = divided (arguments.map Phrase.kinds) ++ [.symbol .rightParen] ∧
    tree = .call name (arguments.map Phrase.tree)

/-- The kinds spell an expression of a level, and what is left does not go on with it. -/
structure IsWhole (level : Nat) (kinds : List TokenKind) (rest : List Token) (tree : Node) :
    Prop where
  spelled : IsExpression level kinds tree
  halts : Halts level kinds rest

section Whole

variable {level : Nat} {kinds : List TokenKind} {rest : List Token} {tree : Node}

theorem EndsInName.of_append {front : List TokenKind} (named : EndsInName (front ++ kinds))
    (nonempty : kinds ≠ []) : EndsInName kinds := by
  obtain ⟨front', name, same⟩ := named
  have last : kinds.getLast? = some (.identifier name) := by
    rw [← List.getLast?_append_of_ne_nil front nonempty, same, List.getLast?_concat]
  obtain ⟨front'', rfl⟩ := List.getLast?_eq_some_iff.mp last
  exact ⟨front'', name, rfl⟩

theorem EndsInName.of_cons {kind : TokenKind} (named : EndsInName (kind :: kinds))
    (nonempty : kinds ≠ []) : EndsInName kinds :=
  @of_append _ [kind] named nonempty

theorem Prolongs.of_append {front : List TokenKind} {next : TokenKind}
    (prolongs : Prolongs level (front ++ kinds) next) (nonempty : kinds ≠ []) :
    Prolongs level kinds next :=
  prolongs.imp_right (And.imp_right fun named => named.of_append nonempty)

theorem Prolongs.of_cons {kind next : TokenKind} (prolongs : Prolongs level (kind :: kinds) next)
    (nonempty : kinds ≠ []) : Prolongs level kinds next :=
  @of_append _ _ [kind] _ prolongs nonempty

theorem Halts.append (halts : Halts level kinds rest) (nonempty : kinds ≠ [])
    (front : List TokenKind) : Halts level (front ++ kinds) rest :=
  fun next member prolongs => halts next member (prolongs.of_append nonempty)

theorem IsExpression.ne_nil (spelled : IsExpression level kinds tree) : kinds ≠ [] := by
  obtain ⟨kind, more, rfl, -⟩ := spelled.starts
  exact List.cons_ne_nil kind more

/-- After an operand whose last token is not a name nothing goes on with it. -/
theorem IsExpression.isWhole (spelled : IsExpression 0 kinds tree) (unnamed : ¬ EndsInName kinds) :
    IsWhole 0 kinds rest tree := by
  refine ⟨spelled, fun next _ prolongs => ?_⟩
  rcases prolongs with ⟨op, -, le⟩ | ⟨-, named⟩
  · exact absurd op.looseness_pos (Nat.not_lt.mpr le)
  · exact unnamed named

theorem not_endsInName {front : List TokenKind} {last : TokenKind}
    (other : ∀ name, last ≠ .identifier name) : ¬ EndsInName (front ++ [last]) := by
  rintro ⟨front', name, same⟩
  exact other name (List.singleton_inj.mp (List.append_inj_right' same rfl))

end Whole

mutual

theorem whole_binary (finish : Location) (level : Nat) (tokens : List Token) :
    (binary finish level tokens).Splits (IsWhole level) := by
  cases level with
  | zero =>
      rw [binary]
      exact whole_unary finish tokens
  | succ level =>
      rw [binary]
      exact (whole_binary finish level tokens).bind fun left rest fewer kinds first =>
        whole_binaryTail finish level rest first.spelled.looser first.halts
termination_by 9 * tokens.length + (level + 2)

theorem whole_binaryTail (finish : Location) (level : Nat) {left : Node}
    {kinds : List TokenKind} (tokens : List Token) (first : IsExpression (level + 1) kinds left)
    (halts : Halts level kinds tokens) :
    (binaryTail finish level left tokens).Splits fun others =>
      IsWhole (level + 1) (kinds ++ others) := by
  unfold binaryTail
  split
  next => exact splits_pure ⟨by rwa [List.append_nil], halts_nil⟩
  next token tokens =>
    split
    next none =>
      refine splits_pure ⟨by rwa [List.append_nil], ?_⟩
      rw [List.append_nil]
      rintro next ⟨⟩ prolongs
      refine halts token.kind rfl (prolongs.imp_left ?_)
      rintro ⟨op, known, le⟩
      refine ⟨op, known, Nat.lt_succ_iff.mp (Nat.lt_of_le_of_ne le fun same => ?_)⟩
      exact Option.filter_eq_none_iff.mp none op known (beq_iff_eq.mpr same)
    next op known =>
      obtain ⟨known, ofLevel⟩ := Option.filter_eq_some_iff.mp known
      have same := BinaryOperator.kind_eq_of_ofKind? known
      refine Splits.weaken (Splits.after ?_ (by rw [← same]; cases op <;> decide))
      refine (whole_binary finish level tokens).bind fun right rest fewer kinds' second => ?_
      have joined := IsExpression.binary op (beq_iff_eq.mp ofLevel) first second.spelled
      have halts' := second.halts.append second.spelled.ne_nil (kinds ++ [op.kind])
      rw [List.append_assoc, List.singleton_append] at halts'
      refine (whole_binaryTail finish level rest joined halts').imp
        fun others rest value _ whole => ?_
      simpa [same] using whole
termination_by 9 * tokens.length + (level + 3)
decreasing_by all_goals (subst_vars; simp only [List.length_cons]; omega)

theorem whole_unary (finish : Location) (tokens : List Token) :
    (unary finish tokens).Splits (IsWhole 0) := by
  unfold unary
  split
  next => exact whole_primary finish []
  next token rest =>
    split
    next op known =>
      have same := UnaryOperator.kind_eq_of_ofKind? known
      refine Splits.weaken (Splits.after ?_ (by rw [← same]; cases op <;> decide))
      refine (whole_unary finish rest).map fun kinds rest operand _ inner => ?_
      rw [← same]
      exact ⟨.unary op inner.spelled, inner.halts.append inner.spelled.ne_nil [op.kind]⟩
    next => exact whole_primary finish (token :: rest)
termination_by 9 * tokens.length + 1
decreasing_by all_goals (subst_vars; simp only [List.length_cons, List.length_nil]; omega)

theorem whole_primary (finish : Location) (tokens : List Token) :
    (primary finish tokens).Splits (IsWhole 0) := by
  unfold primary
  split
  next span rest =>
    refine Splits.weaken (Splits.after ?_ (by simp))
    refine (whole_binary finish _ rest).bind fun inner rest _ kinds whole => ?_
    refine Splits.map (spelled_expect _ _) fun others rest _ _ closing => ?_
    rw [closing]
    exact (IsExpression.enclosed whole.spelled).isWhole (@not_endsInName (_ :: kinds) _ (by simp))
  next value span rest =>
    exact splits_take (by simp)
      ((IsExpression.constant value).isWhole (@not_endsInName [] _ (by simp)))
  next name span opening rest =>
    refine Splits.weaken (Splits.after (Splits.after ?_ (by simp)) (by simp))
    refine Splits.imp (spelled_callTail finish opening.start name rest) ?_
    rintro _ rest _ - ⟨arguments, all, callable, rfl, rfl⟩
    exact (IsExpression.call name arguments all callable).isWhole
      (@not_endsInName (_ :: _ :: divided _) _ (by simp))
  next name span opening rest =>
    refine Splits.weaken (Splits.after (Splits.after ?_ (by simp)) (by simp))
    refine (whole_binary finish _ rest).bind fun index rest _ kinds whole => ?_
    refine Splits.map (spelled_expect _ _) fun others rest _ _ closing => ?_
    rw [closing]
    exact (IsExpression.element name whole.spelled).isWhole
      (@not_endsInName (_ :: _ :: kinds) _ (by simp))
  next name span rest noCall noElement =>
    refine splits_take (by simp) ⟨.reference name, fun next member prolongs => ?_⟩
    obtain ⟨span', later, rfl⟩ := exists_of_nextKind member
    rcases prolongs with ⟨op, -, le⟩ | ⟨rfl | rfl, -⟩
    · exact absurd op.looseness_pos (Nat.not_lt.mpr le)
    · exact noCall span' later rfl
    · exact noElement span' later rfl
  next => exact splits_fail _
termination_by 9 * tokens.length
decreasing_by all_goals (subst_vars; simp only [List.length_cons, BinaryOperator.loosest]; omega)

theorem spelled_callTail (finish : Location) (location : Location) (name : String)
    (tokens : List Token) : (callTail finish location name tokens).Spelled (IsCallTail name) := by
  rw [callTail]
  refine (spelled_callArguments finish tokens).bind ?_
  rintro _ rest _ kinds ⟨arguments, all, rfl, rfl⟩
  refine (spelled_expect _ _).bind ?_
  rintro _ rest _ _ rfl
  refine spelled_check fun node checked => ?_
  obtain ⟨callable, rfl⟩ := callable_of_checkCall checked
  exact ⟨arguments, all, callable, by simp, rfl⟩
termination_by 9 * tokens.length + 11

theorem spelled_callArguments (finish : Location) (tokens : List Token) :
    (callArguments finish tokens).Spelled fun kinds trees =>
      ∃ arguments : List (Phrase Node),
        (∀ argument ∈ arguments,
          IsExpression BinaryOperator.loosest argument.kinds argument.tree) ∧
        divided (arguments.map Phrase.kinds) = kinds ∧ arguments.map Phrase.tree = trees := by
  unfold callArguments
  split
  next => exact spelled_pure ⟨[], by simp, rfl, rfl⟩
  next =>
    refine ((spelled_arguments finish tokens).imp ?_).weaken
    rintro kinds trees ⟨arguments, -, spelled⟩
    exact ⟨arguments, spelled⟩
termination_by 9 * tokens.length + 10

theorem spelled_arguments (finish : Location) (tokens : List Token) :
    (arguments finish tokens).Spelled (Enumerates (IsExpression BinaryOperator.loosest)) := by
  rw [arguments]
  refine (whole_binary finish _ tokens).bind fun first rest fewer kinds whole => ?_
  split
  next span rest fewer =>
    have shorter : rest.length < tokens.length := Nat.lt_of_succ_lt fewer
    refine Spelled.weaken (Spelled.after ?_ (by simp))
    exact (spelled_arguments finish rest).map fun kinds' trees later => later.cons whole.spelled
  next => exact spelled_pure (by rw [List.append_nil]; exact enumerates_singleton whole.spelled)
termination_by 9 * tokens.length + 9
decreasing_by
  · simp only [BinaryOperator.loosest]
    omega
  · omega

end

theorem spelled_expression (finish : Location) (tokens : List Token) :
    (expression finish tokens).Spelled (IsExpression BinaryOperator.loosest) :=
  (whole_binary finish _ tokens).imp fun _ _ _ _ whole => whole.spelled

/-! ## Statements -/

/-- The kinds spell statements one after the other. -/
def AreClauses (kinds : List TokenKind) (trees : List Node) : Prop :=
  ∃ clauses : List Clause, clauses.IsChain Clause.Separate ∧
    (∀ clause ∈ clauses, IsStatement Clause.Separate clause.kinds clause.tree) ∧
    kinds = clauses.flatMap Clause.spelling ∧ trees = clauses.map Clause.tree

/-- The kinds spell a statement, and what is left does not go on with an expression that
it ends with. -/
structure IsWholeStatement (kinds : List TokenKind) (rest : List Token) (tree : Node) : Prop where
  spelled : IsStatement Clause.Separate kinds tree
  halts : tree.endsOpen → Halts BinaryOperator.loosest kinds rest

theorem whole_assignment (finish : Location) (tokens : List Token) :
    (assignment finish tokens).Splits IsWholeStatement := by
  refine Splits.weaken ((whole_unary finish tokens).bind fun operand rest _ kinds place => ?_)
  have target : (check (checkTarget (nextLocation finish tokens) operand) :
      Reading 0 rest Node).Spelled fun kinds target =>
        kinds = [] ∧ target = operand ∧ operand.isAssignable := by
    refine spelled_check fun target checked => ?_
    unfold checkTarget at checked
    split at checked
    next assignable =>
      cases checked
      exact ⟨rfl, rfl, assignable⟩
    next => cases checked
  refine Splits.bind target ?_
  rintro _ rest _ _ ⟨rfl, rfl, assignable⟩
  refine Splits.bind (spelled_expect _ _) ?_
  rintro _ rest _ _ rfl
  refine (whole_binary finish _ rest).map fun kinds' rest value _ term => ?_
  have halts := term.halts.append term.spelled.ne_nil (kinds ++ [.symbol .assign])
  exact ⟨.assign place.spelled assignable term.spelled, fun _ => by simpa using halts⟩

/-- A list of clauses goes on after a clause that what is left does not go on with. -/
theorem isChain_cons {clause : Clause} {clauses : List Clause} {tokens rest : List Token}
    (chain : clauses.IsChain Clause.Separate)
    (all : ∀ clause ∈ clauses, IsStatement Clause.Separate clause.kinds clause.tree)
    (halts : clause.isOpen → Halts BinaryOperator.loosest clause.kinds tokens)
    (spelled : Spells (clauses.flatMap Clause.spelling) tokens rest) :
    (clause :: clauses).IsChain Clause.Separate := by
  cases clauses with
  | nil => exact .singleton clause
  | cons second others =>
      refine List.isChain_cons_cons.mpr ⟨fun isOpen next member => halts isOpen next ?_, chain⟩
      obtain ⟨kind, more, first, -⟩ := (all second List.mem_cons_self).starts
      rw [first] at member
      rw [spelled.nextKind_eq, List.flatMap_cons, Clause.spelling, first]
      exact member

mutual

theorem spelled_statements (finish : Location) (tokens : List Token) :
    (statements finish tokens).Spelled AreClauses := by
  rw [statements]
  split
  next => exact spelled_pure ⟨[], .nil, by simp, rfl, rfl⟩
  next =>
    refine Splits.weaken ((splits_statement finish tokens).bind ?_)
    rintro _ rest fewer _ ⟨clause, spelled, halts, rfl, rfl⟩
    refine Splits.map (spelled_statements finish rest) ?_
    rintro _ final _ spells ⟨clauses, chain, all, rfl, rfl⟩
    exact ⟨clause :: clauses, isChain_cons chain all halts spells,
      List.forall_mem_cons.mpr ⟨spelled, all⟩, rfl, rfl⟩
termination_by 2 * tokens.length + 1

theorem splits_statement (finish : Location) (tokens : List Token) :
    (statement finish tokens).Splits fun kinds rest tree => ∃ clause : Clause,
      IsStatement Clause.Separate clause.kinds clause.tree ∧
        (clause.isOpen → Halts BinaryOperator.loosest clause.kinds rest) ∧
        kinds = clause.spelling ∧ tree = clause.tree := by
  unfold statement
  have skips : ∀ (read : Node) (rest : List Token) (kinds : List TokenKind),
      IsWholeStatement kinds rest read →
      ((skip (.symbol .semicolon) rest).map fun _ => read).Splits fun others final tree =>
        ∃ clause : Clause, IsStatement Clause.Separate clause.kinds clause.tree ∧
          (clause.isOpen → Halts BinaryOperator.loosest clause.kinds final) ∧
          kinds ++ others = clause.spelling ∧ tree = clause.tree := by
    intro read rest kinds whole
    refine Splits.map spelled_skip ?_
    rintro _ final _ spells ⟨closed, rfl⟩
    refine ⟨⟨kinds, read, closed⟩, whole.spelled, fun isOpen => ?_, rfl, rfl⟩
    cases closed with
    | true => simp [Clause.isOpen] at isOpen
    | false =>
        obtain rfl : rest = final := spells
        exact whole.halts (by simpa [Clause.isOpen] using isOpen)
  suffices read : Splits _ IsWholeStatement from read.bind fun read rest _ => skips read rest
  split
  next span rest =>
    exact Splits.weaken ((whole_branchTail finish rest).after (by simp))
  next span rest =>
    exact Splits.weaken ((whole_loopTail finish rest).after (by simp))
  next span rest =>
    refine Splits.weaken (Splits.after ?_ (by simp))
    refine Splits.bind (spelled_statements finish rest) ?_
    rintro _ rest _ _ ⟨clauses, chain, all, rfl, rfl⟩
    refine Splits.map (spelled_expect _ _) ?_
    rintro _ _ _ - rfl
    exact ⟨.block clauses chain all, by simp [Node.endsOpen]⟩
  next name span opening rest =>
    refine Splits.weaken (Splits.after (Splits.after ?_ (by simp)) (by simp))
    refine Splits.imp (spelled_callTail finish opening.start name rest) ?_
    rintro _ _ _ - ⟨arguments, all, callable, rfl, rfl⟩
    exact ⟨.call name arguments all callable, by simp [Node.endsOpen]⟩
  next => exact whole_assignment finish tokens
termination_by 2 * tokens.length
decreasing_by all_goals (subst_vars; simp only [List.length_cons]; omega)

theorem whole_branchTail (finish : Location) (tokens : List Token) :
    (branchTail finish tokens).Splits fun kinds => IsWholeStatement (.keyword .kwIf :: kinds) := by
  rw [branchTail]
  refine Splits.weaken
    (Splits.bind (spelled_expression finish tokens) fun condition rest _ kinds test => ?_)
  refine Splits.bind (spelled_expect _ _) ?_
  rintro _ rest _ _ rfl
  refine Splits.bind (spelled_statements finish rest) ?_
  rintro _ rest _ _ ⟨taken, chain, all, rfl, rfl⟩
  refine Splits.bind (spelled_alternative finish rest) ?_
  rintro _ rest _ _ (⟨rfl, rfl⟩ | ⟨_, _, ⟨skipped, chain', all', rfl, rfl⟩, rfl, rfl⟩)
  · refine Splits.map (spelled_expect _ _) ?_
    rintro _ _ _ - rfl
    have spelled := IsStatement.branch test taken chain all
    exact ⟨by simpa using spelled, by simp [Node.endsOpen]⟩
  · refine Splits.map (spelled_expect _ _) ?_
    rintro _ _ _ - rfl
    have spelled := IsStatement.branchElse test taken skipped chain chain' all all'
    exact ⟨by simpa using spelled, by simp [Node.endsOpen]⟩
termination_by 2 * tokens.length + 1

theorem spelled_alternative (finish : Location) (tokens : List Token) :
    (alternative finish tokens).Spelled fun kinds found =>
      (kinds = [] ∧ found = none) ∨ ∃ kinds' trees, AreClauses kinds' trees ∧
        kinds = .keyword .kwElse :: kinds' ∧ found = some (.block trees) := by
  unfold alternative
  split
  next span rest =>
    refine Spelled.weaken (Spelled.after ?_ (by simp))
    exact (spelled_statements finish rest).map fun kinds trees clauses =>
      .inr ⟨kinds, trees, clauses, rfl, rfl⟩
  next => exact spelled_pure (.inl ⟨rfl, rfl⟩)
termination_by 2 * tokens.length
decreasing_by all_goals (subst_vars; simp only [List.length_cons]; omega)

theorem whole_loopTail (finish : Location) (tokens : List Token) :
    (loopTail finish tokens).Splits fun kinds => IsWholeStatement (.keyword .kwWhile :: kinds) := by
  rw [loopTail]
  refine Splits.weaken
    (Splits.bind (spelled_expression finish tokens) fun condition rest _ kinds test => ?_)
  refine Splits.bind (spelled_expect _ _) ?_
  rintro _ rest _ _ rfl
  refine Splits.bind (spelled_statements finish rest) ?_
  rintro _ rest _ _ ⟨body, chain, all, rfl, rfl⟩
  refine Splits.map (spelled_expect _ _) ?_
  rintro _ _ _ - rfl
  have spelled := IsStatement.loop test body chain all
  exact ⟨by simpa using spelled, by simp [Node.endsOpen]⟩
termination_by 2 * tokens.length + 1

end

/-! ## Declarations -/

theorem spelled_arrayTail (finish : Location) (name : String) (tokens : List Token) :
    (arrayTail finish name tokens).Spelled fun kinds declared =>
      IsDeclaration (.identifier name :: .symbol .leftBracket :: kinds) declared := by
  refine Spelled.weaken ((spelled_expectInteger _).bind ?_)
  rintro size rest _ _ rfl
  refine (spelled_expect _ _).bind ?_
  rintro _ rest _ _ rfl
  have sized : (check (checkSize (nextLocation finish tokens) name size) :
      Reading 0 rest Declaration).Spelled fun kinds declared =>
        kinds = [] ∧ 1 ≤ size ∧ declared = ⟨name, size.toUInt32⟩ := by
    refine spelled_check fun declared checked => ?_
    unfold checkSize at checked
    split at checked
    next => cases checked
    next positive =>
      cases checked
      exact ⟨rfl, Int32.not_lt.mp positive, rfl⟩
  refine sized.bind ?_
  rintro _ rest _ _ ⟨rfl, positive, rfl⟩
  exact spelled_report _ (.array name positive)

theorem spelled_declaration (finish : Location) (tokens : List Token) :
    (declaration finish tokens).Spelled IsDeclaration := by
  refine (spelled_expectIdentifier _).bind ?_
  rintro name rest fewer _ rfl
  split
  next span rest _ =>
    exact Spelled.weaken (Spelled.after (spelled_arrayTail finish name rest) (by simp))
  next => exact spelled_pure (.word name)

theorem spelled_declarations (finish : Location) (tokens : List Token) :
    (declarations finish tokens).Spelled (Enumerates IsDeclaration) := by
  rw [declarations]
  refine (spelled_declaration finish tokens).bind fun first rest fewer kinds spelled => ?_
  split
  next span rest fewer =>
    have shorter : rest.length < tokens.length := Nat.lt_of_succ_lt fewer
    refine Spelled.weaken (Spelled.after ?_ (by simp))
    exact (spelled_declarations finish rest).map fun kinds' trees later => later.cons spelled
  next => exact spelled_pure (by rw [List.append_nil]; exact enumerates_singleton spelled)
termination_by tokens.length

theorem spelled_declarationsTail (finish : Location) (tokens : List Token) :
    (declarationsTail finish tokens).Spelled fun kinds =>
      IsDeclarations (.keyword .kwVar :: kinds) := by
  refine (spelled_declarations finish tokens).bind ?_
  rintro _ rest _ _ ⟨declared, nonempty, all, rfl, rfl⟩
  refine spelled_skip.map ?_
  rintro _ _ ⟨closed, rfl⟩
  exact .announced declared nonempty all closed

/-! ## Procedures -/

theorem spelled_parameters (finish : Location) (tokens : List Token) :
    (parameters finish tokens).Spelled
      (Enumerates fun kinds name => kinds = [.identifier name]) := by
  rw [parameters]
  refine (spelled_expectIdentifier _).bind fun first rest fewer kinds spelled => ?_
  split
  next span rest fewer =>
    have shorter : rest.length < tokens.length := Nat.lt_of_succ_lt fewer
    refine Spelled.weaken (Spelled.after ?_ (by simp))
    exact (spelled_parameters finish rest).map fun kinds' names later => later.cons spelled
  next => exact spelled_pure (by rw [List.append_nil]; exact enumerates_singleton spelled)
termination_by tokens.length

theorem spelled_parameterList (finish : Location) (tokens : List Token) :
    (parameterList finish tokens).Spelled fun kinds names =>
      kinds = divided (names.map fun name => [.identifier name]) := by
  unfold parameterList
  split
  next => exact spelled_pure rfl
  next =>
    refine ((spelled_parameters finish tokens).imp ?_).weaken
    rintro _ _ ⟨phrases, -, all, rfl, rfl⟩
    rw [List.map_map]
    exact congrArg divided (List.map_congr_left all)

theorem spelled_locals (finish : Location) (tokens : List Token) :
    (locals finish tokens).Spelled IsLocals := by
  unfold locals
  split
  next span rest =>
    refine Spelled.weaken (Spelled.after ?_ (by simp))
    exact (spelled_declarationsTail finish rest).imp fun kinds declared => .present
  next => exact spelled_pure .missing

theorem spelled_header (finish : Location) (tokens : List Token) :
    (header finish tokens).Spelled fun kinds heading => kinds = headerKinds heading := by
  refine Spelled.weaken ((spelled_expect _ _).bind ?_)
  rintro _ rest _ _ rfl
  refine (spelled_expectIdentifier _).bind ?_
  rintro name rest _ _ rfl
  refine (spelled_expect _ _).bind ?_
  rintro _ rest _ _ rfl
  refine (spelled_parameterList finish rest).bind ?_
  rintro names rest _ _ rfl
  refine (spelled_expect _ _).map ?_
  rintro _ _ rfl
  rfl

theorem spelled_procedureBody (finish : Location) (tokens : List Token) :
    (procedureBody finish tokens).Spelled fun kinds trees => ∃ kinds' closed,
      AreClauses kinds' trees ∧
        kinds = .keyword .kwBegin :: (kinds' ++ .keyword .kwEnd :: closing closed) := by
  refine Spelled.weaken ((spelled_expect _ _).bind ?_)
  rintro _ rest _ _ rfl
  refine (spelled_statements finish rest).bind fun body rest _ kinds clauses => ?_
  refine (spelled_expect _ _).bind ?_
  rintro _ rest _ _ rfl
  refine spelled_skip.map ?_
  rintro _ _ ⟨closed, rfl⟩
  exact ⟨kinds, closed, clauses, rfl⟩

theorem spelled_procedure (finish : Location) (tokens : List Token) :
    (procedure finish tokens).Spelled (IsItem Clause.Separate) := by
  refine Spelled.weaken ((spelled_header finish tokens).bind ?_)
  rintro heading rest _ _ rfl
  refine (spelled_locals finish rest).bind fun declared rest _ kinds spelled => ?_
  refine (spelled_procedureBody finish rest).bind ?_
  rintro _ rest _ _ ⟨_, closed, ⟨body, chain, all, rfl, rfl⟩, rfl⟩
  have reached : (check (checkReach (nextLocation finish tokens) heading declared
      (body.map Clause.tree)) : Reading 0 rest Node).Spelled fun kinds node =>
        kinds = [] ∧ (Scope.mk declared heading.parameters).frameExtent?.isSome ∧
          node = .procedure heading declared (.block (body.map Clause.tree)) := by
    refine spelled_check fun node checked => ?_
    unfold checkReach at checked
    split at checked
    next extent reach =>
      cases checked
      exact ⟨rfl, by rw [reach]; rfl, rfl⟩
    next => cases checked
  refine reached.bind ?_
  rintro _ rest _ _ ⟨rfl, reach, rfl⟩
  refine spelled_report _ ?_
  simpa using IsItem.procedure heading spelled body chain all closed reach

/-! ## Programs -/

theorem spelled_item (finish : Location) (tokens : List Token) :
    (item finish tokens).Spelled (IsItem Clause.Separate) := by
  unfold item
  split
  next span rest =>
    refine Spelled.weaken (Spelled.after ?_ (by simp))
    exact (spelled_declarationsTail finish rest).map fun kinds declared spelled =>
      .declarations spelled
  next => exact spelled_procedure finish _
  next => exact spelled_fail _

theorem spelled_items (finish : Location) (tokens : List Token) :
    (items finish tokens).Spelled fun kinds trees => ∃ phrases : List (Phrase Node),
      (∀ phrase ∈ phrases, IsItem Clause.Separate phrase.kinds phrase.tree) ∧
      kinds = phrases.flatMap Phrase.kinds ∧ trees = phrases.map Phrase.tree := by
  rw [items]
  split
  next => exact spelled_pure ⟨[], by simp, rfl, rfl⟩
  next =>
    refine Spelled.weaken ((spelled_item finish tokens).bind
      fun first rest fewer kinds spelled => ?_)
    refine (spelled_items finish rest).map ?_
    rintro _ _ ⟨phrases, all, rfl, rfl⟩
    exact ⟨⟨kinds, first⟩ :: phrases, List.forall_mem_cons.mpr ⟨spelled, all⟩, rfl, rfl⟩
termination_by tokens.length

/-- Items are read up to the end of the text. -/
theorem endsProgram_items {finish : Location} {tokens : List Token} {trees : List Node}
    (read : (items finish tokens).outcome = .ok trees) :
    endsProgram (items finish tokens).rest := by
  rw [items] at read ⊢
  split at read
  next ends =>
    rw [if_pos ends]
    exact ends
  next goesOn =>
    rw [if_neg goesOn]
    obtain ⟨first, fewer, -, outcome, left⟩ := exists_of_bind read
    have rest : (Reading.weaken 0 ((item finish tokens).bind fun first rest _ =>
        (items finish rest).map (first :: ·))).rest =
        (items finish (item finish tokens).rest).rest :=
      left
    rw [rest]
    simp only [Reading.map] at outcome
    split at outcome
    next trees' done => exact endsProgram_items done
    next => cases outcome
termination_by tokens.length

/-- **What is read as a program spells it**, and what is left is the end of the text. -/
theorem exists_isProgram_of_read {finish : Location} {tokens : List Token} {tree : Node}
    (read : (program finish tokens).outcome = .ok tree) :
    ∃ kinds rest, Spells kinds tokens rest ∧ .endOfFile ∉ kinds ∧ endsProgram rest ∧
      IsProgram Clause.Separate kinds tree := by
  obtain ⟨trees, fewer, done, reported, -⟩ := exists_of_bind read
  obtain rfl : Node.program trees = tree := Except.ok.inj reported
  obtain ⟨_, spelled, inside, phrases, all, rfl, rfl⟩ := spelled_items finish _ trees done
  exact ⟨_, _, spelled, inside, endsProgram_items done, .ofItems phrases all⟩

/-- What ends where the text does is spelled by all tokens but the last. -/
theorem eq_map_kind_of_spells {kinds : List TokenKind} {used rest : List Token} {span : Span}
    (ordinary : ∀ token ∈ used, token.kind ≠ .endOfFile) (inside : .endOfFile ∉ kinds)
    (spelled : Spells kinds (used ++ [⟨.endOfFile, span⟩]) rest) (ends : endsProgram rest) :
    kinds = used.map Token.kind := by
  induction kinds generalizing used with
  | nil =>
      obtain rfl : used ++ [Token.mk .endOfFile span] = rest := spelled
      cases used with
      | nil => rfl
      | cons token used => exact absurd (beq_iff_eq.mp ends) (ordinary token List.mem_cons_self)
  | cons kind kinds ih =>
      obtain ⟨span', later, same, spelled⟩ := spelled
      rw [List.mem_cons, not_or] at inside
      cases used with
      | nil =>
          obtain ⟨first, -⟩ := List.cons.inj same
          exact absurd (congrArg Token.kind first) inside.1
      | cons token used =>
          obtain ⟨rfl, rfl⟩ := List.cons.inj same
          rw [ih (fun token member => ordinary token (.tail _ member)) inside.2 spelled]
          rfl

theorem isProgram_of_read {finish : Location} {used : List Token} {span : Span} {tree : Node}
    (ordinary : ∀ token ∈ used, token.kind ≠ .endOfFile)
    (read : (program finish (used ++ [⟨.endOfFile, span⟩])).outcome = .ok tree) :
    IsProgram Clause.Any (used.map Token.kind) tree := by
  obtain ⟨kinds, rest, spelled, inside, ends, derived⟩ := exists_isProgram_of_read read
  rw [← eq_map_kind_of_spells ordinary inside spelled ends]
  exact derived.mono fun _ _ _ _ => trivial

end Grammar

namespace TokenStream

open Grammar

/-- **The grammar is read exactly.** Tokens that are read as a tree spell it, and
tokens that spell a tree are read as it, if no statement in it that ends with an
expression is followed, without a semicolon, by a star or a parenthesis. -/
theorem program_accepts_derivations {used : List Token} (span : Span) (tree : Node)
    (ordinary : ∀ token ∈ used, token.kind ≠ .endOfFile) :
    (((ofTokens (used ++ [⟨.endOfFile, span⟩])).read program).outcome = .ok tree →
        IsProgram Clause.Any (used.map Token.kind) tree) ∧
      (IsProgram Clause.Apart (used.map Token.kind) tree →
        ((ofTokens (used ++ [⟨.endOfFile, span⟩])).read program).outcome = .ok tree) :=
  ⟨isProgram_of_read ordinary, fun spelled =>
    (reads_program _ spelled (spells_map_kind used _)).1⟩

/-- Tokens of given kinds, all at one place. -/
def unplaced (kinds : List TokenKind) : List Token :=
  kinds.map fun kind => ⟨kind, default⟩

/-- A procedure that assigns a value to one variable and a constant to another, without
a semicolon between the two and with the second variable in parentheses. -/
def adjacentKinds (value : TokenKind) : List TokenKind :=
  [.keyword .kwProc, .identifier "main", .symbol .leftParen, .symbol .rightParen,
    .keyword .kwBegin, .identifier "x", .symbol .assign, value, .symbol .leftParen,
    .identifier "y", .symbol .rightParen, .symbol .assign, .integer 2, .keyword .kwEnd]

/-- Statements side by side that are read although a parenthesis follows the first, and
a tree that is read from its own spelling. -/
theorem program_accepts_derivations_adjacent :
    IsProgram Clause.Any (adjacentKinds (.integer 1)) (.program [.procedure ⟨"main", []⟩ []
        (.block [.assign (.reference "x") (.constant 1),
          .assign (.reference "y") (.constant 2)])]) ∧
      ((ofTokens (unplaced mixedTree.render ++ [⟨.endOfFile, default⟩])).read program).outcome =
        .ok mixedTree := by
  have ordinary : ∀ {kinds : List TokenKind}, .endOfFile ∉ kinds →
      ∀ token ∈ unplaced kinds, token.kind ≠ .endOfFile := by
    intro kinds inside token member same
    obtain ⟨kind, listed, rfl⟩ := List.mem_map.mp member
    exact inside (same ▸ listed)
  have kinds : ∀ kinds, (unplaced kinds).map Token.kind = kinds := by
    intro kinds
    rw [unplaced, List.map_map]
    exact List.map_id kinds
  have first := (program_accepts_derivations default _ (ordinary (by decide))).1
    (show ((ofTokens (unplaced (adjacentKinds (.integer 1)) ++ [⟨.endOfFile, default⟩])).read
      program).outcome = _ by with_unfolding_all rfl)
  have second := (program_accepts_derivations default mixedTree (ordinary (by decide +kernel))).2
    ((kinds mixedTree.render).symm ▸ mixedTree.isProgram_render (by decide +kernel))
  rw [kinds] at first
  exact ⟨first, second⟩

/-- With a name in place of the constant, the parenthesis prolongs the first statement
to a call, and the tokens are refused. -/
example : ((ofTokens (unplaced (adjacentKinds (.identifier "z")) ++ [⟨.endOfFile, default⟩])).read
    program).outcome = .error (.unexpectedToken .expression ⟨.symbol .assign, default⟩) := by
  with_unfolding_all rfl

end TokenStream

end ProcLang
