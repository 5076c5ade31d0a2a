import ProcLang.Proofs.Grammar.Soundness

/-!
# Which token a fault blames

A fault that blames a token names the last token that was taken, or the first one that is
left (`Reading.Blames`). A rule that needs a certain token takes whatever is there, and a
rule that nothing can start with leaves it. So the tokens that are left tell where the
blamed token stands, also if there are others like it.

Each rule of the grammar has one lemma, which follows the rule.
-/

set_option autoImplicit false

namespace ProcLang

/-- Whether the token that is found in place of what is expected has been taken. A token
that starts no item and no operand is left where it is. -/
def Expectation.isTaken : Expectation → Bool
  | token _ _ | identifier _ | integer _ => true
  | phrase _ => false

namespace Reading

variable {α β : Type} {least more : Nat} {tokens : List Token}

/-- A token that is blamed is the last one taken or the first one left. -/
def Blames (reading : Reading least tokens α) : Prop :=
  ∀ expected found, reading.outcome = .error (.unexpectedToken expected found) →
    ∃ before later, tokens = before ++ found :: later ∧
      reading.rest = if expected.isTaken then later else found :: later

section Blames

variable {reading : Reading least tokens α}

theorem blames_of_ok {value : α} (done : reading.outcome = .ok value) : reading.Blames := by
  intro expected found failed
  rw [done] at failed
  cases failed

theorem blames_pure (value : α) : (pure value : Reading 0 tokens α).Blames :=
  blames_of_ok rfl

theorem blames_take (token : Token) (value : α) :
    (take token value : Reading 1 (token :: tokens) α).Blames :=
  blames_of_ok rfl

theorem blames_report (event : Event) (value : α) :
    (report event value : Reading 0 tokens α).Blames :=
  blames_of_ok rfl

/-- A side condition that does not hold blames no token. -/
theorem blames_check {checked : Except SyntaxFault α}
    (blameless : ∀ expected found, checked ≠ .error (.unexpectedToken expected found)) :
    (check checked : Reading 0 tokens α).Blames := by
  cases checked with
  | ok value => exact blames_pure value
  | error fault =>
      intro expected found failed
      exact absurd failed (blameless expected found)

theorem Blames.map (blames : reading.Blames) (f : α → β) : (reading.map f).Blames := by
  intro expected found failed
  simp only [Reading.map] at failed
  split at failed
  next => cases failed
  next fault done =>
    cases failed
    exact blames expected found done

theorem Blames.after (blames : reading.Blames) (token : Token) : (reading.after token).Blames := by
  intro expected found failed
  obtain ⟨before, later, rfl, left⟩ := blames expected found failed
  exact ⟨token :: before, later, rfl, left⟩

theorem Blames.weaken {fewer : Nat} {le : Nat.ble fewer least = true} (blames : reading.Blames) :
    (reading.weaken fewer le).Blames :=
  blames

theorem Blames.bind {first : Reading least tokens α}
    {second : (value : α) → (rest : List Token) → rest.length + least ≤ tokens.length →
      Reading more rest β}
    (blames : first.Blames) (next : ∀ value rest fewer, (second value rest fewer).Blames) :
    (first.bind second).Blames := by
  intro expected found failed
  cases done : first.outcome with
  | error fault =>
      obtain ⟨outcome, rest, -⟩ := @bind_of_error _ _ _ _ _ _ second _ done
      rw [outcome] at failed
      obtain rfl := Except.error.inj failed
      rw [rest]
      exact blames expected found done
  | ok value =>
      obtain ⟨outcome, rest, -⟩ := @bind_of_ok _ _ _ _ _ _ second _ done
      rw [outcome] at failed
      rw [rest]
      obtain ⟨before, later, split, left⟩ := next _ _ _ expected found failed
      obtain ⟨taken, whole⟩ := first.suffix
      exact ⟨taken ++ before, later, by rw [← whole, split, List.append_assoc], left⟩

end Blames

end Reading

namespace Grammar

open Reading

/-! ## What each rule blames -/

section Blame

variable (finish : Location)

theorem unexpectedToken_of_unexpected {expected expected' : Expectation} {tokens : List Token}
    {found : Token}
    (failed : unexpected finish expected tokens = .unexpectedToken expected' found) :
    expected' = expected ∧ ∃ later, tokens = found :: later := by
  cases tokens with
  | nil => cases failed
  | cons token rest =>
      rw [unexpected] at failed
      split at failed
      next => cases failed
      next =>
        cases failed
        exact ⟨rfl, rest, rfl⟩

theorem blames_unexpected {α : Type} {least : Nat} {expected : Expectation}
    (left : expected.isTaken = false) (tokens : List Token) :
    (fail (unexpected finish expected tokens) : Reading least tokens α).Blames := by
  intro expected' found failed
  obtain ⟨rfl, later, rfl⟩ := unexpectedToken_of_unexpected finish (Except.error.inj failed)
  exact ⟨[], later, rfl, by rw [left]; rfl⟩

theorem blames_expectWith {α : Type} {expected : Expectation} (taken : expected.isTaken)
    (accept : TokenKind → Option α) (tokens : List Token) :
    (expectWith finish expected accept tokens).Blames := by
  cases tokens with
  | nil =>
      intro expected' found failed
      cases failed
  | cons token rest =>
      rw [expectWith]
      split
      next =>
        intro expected' found failed
        cases failed
      next =>
        split
        next value _ => exact blames_take token value
        next =>
          intro expected' found failed
          cases failed
          exact ⟨[], rest, rfl, by rw [if_pos taken]; rfl⟩

theorem blames_expect (kind : TokenKind) (construct : Construct) (tokens : List Token) :
    (expect finish kind construct tokens).Blames :=
  blames_expectWith finish rfl _ tokens

theorem blames_expectIdentifier (construct : Construct) (tokens : List Token) :
    (expectIdentifier finish construct tokens).Blames :=
  blames_expectWith finish rfl _ tokens

theorem blames_expectInteger (construct : Construct) (tokens : List Token) :
    (expectInteger finish construct tokens).Blames :=
  blames_expectWith finish rfl _ tokens

theorem blames_skip (kind : TokenKind) (tokens : List Token) : (skip kind tokens).Blames := by
  cases tokens with
  | nil => exact blames_pure ()
  | cons token rest =>
      rw [skip]
      split
      next => exact (blames_take token ()).weaken
      next => exact blames_pure ()

/-! ### Side conditions -/

section Checks

variable {tokens : List Token} (location : Location)

theorem blames_checkCall (name : String) (arguments : List Node) :
    (check (checkCall location name arguments) : Reading 0 tokens Node).Blames := by
  apply blames_check
  intro expected found
  unfold checkCall
  split <;> (try split) <;> simp

theorem blames_checkTarget (target : Node) :
    (check (checkTarget location target) : Reading 0 tokens Node).Blames := by
  apply blames_check
  intro expected found
  unfold checkTarget
  split <;> simp

theorem blames_checkSize (name : String) (size : Int32) :
    (check (checkSize location name size) : Reading 0 tokens Declaration).Blames := by
  apply blames_check
  intro expected found
  unfold checkSize
  split <;> simp

theorem blames_checkReach (heading : Header) (declared : List Declaration) (body : List Node) :
    (check (checkReach location heading declared body) : Reading 0 tokens Node).Blames := by
  apply blames_check
  intro expected found
  unfold checkReach
  split <;> simp

end Checks

/-! ### Expressions -/

mutual

theorem blames_binary (level : Nat) (tokens : List Token) :
    (binary finish level tokens).Blames := by
  cases level with
  | zero =>
      rw [binary]
      exact blames_unary tokens
  | succ level =>
      rw [binary]
      exact (blames_binary level tokens).bind fun left rest _ => blames_binaryTail level left rest
termination_by 9 * tokens.length + (level + 2)
decreasing_by all_goals omega

theorem blames_binaryTail (level : Nat) (left : Node) (tokens : List Token) :
    (binaryTail finish level left tokens).Blames := by
  cases tokens with
  | nil =>
      rw [binaryTail]
      exact blames_pure left
  | cons token rest =>
      rw [binaryTail]
      split
      next => exact blames_pure left
      next op _ =>
        refine Blames.weaken (Blames.after ?_ token)
        exact (blames_binary level rest).bind fun right rest _ =>
          blames_binaryTail level (.binary op left right) rest
termination_by 9 * tokens.length + (level + 3)
decreasing_by all_goals (simp only [List.length_cons] at *; omega)

theorem blames_unary (tokens : List Token) : (unary finish tokens).Blames := by
  cases tokens with
  | nil =>
      rw [unary]
      exact blames_primary []
  | cons token rest =>
      rw [unary]
      split
      next => exact (((blames_unary rest).map _).after token).weaken
      next => exact blames_primary (token :: rest)
termination_by 9 * tokens.length + 1

theorem blames_primary (tokens : List Token) : (primary finish tokens).Blames := by
  unfold primary
  split
  next span rest =>
    refine Blames.weaken (Blames.after ?_ _)
    exact (blames_binary _ rest).bind fun _ rest _ => (blames_expect finish _ _ rest).map _
  next => exact blames_take _ _
  next name span opening rest =>
    exact (((blames_callTail opening.start name rest).after _).after _).weaken
  next name span opening rest =>
    refine Blames.weaken (Blames.after (Blames.after ?_ _) _)
    exact (blames_binary _ rest).bind fun _ rest _ => (blames_expect finish _ _ rest).map _
  next => exact blames_take _ _
  next => exact blames_unexpected finish rfl _
termination_by 9 * tokens.length
decreasing_by all_goals (subst_vars; simp only [List.length_cons, BinaryOperator.loosest]; omega)

theorem blames_callTail (location : Location) (name : String) (tokens : List Token) :
    (callTail finish location name tokens).Blames := by
  rw [callTail]
  refine (blames_callArguments tokens).bind fun arguments rest _ => ?_
  exact (blames_expect finish _ _ rest).bind fun _ _ _ => blames_checkCall location name arguments
termination_by 9 * tokens.length + 11
decreasing_by omega

theorem blames_callArguments (tokens : List Token) : (callArguments finish tokens).Blames := by
  unfold callArguments
  split
  next => exact blames_pure []
  next => exact (blames_arguments tokens).weaken
termination_by 9 * tokens.length + 10
decreasing_by omega

theorem blames_arguments (tokens : List Token) : (arguments finish tokens).Blames := by
  rw [arguments]
  refine (blames_binary _ tokens).bind fun first rest fewer => ?_
  split
  next span rest fewer =>
    have shorter : rest.length < tokens.length := Nat.lt_of_succ_lt fewer
    exact (((blames_arguments rest).map _).after _).weaken
  next => exact blames_pure [first]
termination_by 9 * tokens.length + 9
decreasing_by
  · simp only [BinaryOperator.loosest]
    omega
  · omega

end

theorem blames_expression (tokens : List Token) : (expression finish tokens).Blames :=
  blames_binary finish _ tokens

/-! ### Statements -/

theorem blames_assignment (tokens : List Token) : (assignment finish tokens).Blames := by
  refine Blames.weaken ((blames_unary finish tokens).bind fun operand rest _ => ?_)
  refine (blames_checkTarget _ operand).bind fun target rest _ => ?_
  exact (blames_expect finish _ _ rest).bind fun _ rest _ => (blames_expression finish rest).map _

mutual

theorem blames_statements (tokens : List Token) : (statements finish tokens).Blames := by
  rw [statements]
  split
  next => exact blames_pure []
  next =>
    exact Blames.weaken ((blames_statement tokens).bind fun _ rest _ =>
      (blames_statements rest).map _)
termination_by 2 * tokens.length + 1
decreasing_by all_goals omega

theorem blames_statement (tokens : List Token) : (statement finish tokens).Blames := by
  unfold statement
  refine Blames.bind ?_ fun _ rest _ => (blames_skip _ rest).map _
  split
  next span rest => exact ((blames_branchTail rest).after _).weaken
  next span rest => exact ((blames_loopTail rest).after _).weaken
  next span rest =>
    refine Blames.weaken (Blames.after ?_ _)
    exact (blames_statements rest).bind fun _ rest _ => (blames_expect finish _ _ rest).map _
  next name span opening rest =>
    exact (((blames_callTail finish opening.start name rest).after _).after _).weaken
  next => exact blames_assignment finish tokens
termination_by 2 * tokens.length
decreasing_by all_goals (subst_vars; simp only [List.length_cons]; omega)

theorem blames_branchTail (tokens : List Token) : (branchTail finish tokens).Blames := by
  rw [branchTail]
  refine Blames.weaken ((blames_expression finish tokens).bind fun _ rest _ => ?_)
  refine (blames_expect finish _ _ rest).bind fun _ rest _ => ?_
  refine (blames_statements rest).bind fun _ rest _ => ?_
  refine (blames_alternative rest).bind fun _ rest _ => ?_
  exact (blames_expect finish _ _ rest).map _
termination_by 2 * tokens.length + 1
decreasing_by all_goals omega

theorem blames_alternative (tokens : List Token) : (alternative finish tokens).Blames := by
  unfold alternative
  split
  next span rest => exact (((blames_statements rest).map _).after _).weaken
  next => exact blames_pure none
termination_by 2 * tokens.length
decreasing_by all_goals (subst_vars; simp only [List.length_cons]; omega)

theorem blames_loopTail (tokens : List Token) : (loopTail finish tokens).Blames := by
  rw [loopTail]
  refine Blames.weaken ((blames_expression finish tokens).bind fun _ rest _ => ?_)
  refine (blames_expect finish _ _ rest).bind fun _ rest _ => ?_
  refine (blames_statements rest).bind fun _ rest _ => ?_
  exact (blames_expect finish _ _ rest).map _
termination_by 2 * tokens.length + 1
decreasing_by all_goals omega

end

/-! ### Declarations and procedures -/

theorem blames_arrayTail (name : String) (tokens : List Token) :
    (arrayTail finish name tokens).Blames := by
  refine Blames.weaken ((blames_expectInteger finish _ tokens).bind fun size rest _ => ?_)
  refine (blames_expect finish _ _ rest).bind fun _ rest _ => ?_
  exact (blames_checkSize _ name size).bind fun declared _ _ => blames_report _ declared

theorem blames_declaration (tokens : List Token) : (declaration finish tokens).Blames := by
  refine (blames_expectIdentifier finish _ tokens).bind fun name rest _ => ?_
  split
  next span rest _ => exact ((blames_arrayTail finish name rest).after _).weaken
  next => exact blames_pure (Declaration.mk name 1)

theorem blames_declarations (tokens : List Token) : (declarations finish tokens).Blames := by
  rw [declarations]
  refine (blames_declaration finish tokens).bind fun first rest fewer => ?_
  split
  next span rest fewer =>
    have shorter : rest.length < tokens.length := Nat.lt_of_succ_lt fewer
    exact (((blames_declarations rest).map _).after _).weaken
  next => exact blames_pure [first]
termination_by tokens.length

theorem blames_declarationsTail (tokens : List Token) : (declarationsTail finish tokens).Blames :=
  (blames_declarations finish tokens).bind fun _ rest _ => (blames_skip _ rest).map _

theorem blames_parameters (tokens : List Token) : (parameters finish tokens).Blames := by
  rw [parameters]
  refine (blames_expectIdentifier finish _ tokens).bind fun first rest fewer => ?_
  split
  next span rest fewer =>
    have shorter : rest.length < tokens.length := Nat.lt_of_succ_lt fewer
    exact (((blames_parameters rest).map _).after _).weaken
  next => exact blames_pure [first]
termination_by tokens.length

theorem blames_parameterList (tokens : List Token) : (parameterList finish tokens).Blames := by
  unfold parameterList
  split
  next => exact blames_pure []
  next => exact (blames_parameters finish tokens).weaken

theorem blames_locals (tokens : List Token) : (locals finish tokens).Blames := by
  unfold locals
  split
  next rest => exact ((blames_declarationsTail finish rest).after _).weaken
  next => exact blames_pure []

theorem blames_header (tokens : List Token) : (header finish tokens).Blames := by
  refine Blames.weaken ((blames_expect finish _ _ tokens).bind fun _ rest _ => ?_)
  refine (blames_expectIdentifier finish _ rest).bind fun _ rest _ => ?_
  refine (blames_expect finish _ _ rest).bind fun _ rest _ => ?_
  refine (blames_parameterList finish rest).bind fun _ rest _ => ?_
  exact (blames_expect finish _ _ rest).map _

theorem blames_procedureBody (tokens : List Token) : (procedureBody finish tokens).Blames := by
  refine Blames.weaken ((blames_expect finish _ _ tokens).bind fun _ rest _ => ?_)
  refine (blames_statements finish rest).bind fun _ rest _ => ?_
  refine (blames_expect finish _ _ rest).bind fun _ rest _ => ?_
  exact (blames_skip _ rest).map _

theorem blames_procedure (tokens : List Token) : (procedure finish tokens).Blames := by
  refine Blames.weaken ((blames_header finish tokens).bind fun heading rest _ => ?_)
  refine (blames_locals finish rest).bind fun declared rest _ => ?_
  refine (blames_procedureBody finish rest).bind fun body rest _ => ?_
  exact (blames_checkReach _ heading declared body).bind fun node _ _ => blames_report _ node

/-! ### Items -/

theorem blames_item (tokens : List Token) : (item finish tokens).Blames := by
  unfold item
  split
  next rest => exact (((blames_declarationsTail finish rest).map _).after _).weaken
  next => exact blames_procedure finish _
  next => exact blames_unexpected finish rfl _

theorem blames_items (tokens : List Token) : (items finish tokens).Blames := by
  rw [items]
  split
  next => exact blames_pure []
  next =>
    exact Blames.weaken ((blames_item finish tokens).bind fun _ rest _ => (blames_items rest).map _)
termination_by tokens.length

/-- **A program blames the last token taken or the first one left.** -/
theorem blames_program (tokens : List Token) : (program finish tokens).Blames :=
  (blames_items finish tokens).bind fun _ _ _ => blames_report _ _

end Blame

end Grammar

end ProcLang
