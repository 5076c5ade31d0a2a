import ProcLang.Proofs.Grammar.Blame

/-!
# A fault blames a token for good

No rule looks further ahead than the first token that it leaves, and none looks behind a
token that it blames. If the outcome of a rule was settled before some last tokens in this
sense (`Reading.SettledBefore`), these can be replaced by any others and the outcome stays
(`Reading.Agrees`). In particular nothing that follows a blamed token can mend the fault
(`TokenStream.program_fault_persists`).

Two rules look at two tokens to begin with: a name may be the start of a call. Their outcome
is never settled by the name alone.
-/

set_option autoImplicit false

namespace ProcLang

/-- A fault that leaves a number of tokens did not depend on a number of the last ones, so
that the token it blames is not among these. Other faults depend on all tokens. -/
def SyntaxFault.SettledBefore (fault : SyntaxFault) (left unseen : Nat) : Prop :=
  match fault with
  | unexpectedToken expected _ => if expected.isTaken then unseen ≤ left else unseen < left
  | _ => False

namespace Reading

variable {α β : Type} {least more : Nat} {tokens tokens' : List Token}

/-! ## Outcomes that are settled -/

/-- The outcome did not depend on the last tokens, of which there are so many. A rule that
succeeds may have looked at the first token that it leaves. -/
def SettledBefore (reading : Reading least tokens α) (unseen : Nat) : Prop :=
  match reading.outcome with
  | .ok _ => unseen < reading.rest.length
  | .error fault => fault.SettledBefore reading.rest.length unseen

section Settled

variable {reading : Reading least tokens α} {unseen : Nat}

theorem settledBefore_iff_of_ok {value : α} (done : reading.outcome = .ok value) :
    reading.SettledBefore unseen ↔ unseen < reading.rest.length := by
  rw [SettledBefore, done]

theorem settledBefore_iff_of_error {fault : SyntaxFault} (failed : reading.outcome = .error fault) :
    reading.SettledBefore unseen ↔ fault.SettledBefore reading.rest.length unseen := by
  rw [SettledBefore, failed]

theorem settledBefore_map {f : α → β} :
    (reading.map f).SettledBefore unseen ↔ reading.SettledBefore unseen := by
  obtain ⟨outcome, -, -, -, -⟩ := reading
  cases outcome <;> rfl

theorem SettledBefore.le (settled : reading.SettledBefore unseen) :
    unseen ≤ reading.rest.length := by
  unfold SettledBefore SyntaxFault.SettledBefore at settled
  split at settled
  next => exact settled.le
  next =>
    split at settled
    next => split at settled <;> omega
    next => cases settled

/-- Nothing is settled before the first token. -/
theorem Blames.not_settledBefore (blames : reading.Blames) :
    ¬ reading.SettledBefore tokens.length := by
  intro settled
  have short := reading.suffix.length_le
  unfold SettledBefore SyntaxFault.SettledBefore at settled
  split at settled
  next => omega
  next fault failed =>
    split at settled
    next expected found =>
      obtain ⟨before, later, split, left⟩ := blames expected found failed
      have length := congrArg List.length split
      rw [List.length_append, List.length_cons] at length
      split at settled
      next taken =>
        rw [left, if_pos taken] at settled
        omega
      next => omega
    next => cases settled

/-- A fault is settled before the tokens that follow the blamed one. -/
theorem settledBefore_of_blamed {expected : Expectation} {found : Token} {later : List Token}
    (failed : reading.outcome = .error (.unexpectedToken expected found))
    (rest : reading.rest = if expected.isTaken then later else found :: later) :
    reading.SettledBefore later.length := by
  rw [settledBefore_iff_of_error failed, rest, SyntaxFault.SettledBefore]
  split <;> simp

/-- Two readings in a row are settled by the first, if it fails, or by the second. -/
theorem SettledBefore.cases_bind {first : Reading least tokens α}
    {second : (value : α) → (rest : List Token) → rest.length + least ≤ tokens.length →
      Reading more rest β}
    (settled : (first.bind second).SettledBefore unseen) :
    first.SettledBefore unseen ∨ ∃ value, ∃ done : first.outcome = .ok value,
      (second value first.rest (first.taken value done)).SettledBefore unseen := by
  obtain ⟨outcome, rest, events, suffix, taken⟩ := first
  cases outcome with
  | error fault => exact .inl settled
  | ok value => exact .inr ⟨value, rfl, settled⟩

/-- What is settled for two readings in a row is settled for the first. -/
theorem SettledBefore.of_bind {first : Reading least tokens α}
    {second : (value : α) → (rest : List Token) → rest.length + least ≤ tokens.length →
      Reading more rest β}
    (settled : (first.bind second).SettledBefore unseen)
    (next : ∀ value rest fewer, (second value rest fewer).Blames) :
    first.SettledBefore unseen := by
  rcases settled.cases_bind with sooner | ⟨value, done, inner⟩
  · exact sooner
  · have short := inner.le.trans (second value first.rest _).suffix.length_le
    -- The second reading has blamed no token before its own first one.
    have later : unseen ≠ first.rest.length := by
      rintro rfl
      exact (next _ _ _).not_settledBefore inner
    exact (settledBefore_iff_of_ok done).mpr (lt_of_le_of_ne short later)

end Settled

/-! ## Readings that agree -/

/-- Readings of tokens that differ in what comes later agree: if the first is settled before
that, there are other tokens, and both have the same outcome and leave the same of them. -/
structure Agrees (reading : Reading least tokens α) (reading' : Reading least tokens' α)
    (later later' : List Token) : Prop where
  shared : ∃ shared, tokens = shared ++ later ∧ tokens' = shared ++ later'
  settled : reading.SettledBefore later.length → later.length < tokens.length ∧
    ∃ left, reading.rest = left ++ later ∧ reading'.rest = left ++ later' ∧
      reading'.outcome = reading.outcome

section Agrees

variable {later later' : List Token}

/-- Readings that have no token in common agree. -/
theorem Blames.agrees {reading : Reading least later α} (blames : reading.Blames)
    (reading' : Reading least later' α) : reading.Agrees reading' later later' :=
  ⟨⟨[], rfl, rfl⟩, fun settled => absurd settled blames.not_settledBefore⟩

theorem agrees_pure (value : α) (shared : List Token) :
    (pure value : Reading 0 (shared ++ later) α).Agrees
      (pure value : Reading 0 (shared ++ later') α) later later' :=
  ⟨⟨shared, rfl, rfl⟩, fun settled => ⟨settled, shared, rfl, rfl, rfl⟩⟩

theorem agrees_report (event : Event) (value : α) (shared : List Token) :
    (report event value : Reading 0 (shared ++ later) α).Agrees
      (report event value : Reading 0 (shared ++ later') α) later later' :=
  ⟨⟨shared, rfl, rfl⟩, fun settled => ⟨settled, shared, rfl, rfl, rfl⟩⟩

variable {reading : Reading least tokens α} {reading' : Reading least tokens' α}

/-- Readings agree that have the same outcome and leave the same, if there is a token in
common. -/
theorem agrees_of_same (token : Token) {shared : List Token}
    {reading : Reading least (token :: (shared ++ later)) α}
    {reading' : Reading least (token :: (shared ++ later')) α}
    (same : reading.SettledBefore later.length → ∃ left, reading.rest = left ++ later ∧
      reading'.rest = left ++ later' ∧ reading'.outcome = reading.outcome) :
    reading.Agrees reading' later later' := by
  refine ⟨⟨token :: shared, rfl, rfl⟩, fun settled => ⟨?_, same settled⟩⟩
  rw [List.length_cons, List.length_append]
  omega

theorem agrees_take (token : Token) (value : α) (shared : List Token) :
    (take token value : Reading 1 (token :: (shared ++ later)) α).Agrees
      (take token value : Reading 1 (token :: (shared ++ later')) α) later later' :=
  agrees_of_same token fun _ => ⟨shared, rfl, rfl, rfl⟩

theorem agrees_check {checked : Except SyntaxFault α} {shared : List Token}
    (blames : (check checked : Reading 0 (shared ++ later) α).Blames) :
    (check checked : Reading 0 (shared ++ later) α).Agrees
      (check checked : Reading 0 (shared ++ later') α) later later' := by
  cases shared with
  | nil => exact blames.agrees _
  | cons token shared =>
      apply agrees_of_same token
      cases checked <;> exact fun _ => ⟨token :: shared, rfl, rfl, rfl⟩

theorem Agrees.map (agrees : reading.Agrees reading' later later') (f : α → β) :
    (reading.map f).Agrees (reading'.map f) later later' := by
  refine ⟨agrees.shared, fun settled => ?_⟩
  obtain ⟨longer, left, rest, rest', same⟩ := agrees.settled (settledBefore_map.mp settled)
  exact ⟨longer, left, rest, rest', by simp only [Reading.map, same]⟩

theorem Agrees.after (agrees : reading.Agrees reading' later later') (token : Token) :
    (reading.after token).Agrees (reading'.after token) later later' := by
  obtain ⟨shared, rfl, rfl⟩ := agrees.shared
  exact agrees_of_same token fun settled => (agrees.settled settled).2

theorem Agrees.weaken {fewer : Nat} {le le' : Nat.ble fewer least = true}
    (agrees : reading.Agrees reading' later later') :
    (reading.weaken fewer le).Agrees (reading'.weaken fewer le') later later' :=
  ⟨agrees.shared, agrees.settled⟩

section Bind

variable {first : Reading least tokens α} {first' : Reading least tokens' α}
  {second : (value : α) → (rest : List Token) → rest.length + least ≤ tokens.length →
    Reading more rest β}
  {second' : (value : α) → (rest : List Token) → rest.length + least ≤ tokens'.length →
    Reading more rest β}

theorem Agrees.bind (agrees : first.Agrees first' later later')
    (next : ∀ value left fewer fewer', (second value (left ++ later) fewer).Agrees
      (second' value (left ++ later') fewer') later later') :
    (first.bind second).Agrees (first'.bind second') later later' := by
  obtain ⟨shared, rfl, rfl⟩ := agrees.shared
  refine ⟨⟨shared, rfl, rfl⟩, fun settled => ?_⟩
  have sooner : first.SettledBefore later.length := by
    rcases settled.cases_bind with sooner | ⟨value, done, inner⟩
    · exact sooner
    -- The second reading starts before what comes later, since it is settled before that.
    have reaches := inner.le.trans (second value first.rest _).suffix.length_le
    obtain ⟨left, whole⟩ := List.suffix_of_suffix_length_le (List.suffix_append shared later)
      first.suffix reaches
    have fewer := first.taken value done
    obtain ⟨outcome, rest, _, _, _⟩ := first
    obtain rfl : left ++ later = rest := whole
    have fewer' : (left ++ later').length + least ≤ (shared ++ later').length := by
      simp only [List.length_append] at fewer ⊢
      omega
    exact (settledBefore_iff_of_ok done).mpr ((next value left fewer fewer').settled inner).1
  obtain ⟨longer, left, rest, rest', same⟩ := agrees.settled sooner
  obtain ⟨outcome, _, _, suffix, taken⟩ := first
  obtain ⟨outcome', _, _, suffix', taken'⟩ := first'
  obtain rfl : _ = left ++ later := rest
  obtain rfl : _ = left ++ later' := rest'
  obtain rfl : outcome' = outcome := same
  cases outcome' with
  | error fault => exact ⟨longer, left, rfl, rfl, rfl⟩
  | ok value =>
      exact ⟨longer, ((next value left (taken value rfl) (taken' value rfl)).settled settled).2⟩

/-- If the second reading looks at its first token, it is enough that both agree where
there is one in common. -/
theorem Agrees.bind_of_blames (agrees : first.Agrees first' later later')
    (blames : ∀ value rest fewer, (second value rest fewer).Blames)
    (next : ∀ value token left fewer fewer', (second value (token :: (left ++ later)) fewer).Agrees
      (second' value (token :: (left ++ later')) fewer') later later') :
    (first.bind second).Agrees (first'.bind second') later later' := by
  refine agrees.bind fun value left fewer fewer' => ?_
  cases left with
  | nil => exact (blames value later fewer).agrees _
  | cons token left => exact next value token left fewer fewer'

end Bind

end Agrees

end Reading

namespace Grammar

open Reading

section Agreement

variable {finish finish' : Location} {later later' : List Token}

/-! ## Single tokens -/

theorem agrees_unexpected {α : Type} {least : Nat} (expected : Expectation) (token : Token)
    (shared : List Token) :
    (fail (unexpected finish expected (token :: (shared ++ later))) :
        Reading least (token :: (shared ++ later)) α).Agrees
      (fail (unexpected finish' expected (token :: (shared ++ later'))) :
        Reading least (token :: (shared ++ later')) α) later later' := by
  apply agrees_of_same token
  simp only [unexpected]
  split
  next => exact fun settled => settled.elim
  next => exact fun _ => ⟨token :: shared, rfl, rfl, rfl⟩

theorem agrees_expectWith {α : Type} {expected : Expectation} (taken : expected.isTaken)
    (accept : TokenKind → Option α) (shared : List Token) :
    (expectWith finish expected accept (shared ++ later)).Agrees
      (expectWith finish' expected accept (shared ++ later')) later later' := by
  cases shared with
  | nil => exact (blames_expectWith finish taken accept later).agrees _
  | cons token shared =>
      rw [List.cons_append, List.cons_append, expectWith, expectWith]
      split
      next => exact agrees_of_same token fun settled => settled.elim
      next =>
        split
        next value _ => exact agrees_take token value shared
        next => exact agrees_of_same token fun _ => ⟨shared, rfl, rfl, rfl⟩

theorem agrees_expect (kind : TokenKind) (construct : Construct) (shared : List Token) :
    (expect finish kind construct (shared ++ later)).Agrees
      (expect finish' kind construct (shared ++ later')) later later' :=
  agrees_expectWith rfl _ shared

theorem agrees_expectIdentifier (construct : Construct) (shared : List Token) :
    (expectIdentifier finish construct (shared ++ later)).Agrees
      (expectIdentifier finish' construct (shared ++ later')) later later' :=
  agrees_expectWith rfl _ shared

theorem agrees_expectInteger (construct : Construct) (shared : List Token) :
    (expectInteger finish construct (shared ++ later)).Agrees
      (expectInteger finish' construct (shared ++ later')) later later' :=
  agrees_expectWith rfl _ shared

theorem agrees_skip (kind : TokenKind) (shared : List Token) :
    (skip kind (shared ++ later)).Agrees (skip kind (shared ++ later')) later later' := by
  cases shared with
  | nil => exact (blames_skip kind later).agrees _
  | cons token shared =>
      rw [List.cons_append, List.cons_append, skip, skip]
      split
      next => exact (agrees_take token () shared).weaken
      next => exact agrees_pure () (token :: shared)

/-! ## Expressions -/

/-- An operand that starts with a name is not settled before the token after the name. -/
theorem not_settledBefore_primary (finish : Location) (name : String) (span : Span)
    (tokens : List Token) :
    ¬ (primary finish (⟨.identifier name, span⟩ :: tokens)).SettledBefore tokens.length := by
  rw [primary.eq_def]
  intro settled
  rcases tokens with _ | ⟨⟨kind, opening⟩, rest⟩
  · exact Nat.lt_irrefl _ settled
  cases kind with
  | symbol mark =>
      cases mark with
      | leftParen =>
          have short := (callTail finish opening.start name rest).suffix.length_le
          exact Nat.lt_irrefl _ (settled.le.trans short)
      | leftBracket =>
          have short := ((binary finish BinaryOperator.loosest rest).bind fun index rest _ =>
            (expect finish (.symbol .rightBracket) .index rest).map fun _ =>
              Node.element name index).suffix.length_le
          exact Nat.lt_irrefl _ (settled.le.trans short)
      | _ => exact Nat.lt_irrefl _ settled
  | _ => exact Nat.lt_irrefl _ settled

mutual

theorem agrees_binary (level : Nat) (shared : List Token) :
    (binary finish level (shared ++ later)).Agrees (binary finish' level (shared ++ later'))
      later later' := by
  cases level with
  | zero =>
      rw [binary, binary]
      exact agrees_unary shared
  | succ level =>
      rw [binary, binary]
      exact (agrees_binary level shared).bind fun left shared fewer _ =>
        agrees_binaryTail level left shared
termination_by 9 * shared.length + (level + 2)
decreasing_by all_goals (simp only [List.length_append] at *; omega)

theorem agrees_binaryTail (level : Nat) (left : Node) (shared : List Token) :
    (binaryTail finish level left (shared ++ later)).Agrees
      (binaryTail finish' level left (shared ++ later')) later later' := by
  cases shared with
  | nil => exact (blames_binaryTail finish level left later).agrees _
  | cons token shared =>
      rw [List.cons_append, List.cons_append, binaryTail, binaryTail]
      split
      next => exact agrees_pure left (token :: shared)
      next op _ =>
        refine Agrees.weaken (Agrees.after ?_ token)
        exact (agrees_binary level shared).bind fun right shared fewer _ =>
          agrees_binaryTail level (.binary op left right) shared
termination_by 9 * shared.length + (level + 3)
decreasing_by all_goals (simp only [List.length_append, List.length_cons] at *; omega)

theorem agrees_unary (shared : List Token) :
    (unary finish (shared ++ later)).Agrees (unary finish' (shared ++ later')) later later' := by
  cases shared with
  | nil => exact (blames_unary finish later).agrees _
  | cons token shared =>
      have other := agrees_primary (token :: shared)
      rw [List.cons_append, List.cons_append, unary, unary]
      split
      next => exact (((agrees_unary shared).map _).after token).weaken
      next => exact other
termination_by 9 * shared.length + 1
decreasing_by all_goals (simp only [List.length_cons] at *; omega)

theorem agrees_primary (shared : List Token) :
    (primary finish (shared ++ later)).Agrees (primary finish' (shared ++ later'))
      later later' := by
  rcases shared with _ | ⟨⟨kind, span⟩, shared⟩
  · exact (blames_primary finish later).agrees _
  have other : (fail (unexpected finish .expression (⟨kind, span⟩ :: (shared ++ later))) :
      Reading 1 (⟨kind, span⟩ :: (shared ++ later)) Node).Agrees
      (fail (unexpected finish' .expression (⟨kind, span⟩ :: (shared ++ later')))) later later' :=
    agrees_unexpected .expression ⟨kind, span⟩ shared
  rw [List.cons_append, List.cons_append, primary.eq_def, primary.eq_def]
  cases kind with
  | integer value => exact agrees_take _ _ shared
  | identifier name =>
      rcases shared with _ | ⟨⟨kind, opening⟩, shared⟩
      · have unsettled := not_settledBefore_primary finish name span later
        rw [primary.eq_def] at unsettled
        exact ⟨⟨[_], rfl, rfl⟩, fun settled => absurd settled unsettled⟩
      cases kind with
      | symbol mark =>
          cases mark with
          | leftParen =>
              exact (((agrees_callTail opening.start name shared).after _).after _).weaken
          | leftBracket =>
              refine Agrees.weaken (Agrees.after (Agrees.after ?_ _) _)
              exact (agrees_binary _ shared).bind fun index shared _ _ =>
                (agrees_expect _ _ shared).map _
          | _ => exact agrees_take _ _ (_ :: shared)
      | _ => exact agrees_take _ _ (_ :: shared)
  | symbol mark =>
      cases mark with
      | leftParen =>
          refine Agrees.weaken (Agrees.after ?_ _)
          exact (agrees_binary _ shared).bind fun inner shared _ _ =>
            (agrees_expect _ _ shared).map _
      | _ => exact other
  | keyword word => exact other
  | endOfFile => exact other
termination_by 9 * shared.length
decreasing_by all_goals (simp only [List.length_cons, BinaryOperator.loosest]; omega)

theorem agrees_callTail (location : Location) (name : String) (shared : List Token) :
    (callTail finish location name (shared ++ later)).Agrees
      (callTail finish' location name (shared ++ later')) later later' := by
  rw [callTail, callTail]
  refine (agrees_callArguments shared).bind fun arguments shared _ _ => ?_
  refine (agrees_expect _ _ shared).bind fun _ shared _ _ => ?_
  exact agrees_check (blames_checkCall location name arguments)
termination_by 9 * shared.length + 11
decreasing_by omega

theorem agrees_callArguments (shared : List Token) :
    (callArguments finish (shared ++ later)).Agrees (callArguments finish' (shared ++ later'))
      later later' := by
  rcases shared with _ | ⟨⟨kind, span⟩, shared⟩
  · exact (blames_callArguments finish later).agrees _
  have some := agrees_arguments (⟨kind, span⟩ :: shared)
  rw [List.cons_append, List.cons_append] at some ⊢
  rw [callArguments.eq_def, callArguments.eq_def]
  cases kind with
  | symbol mark =>
      cases mark with
      | rightParen => exact agrees_pure [] (_ :: shared)
      | _ => exact some.weaken
  | _ => exact some.weaken
termination_by 9 * shared.length + 10
decreasing_by all_goals (simp only [List.length_cons] at *; omega)

theorem agrees_arguments (shared : List Token) :
    (arguments finish (shared ++ later)).Agrees (arguments finish' (shared ++ later'))
      later later' := by
  rw [arguments, arguments]
  refine (agrees_binary _ shared).bind_of_blames (fun first rest _ => ?_)
    fun first token shared fewer _ => ?_
  · split
    next span rest _ => exact (((blames_arguments finish rest).map _).after _).weaken
    next => exact blames_pure [first]
  obtain ⟨kind, span⟩ := token
  cases kind with
  | symbol mark =>
      cases mark with
      | comma => exact (((agrees_arguments shared).map _).after _).weaken
      | _ => exact agrees_pure [first] (_ :: shared)
  | _ => exact agrees_pure [first] (_ :: shared)
termination_by 9 * shared.length + 9
decreasing_by
  all_goals (simp only [List.length_cons, List.length_append, BinaryOperator.loosest] at *; omega)

end

theorem agrees_expression (shared : List Token) :
    (expression finish (shared ++ later)).Agrees (expression finish' (shared ++ later'))
      later later' :=
  agrees_binary _ shared

/-! ## Statements -/

theorem agrees_assignment (shared : List Token) :
    (assignment finish (shared ++ later)).Agrees (assignment finish' (shared ++ later'))
      later later' := by
  cases shared with
  | nil => exact (blames_assignment finish later).agrees _
  | cons token shared =>
      refine Agrees.weaken ((agrees_unary (token :: shared)).bind fun operand shared _ _ => ?_)
      refine (agrees_check (blames_checkTarget _ operand)).bind fun target shared _ _ => ?_
      refine (agrees_expect _ _ shared).bind fun _ shared _ _ => ?_
      exact (agrees_expression shared).map _

theorem not_settledBefore_assignment (finish : Location) (name : String) (span : Span)
    (tokens : List Token) :
    ¬ (assignment finish (⟨.identifier name, span⟩ :: tokens)).SettledBefore tokens.length := by
  intro settled
  have operand : (unary finish (⟨.identifier name, span⟩ :: tokens)).SettledBefore
      tokens.length := by
    refine SettledBefore.of_bind settled fun operand rest _ => ?_
    refine (blames_checkTarget _ operand).bind fun target rest _ => ?_
    exact (blames_expect finish _ _ rest).bind fun _ rest _ => (blames_expression finish rest).map _
  rw [unary] at operand
  exact not_settledBefore_primary finish name span tokens operand

/-- A statement that starts with a name is not settled before the token after the name. -/
theorem not_settledBefore_statement (finish : Location) (name : String) (span : Span)
    (tokens : List Token) :
    ¬ (statement finish (⟨.identifier name, span⟩ :: tokens)).SettledBefore tokens.length := by
  have assigns := not_settledBefore_assignment finish name span tokens
  rw [statement.eq_def]
  intro settled
  replace settled := settled.of_bind fun _ rest _ => (blames_skip _ rest).map _
  rcases tokens with _ | ⟨⟨kind, opening⟩, rest⟩
  · exact assigns settled
  cases kind with
  | symbol mark =>
      cases mark with
      | leftParen =>
          have short := (callTail finish opening.start name rest).suffix.length_le
          exact Nat.lt_irrefl _ (settled.le.trans short)
      | _ => exact assigns settled
  | _ => exact assigns settled

mutual

theorem agrees_statements (shared : List Token) :
    (statements finish (shared ++ later)).Agrees (statements finish' (shared ++ later'))
      later later' := by
  cases shared with
  | nil => exact (blames_statements finish later).agrees _
  | cons token shared =>
      have ends : ∀ later, endsStatements (token :: shared ++ later) = endsStatements [token] :=
        fun _ => rfl
      rw [statements, statements, ends, ends]
      split
      next => exact agrees_pure [] (token :: shared)
      next =>
        refine Agrees.weaken ((agrees_statement (token :: shared)).bind fun first shared _ _ => ?_)
        exact (agrees_statements shared).map _
termination_by 2 * shared.length + 1
decreasing_by
  all_goals (simp only [List.length_append, List.length_cons] at *; omega)

theorem agrees_statement (shared : List Token) :
    (statement finish (shared ++ later)).Agrees (statement finish' (shared ++ later'))
      later later' := by
  rcases shared with _ | ⟨⟨kind, span⟩, shared⟩
  · exact (blames_statement finish later).agrees _
  -- A name alone does not tell a call from an assignment.
  by_cases alone : ∃ name, kind = .identifier name ∧ shared = []
  · obtain ⟨name, rfl, rfl⟩ := alone
    have unsettled := not_settledBefore_statement finish name span later
    exact ⟨⟨[_], rfl, rfl⟩, fun settled => absurd settled unsettled⟩
  have other := @agrees_assignment finish finish' later later' (⟨kind, span⟩ :: shared)
  rw [List.cons_append, List.cons_append] at other ⊢
  rw [statement.eq_def, statement.eq_def]
  refine Agrees.bind ?_ fun read shared _ _ => (agrees_skip _ shared).map _
  cases kind with
  | keyword word =>
      cases word with
      | kwIf => exact ((agrees_branchTail shared).after _).weaken
      | kwWhile => exact ((agrees_loopTail shared).after _).weaken
      | kwBegin =>
          refine Agrees.weaken (Agrees.after ?_ _)
          exact (agrees_statements shared).bind fun body shared _ _ =>
            (agrees_expect _ _ shared).map _
      | _ => exact other
  | identifier name =>
      rcases shared with _ | ⟨⟨kind, opening⟩, shared⟩
      · exact absurd ⟨name, rfl, rfl⟩ alone
      cases kind with
      | symbol mark =>
          cases mark with
          | leftParen =>
              exact (((agrees_callTail opening.start name shared).after _).after _).weaken
          | _ => exact other
      | _ => exact other
  | _ => exact other
termination_by 2 * shared.length
decreasing_by all_goals (simp only [List.length_cons] at *; omega)

theorem agrees_branchTail (shared : List Token) :
    (branchTail finish (shared ++ later)).Agrees (branchTail finish' (shared ++ later'))
      later later' := by
  rw [branchTail, branchTail]
  refine Agrees.weaken ((agrees_expression shared).bind fun condition shared _ _ => ?_)
  refine (agrees_expect _ _ shared).bind fun _ shared _ _ => ?_
  refine (agrees_statements shared).bind fun consequent shared _ _ => ?_
  refine (agrees_alternative shared).bind fun alternative shared _ _ => ?_
  exact (agrees_expect _ _ shared).map _
termination_by 2 * shared.length + 1
decreasing_by all_goals (simp only [List.length_append] at *; omega)

theorem agrees_alternative (shared : List Token) :
    (alternative finish (shared ++ later)).Agrees (alternative finish' (shared ++ later'))
      later later' := by
  rcases shared with _ | ⟨⟨kind, span⟩, shared⟩
  · exact (blames_alternative finish later).agrees _
  rw [alternative.eq_def, alternative.eq_def]
  cases kind with
  | keyword word =>
      cases word with
      | kwElse => exact (((agrees_statements shared).map _).after _).weaken
      | _ => exact agrees_pure none (_ :: shared)
  | _ => exact agrees_pure none (_ :: shared)
termination_by 2 * shared.length
decreasing_by all_goals (simp only [List.length_cons] at *; omega)

theorem agrees_loopTail (shared : List Token) :
    (loopTail finish (shared ++ later)).Agrees (loopTail finish' (shared ++ later'))
      later later' := by
  rw [loopTail, loopTail]
  refine Agrees.weaken ((agrees_expression shared).bind fun condition shared _ _ => ?_)
  refine (agrees_expect _ _ shared).bind fun _ shared _ _ => ?_
  refine (agrees_statements shared).bind fun body shared _ _ => ?_
  exact (agrees_expect _ _ shared).map _
termination_by 2 * shared.length + 1
decreasing_by all_goals (simp only [List.length_append] at *; omega)

end

/-! ## Declarations -/

theorem agrees_arrayTail (name : String) (shared : List Token) :
    (arrayTail finish name (shared ++ later)).Agrees (arrayTail finish' name (shared ++ later'))
      later later' := by
  cases shared with
  | nil => exact (blames_arrayTail finish name later).agrees _
  | cons token shared =>
      refine Agrees.weaken ((agrees_expectInteger _ (token :: shared)).bind
        fun size shared _ _ => ?_)
      refine (agrees_expect _ _ shared).bind fun _ shared _ _ => ?_
      exact (agrees_check (blames_checkSize _ name size)).bind fun declared shared _ _ =>
        agrees_report _ declared shared

theorem agrees_declaration (shared : List Token) :
    (declaration finish (shared ++ later)).Agrees (declaration finish' (shared ++ later'))
      later later' := by
  refine (agrees_expectIdentifier _ shared).bind_of_blames (fun name rest _ => ?_)
    fun name token shared _ _ => ?_
  · split
    next span rest _ => exact ((blames_arrayTail finish name rest).after _).weaken
    next => exact blames_pure (Declaration.mk name 1)
  obtain ⟨kind, span⟩ := token
  cases kind with
  | symbol mark =>
      cases mark with
      | leftBracket => exact ((agrees_arrayTail name shared).after _).weaken
      | _ => exact agrees_pure (Declaration.mk name 1) (_ :: shared)
  | _ => exact agrees_pure (Declaration.mk name 1) (_ :: shared)

theorem agrees_declarations (shared : List Token) :
    (declarations finish (shared ++ later)).Agrees (declarations finish' (shared ++ later'))
      later later' := by
  rw [declarations, declarations]
  refine (agrees_declaration shared).bind_of_blames (fun first rest _ => ?_)
    fun first token shared fewer _ => ?_
  · split
    next span rest _ => exact (((blames_declarations finish rest).map _).after _).weaken
    next => exact blames_pure [first]
  obtain ⟨kind, span⟩ := token
  cases kind with
  | symbol mark =>
      cases mark with
      | comma => exact (((agrees_declarations shared).map _).after _).weaken
      | _ => exact agrees_pure [first] (_ :: shared)
  | _ => exact agrees_pure [first] (_ :: shared)
termination_by shared.length
decreasing_by
  simp only [List.length_cons, List.length_append] at *
  omega

theorem agrees_declarationsTail (shared : List Token) :
    (declarationsTail finish (shared ++ later)).Agrees
      (declarationsTail finish' (shared ++ later')) later later' :=
  (agrees_declarations shared).bind fun _ shared _ _ => (agrees_skip _ shared).map _

/-! ## Procedures -/

theorem agrees_parameters (shared : List Token) :
    (parameters finish (shared ++ later)).Agrees (parameters finish' (shared ++ later'))
      later later' := by
  rw [parameters, parameters]
  refine (agrees_expectIdentifier _ shared).bind_of_blames (fun first rest _ => ?_)
    fun first token shared fewer _ => ?_
  · split
    next span rest _ => exact (((blames_parameters finish rest).map _).after _).weaken
    next => exact blames_pure [first]
  obtain ⟨kind, span⟩ := token
  cases kind with
  | symbol mark =>
      cases mark with
      | comma => exact (((agrees_parameters shared).map _).after _).weaken
      | _ => exact agrees_pure [first] (_ :: shared)
  | _ => exact agrees_pure [first] (_ :: shared)
termination_by shared.length
decreasing_by
  simp only [List.length_cons, List.length_append] at *
  omega

theorem agrees_parameterList (shared : List Token) :
    (parameterList finish (shared ++ later)).Agrees (parameterList finish' (shared ++ later'))
      later later' := by
  rcases shared with _ | ⟨⟨kind, span⟩, shared⟩
  · exact (blames_parameterList finish later).agrees _
  have some := @agrees_parameters finish finish' later later' (⟨kind, span⟩ :: shared)
  unfold parameterList
  cases kind with
  | symbol mark =>
      cases mark with
      | rightParen => exact agrees_pure [] (_ :: shared)
      | _ => exact some.weaken
  | _ => exact some.weaken

theorem agrees_locals (shared : List Token) :
    (locals finish (shared ++ later)).Agrees (locals finish' (shared ++ later'))
      later later' := by
  rcases shared with _ | ⟨⟨kind, span⟩, shared⟩
  · exact (blames_locals finish later).agrees _
  unfold locals
  cases kind with
  | keyword word =>
      cases word with
      | kwVar => exact ((agrees_declarationsTail shared).after _).weaken
      | _ => exact agrees_pure [] (_ :: shared)
  | _ => exact agrees_pure [] (_ :: shared)

theorem agrees_header (shared : List Token) :
    (header finish (shared ++ later)).Agrees (header finish' (shared ++ later')) later later' := by
  refine Agrees.weaken ((agrees_expect _ _ shared).bind fun _ shared _ _ => ?_)
  refine (agrees_expectIdentifier _ shared).bind fun name shared _ _ => ?_
  refine (agrees_expect _ _ shared).bind fun _ shared _ _ => ?_
  refine (agrees_parameterList shared).bind fun parameters shared _ _ => ?_
  exact (agrees_expect _ _ shared).map _

theorem agrees_procedureBody (shared : List Token) :
    (procedureBody finish (shared ++ later)).Agrees (procedureBody finish' (shared ++ later'))
      later later' := by
  refine Agrees.weaken ((agrees_expect _ _ shared).bind fun _ shared _ _ => ?_)
  refine (agrees_statements shared).bind fun body shared _ _ => ?_
  refine (agrees_expect _ _ shared).bind fun _ shared _ _ => ?_
  exact (agrees_skip _ shared).map _

theorem agrees_procedure (shared : List Token) :
    (procedure finish (shared ++ later)).Agrees (procedure finish' (shared ++ later'))
      later later' := by
  cases shared with
  | nil => exact (blames_procedure finish later).agrees _
  | cons token shared =>
      refine Agrees.weaken ((agrees_header (token :: shared)).bind fun heading shared _ _ => ?_)
      refine (agrees_locals shared).bind fun declared shared _ _ => ?_
      refine (agrees_procedureBody shared).bind fun body shared _ _ => ?_
      exact (agrees_check (blames_checkReach _ heading declared body)).bind fun node shared _ _ =>
        agrees_report _ node shared

/-! ## Items -/

theorem agrees_item (shared : List Token) :
    (item finish (shared ++ later)).Agrees (item finish' (shared ++ later')) later later' := by
  rcases shared with _ | ⟨⟨kind, span⟩, shared⟩
  · exact (blames_item finish later).agrees _
  have other : (fail (unexpected finish .item (⟨kind, span⟩ :: (shared ++ later))) :
      Reading 1 (⟨kind, span⟩ :: (shared ++ later)) Node).Agrees
      (fail (unexpected finish' .item (⟨kind, span⟩ :: (shared ++ later')))) later later' :=
    agrees_unexpected .item ⟨kind, span⟩ shared
  unfold item
  cases kind with
  | keyword word =>
      cases word with
      | kwVar => exact (((agrees_declarationsTail shared).map _).after _).weaken
      | kwProc => exact agrees_procedure (⟨.keyword .kwProc, span⟩ :: shared)
      | _ => exact other
  | _ => exact other

theorem agrees_items (shared : List Token) :
    (items finish (shared ++ later)).Agrees (items finish' (shared ++ later')) later later' := by
  cases shared with
  | nil => exact (blames_items finish later).agrees _
  | cons token shared =>
      have ends : ∀ later, endsProgram (token :: shared ++ later) = endsProgram [token] :=
        fun _ => rfl
      rw [items, items, ends, ends]
      split
      next => exact agrees_pure [] (token :: shared)
      next =>
        refine Agrees.weaken ((agrees_item (token :: shared)).bind fun first shared fewer _ => ?_)
        exact (agrees_items shared).map _
termination_by shared.length
decreasing_by
  simp only [List.length_cons, List.length_append] at *
  omega

/-- **A program that is settled before some tokens does not depend on them.** -/
theorem agrees_program (shared : List Token) :
    (program finish (shared ++ later)).Agrees (program finish' (shared ++ later'))
      later later' :=
  (agrees_items shared).bind fun _ shared _ _ => agrees_report _ _ shared

end Agreement

end Grammar

/-! ## Streams -/

namespace TokenStream

/-- **Nothing that follows a blamed token mends the fault.** The token stands where reading
has stopped, and all tokens that start like those up to it have the same fault. -/
theorem program_fault_persists {tokens : List Token} {expected : Expectation} {found : Token}
    (failed : ((ofTokens tokens).read Grammar.program).outcome =
      .error (.unexpectedToken expected found)) :
    ∃ index, tokens[index]? = some found ∧
      ((ofTokens tokens).read Grammar.program).stream.tokens =
        tokens.drop (if expected.isTaken then index + 1 else index) ∧
      ∀ tokens', tokens'.take (index + 1) = tokens.take (index + 1) →
        ((ofTokens tokens').read Grammar.program).outcome =
          .error (.unexpectedToken expected found) := by
  obtain ⟨before, later, split, rest⟩ := Grammar.blames_program _ tokens expected found failed
  have settled := Reading.settledBefore_of_blamed failed rest
  rw [List.append_cons] at split
  subst split
  have length : (before ++ [found]).length = before.length + 1 := List.length_append
  refine ⟨before.length, by simp, ?_, fun tokens' same => ?_⟩
  · refine Eq.trans rest ?_
    split <;> simp
  · rw [List.take_left' length] at same
    rw [← List.take_append_drop (before.length + 1) tokens', same]
    obtain ⟨-, left, -, -, persists⟩ :=
      (Grammar.agrees_program (before ++ [found])).settled settled
    exact persists.trans failed

/-- A call whose second argument is missing. -/
def gapTokens : List Token :=
  unplaced [.keyword .kwProc, .identifier "f", .symbol .leftParen, .symbol .rightParen,
    .keyword .kwBegin, .identifier "g", .symbol .leftParen, .integer 1, .symbol .comma,
    .symbol .semicolon, .keyword .kwEnd, .endOfFile]

/-- Whatever follows the semicolon, it is blamed for the gap. -/
theorem program_fault_persists_gap :
    ((ofTokens gapTokens).read Grammar.program).outcome =
      .error (.unexpectedToken .expression ⟨.symbol .semicolon, default⟩) ∧
    ∀ later, ((ofTokens (gapTokens.take 10 ++ later)).read Grammar.program).outcome =
      .error (.unexpectedToken .expression ⟨.symbol .semicolon, default⟩) := by
  have failed : ((ofTokens gapTokens).read Grammar.program).outcome =
      .error (.unexpectedToken .expression ⟨.symbol .semicolon, default⟩) := by
    with_unfolding_all rfl
  refine ⟨failed, fun later => ?_⟩
  obtain ⟨index, found, left, persists⟩ := program_fault_persists failed
  have gap : ((ofTokens gapTokens).read Grammar.program).stream.tokens.length = 3 := by
    with_unfolding_all rfl
  rw [left, List.length_drop] at gap
  obtain rfl : index = 9 := by
    change 12 - index = 3 at gap
    omega
  exact persists _ rfl

end TokenStream

end ProcLang
