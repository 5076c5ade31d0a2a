import ProcLang.Proofs.Grammar.Derivation

/-!
# What the grammar spells is read

Tokens whose kinds spell a tree are read as that tree, whatever follows them, if
what follows does not go on with it (`reads_program`).

The rule for a level reads an operand and goes on as long as operators of the level
follow, while a derivation of the level has its last operator at the top. So an
expression is said to be readable if reading it comes down to going on after it
(`Readable`): in this form the induction over a derivation follows the rules.
-/

set_option autoImplicit false

namespace ProcLang

/-! ## Readings that succeed -/

namespace Reading

variable {α β : Type} {least more : Nat} {tokens rest : List Token} {value : α} {result : β}

/-- The reading succeeds with a value and leaves some tokens. -/
def Reads (reading : Reading least tokens α) (value : α) (rest : List Token) : Prop :=
  reading.outcome = .ok value ∧ reading.rest = rest

theorem reads_pure (value : α) : (pure value : Reading 0 tokens α).Reads value tokens :=
  ⟨rfl, rfl⟩

theorem reads_take (token : Token) (value : α) :
    (take token value : Reading 1 (token :: tokens) α).Reads value tokens :=
  ⟨rfl, rfl⟩

theorem reads_report (event : Event) (value : α) :
    (report event value : Reading 0 tokens α).Reads value tokens :=
  ⟨rfl, rfl⟩

theorem reads_check {checked : Except SyntaxFault α} (holds : checked = .ok value) :
    (check checked : Reading 0 tokens α).Reads value tokens := by
  subst holds
  exact ⟨rfl, rfl⟩

theorem Reads.map {reading : Reading least tokens α} (reads : reading.Reads value rest)
    (f : α → β) : (reading.map f).Reads (f value) rest := by
  obtain ⟨outcome, left⟩ := reads
  refine ⟨?_, left⟩
  simp only [Reading.map, outcome]

theorem Reads.bind {first : Reading least tokens α}
    {second : (value : α) → (rest : List Token) → rest.length + least ≤ tokens.length →
      Reading more rest β} {final : List Token} (reads : first.Reads value rest)
    (next : ∀ fewer, (second value rest fewer).Reads result final) :
    (first.bind second).Reads result final := by
  obtain ⟨outcome, rfl⟩ := reads
  obtain ⟨outcome', left', -⟩ := @bind_of_ok _ _ _ _ _ first second value outcome
  obtain ⟨done, left⟩ := next (first.taken value outcome)
  exact ⟨outcome'.trans done, left'.trans left⟩

theorem Reads.after {reading : Reading least tokens α} (reads : reading.Reads value rest)
    (token : Token) : (reading.after token).Reads value rest :=
  reads

theorem Reads.weaken {reading : Reading least tokens α} {fewer : Nat}
    {le : Nat.ble fewer least = true}
    (reads : reading.Reads value rest) : (reading.weaken fewer le).Reads value rest :=
  reads

end Reading

namespace Grammar

open Reading

/-! ## Tokens and their kinds -/

/-- Tokens start with tokens of given kinds, after which some are left. -/
def Spells : List TokenKind → List Token → List Token → Prop
  | [], tokens, rest => tokens = rest
  | kind :: kinds, tokens, rest =>
      ∃ span later, tokens = ⟨kind, span⟩ :: later ∧ Spells kinds later rest

section Spells

variable {kinds kinds' : List TokenKind} {tokens rest : List Token}

theorem spells_append :
    Spells (kinds ++ kinds') tokens rest ↔
      ∃ later, Spells kinds tokens later ∧ Spells kinds' later rest := by
  induction kinds generalizing tokens with
  | nil =>
      constructor
      · exact fun spelled => ⟨tokens, rfl, spelled⟩
      · rintro ⟨later, rfl, spelled⟩
        exact spelled
  | cons kind kinds ih =>
      constructor
      · rintro ⟨span, later, rfl, spelled⟩
        obtain ⟨later', spelled, spelled'⟩ := ih.mp spelled
        exact ⟨later', ⟨span, later, rfl, spelled⟩, spelled'⟩
      · rintro ⟨later', ⟨span, later, rfl, spelled⟩, spelled'⟩
        exact ⟨span, later, rfl, ih.mpr ⟨later', spelled, spelled'⟩⟩

theorem spells_map_kind (used rest : List Token) :
    Spells (used.map Token.kind) (used ++ rest) rest := by
  induction used with
  | nil => rfl
  | cons token used ih => exact ⟨token.span, used ++ rest, rfl, ih⟩

theorem divided_singleton (part : List TokenKind) : divided [part] = part :=
  List.intercalate_singleton

/-- Two or more parts are the first one, a comma and the others. -/
theorem spells_divided {first second : List TokenKind} {others : List (List TokenKind)} :
    Spells (divided (first :: second :: others)) tokens rest ↔
      ∃ span later, Spells first tokens (⟨.symbol .comma, span⟩ :: later) ∧
        Spells (divided (second :: others)) later rest := by
  rw [divided, List.intercalate_cons_cons, List.append_assoc, spells_append]
  constructor
  · rintro ⟨_, spelled, span, later, rfl, spelled'⟩
    exact ⟨span, later, spelled, spelled'⟩
  · rintro ⟨span, later, spelled, spelled'⟩
    exact ⟨_, spelled, span, later, rfl, spelled'⟩

theorem head?_divided (kind : TokenKind) (parts : List (List TokenKind)) :
    (divided ((kind :: kinds) :: parts)).head? = some kind := by
  cases parts with
  | nil => rw [divided_singleton]; rfl
  | cons part parts => rw [divided, List.intercalate_cons_cons]; rfl

/-- The kind of the next token. -/
def nextKind (tokens : List Token) : Option TokenKind :=
  tokens.head?.map Token.kind

theorem exists_of_nextKind {kind : TokenKind} (next : nextKind tokens = some kind) :
    ∃ span later, tokens = ⟨kind, span⟩ :: later := by
  cases tokens with
  | nil => cases next
  | cons token later =>
      obtain rfl := Option.some.inj next
      exact ⟨token.span, later, rfl⟩

theorem nextKind_cons_ne {token : Token} {later : List Token} {kind : TokenKind}
    (other : (token.kind == kind) = false) : nextKind (token :: later) ≠ some kind := by
  intro same
  exact ne_of_beq_false other (Option.some.inj same)

theorem Spells.nextKind_eq (spelled : Spells kinds tokens rest) :
    nextKind tokens = kinds.head?.or (nextKind rest) := by
  cases kinds with
  | nil => rw [show tokens = rest from spelled]; rfl
  | cons kind kinds =>
      obtain ⟨span, later, rfl, -⟩ := spelled
      rfl

end Spells

section Single

variable {finish : Location} {tokens rest : List Token}

theorem reads_expect (kind : TokenKind) (construct : Construct) (span : Span)
    (ordinary : kind ≠ .endOfFile := by decide) :
    (expect finish kind construct (⟨kind, span⟩ :: rest)).Reads () rest := by
  unfold expect
  rw [expectWith, if_neg ordinary]
  simp only [if_true]
  exact reads_take _ _

theorem reads_expectIdentifier (name : String) (construct : Construct) (span : Span) :
    (expectIdentifier finish construct (⟨.identifier name, span⟩ :: rest)).Reads name rest :=
  reads_take _ _

theorem reads_expectInteger (value : Int32) (construct : Construct) (span : Span) :
    (expectInteger finish construct (⟨.integer value, span⟩ :: rest)).Reads value rest :=
  reads_take _ _

theorem reads_skip {closed : Bool} (spelled : Spells (closing closed) tokens rest)
    (stop : nextKind rest ≠ some (.symbol .semicolon)) :
    (skip (.symbol .semicolon) tokens).Reads () rest := by
  cases closed with
  | true =>
      obtain ⟨span, _, rfl, rfl⟩ := spelled
      exact ⟨rfl, rfl⟩
  | false =>
      obtain rfl : tokens = rest := spelled
      unfold skip
      split
      next => exact reads_pure ()
      next token tokens =>
        have other : token.kind ≠ .symbol .semicolon := by
          intro same
          exact stop (congrArg some same)
        rw [if_neg other]
        exact reads_pure ()

end Single

/-! ## Expressions -/

/-- A token in front of which an expression of a level ends. -/
def Closes (level : Nat) (kind : TokenKind) : Prop :=
  kind ≠ .symbol .leftParen ∧ kind ≠ .symbol .leftBracket ∧
    ∀ op, BinaryOperator.ofKind? kind = some op → level < op.looseness

/-- What follows does not prolong an expression of a level. -/
def Stops (level : Nat) (rest : List Token) : Prop :=
  ∀ kind ∈ nextKind rest, Closes level kind

/-- What follows does not go on with an expression of given kinds. -/
def Halts (level : Nat) (kinds : List TokenKind) (rest : List Token) : Prop :=
  ∀ next ∈ nextKind rest, ¬ Prolongs level kinds next

section Stops

variable {level level' : Nat} {kinds : List TokenKind} {rest : List Token}

theorem Closes.not_prolongs {kind : TokenKind} (closes : Closes level kind) :
    ¬ Prolongs level kinds kind := by
  obtain ⟨noCall, noElement, looser⟩ := closes
  rintro (⟨op, known, le⟩ | ⟨call | element, -⟩)
  · exact absurd (looser op known) (Nat.not_lt.mpr le)
  · exact noCall call
  · exact noElement element

theorem Stops.halts (stops : Stops level rest) : Halts level kinds rest :=
  fun kind next => (stops kind next).not_prolongs

theorem halts_nil : Halts level kinds [] := by
  intro next member
  cases member

theorem Halts.mono (halts : Halts level' kinds rest) (le : level ≤ level') :
    Halts level kinds rest := by
  intro kind next prolongs
  refine halts kind next (prolongs.imp_left ?_)
  rintro ⟨op, known, within⟩
  exact ⟨op, known, within.trans le⟩

/-- Only the end of an expression matters for what goes on with it. -/
theorem Prolongs.append {next : TokenKind} (prolongs : Prolongs level kinds next)
    (front : List TokenKind) : Prolongs level (front ++ kinds) next := by
  refine prolongs.imp_right (And.imp_right ?_)
  rintro ⟨front', name, rfl⟩
  exact ⟨front ++ front', name, (List.append_assoc ..).symm⟩

theorem Halts.of_append {front : List TokenKind} (halts : Halts level (front ++ kinds) rest) :
    Halts level kinds rest :=
  fun kind next prolongs => halts kind next (prolongs.append front)

theorem Halts.of_cons {kind : TokenKind} (halts : Halts level (kind :: kinds) rest) :
    Halts level kinds rest :=
  @of_append _ _ _ [kind] halts

theorem stops_cons {token : Token} (closes : Closes level token.kind) :
    Stops level (token :: rest) := by
  rintro kind ⟨⟩
  exact closes

/-- An expression ends in front of a word that is no operator and opens nothing. -/
theorem closes_of_none {kind : TokenKind} (noOperator : BinaryOperator.ofKind? kind = none)
    (noOpening : (kind == .symbol .leftParen || kind == .symbol .leftBracket) = false) :
    Closes level kind := by
  obtain ⟨noCall, noElement⟩ := Bool.or_eq_false_iff.mp noOpening
  refine ⟨ne_of_beq_false noCall, ne_of_beq_false noElement, fun op known => ?_⟩
  rw [noOperator] at known
  cases known

/-- What binds tighter ends in front of an operator. -/
theorem closes_kind (op : BinaryOperator) (tighter : level < op.looseness) :
    Closes level op.kind := by
  refine ⟨by cases op <;> nofun, by cases op <;> nofun, fun other known => ?_⟩
  rw [op.ofKind?_kind] at known
  obtain rfl := Option.some.inj known
  exact tighter

end Stops

section Expressions

variable (finish : Location)

/-- Going on after an operand of a level: nothing is left to do at level zero, and
operators of the level may follow at the others. -/
def GoesOn : Nat → Node → List Token → Node → List Token → Prop
  | 0, left, rest, value, final => value = left ∧ final = rest
  | level + 1, left, rest, value, final => (binaryTail finish level left rest).Reads value final

/-- Reading an expression of a level comes down to going on after it. -/
def Readable (level : Nat) (kinds : List TokenKind) (tree : Node) : Prop :=
  ∀ tokens rest value final, Spells kinds tokens rest → Halts (level - 1) kinds rest →
    GoesOn finish level tree rest value final → (binary finish level tokens).Reads value final

variable {finish} {level : Nat} {kinds : List TokenKind} {tree : Node} {tokens rest : List Token}

theorem goesOn_of_halts (left : Node) (halts : Halts level kinds rest) :
    GoesOn finish level left rest left rest := by
  cases level with
  | zero => exact ⟨rfl, rfl⟩
  | succ level =>
      change (binaryTail finish level left rest).Reads left rest
      cases rest with
      | nil =>
          rw [binaryTail]
          exact reads_pure left
      | cons token tokens =>
        rw [binaryTail]
        have none : BinaryOperator.ofKindAt? (level + 1) token.kind = none := by
          refine Option.filter_eq_none_iff.mpr fun op known same => ?_
          exact halts token.kind rfl (.inl ⟨op, known, (beq_iff_eq.mp same).le⟩)
        rw [none]
        exact reads_pure left

theorem Readable.reads_of_halts (readable : Readable finish level kinds tree)
    (spelled : Spells kinds tokens rest) (halts : Halts level kinds rest) :
    (binary finish level tokens).Reads tree rest :=
  readable tokens rest tree rest spelled (halts.mono (Nat.sub_le _ _)) (goesOn_of_halts tree halts)

theorem Readable.reads (readable : Readable finish level kinds tree)
    (spelled : Spells kinds tokens rest) (stops : Stops level rest) :
    (binary finish level tokens).Reads tree rest :=
  readable.reads_of_halts spelled stops.halts

/-- At level zero an operand has to be read. -/
theorem readable_of_unary
    (reads : ∀ tokens rest, Spells kinds tokens rest → Halts 0 kinds rest →
      (Grammar.unary finish tokens).Reads tree rest) : Readable finish 0 kinds tree := by
  rintro tokens rest value final spelled halts ⟨rfl, rfl⟩
  rw [binary]
  exact reads tokens final spelled halts

/-- The tokens that start an expression. -/
inductive StartsOperand : TokenKind → Prop
  | constant (value : Int32) : StartsOperand (.integer value)
  | named (name : String) : StartsOperand (.identifier name)
  | enclosed : StartsOperand (.symbol .leftParen)
  | operator (op : UnaryOperator) : StartsOperand op.kind

theorem IsExpression.starts (spelled : IsExpression level kinds tree) :
    ∃ kind more, kinds = kind :: more ∧ StartsOperand kind := by
  induction spelled with
  | constant value => exact ⟨_, _, rfl, .constant value⟩
  | reference name => exact ⟨_, _, rfl, .named name⟩
  | element name _ _ => exact ⟨_, _, rfl, .named name⟩
  | call name _ _ _ _ => exact ⟨_, _, rfl, .named name⟩
  | enclosed _ _ => exact ⟨_, _, rfl, .enclosed⟩
  | unary op _ _ => exact ⟨_, _, rfl, .operator op⟩
  | looser _ ih => exact ih
  | binary op _ _ _ ih _ =>
      obtain ⟨kind, more, rfl, starts⟩ := ih
      exact ⟨kind, _, rfl, starts⟩

theorem not_startsOperand_rightParen : ¬ StartsOperand (.symbol .rightParen) := by
  generalize same : TokenKind.symbol .rightParen = kind
  rintro (_ | _ | _ | op)
  · cases same
  · cases same
  · cases same
  · cases op <;> cases same

/-- An operand without an operator in front is read by its own rule. -/
theorem unary_eq_primary {token : Token} (plain : UnaryOperator.ofKind? token.kind = none) :
    Grammar.unary finish (token :: rest) = primary finish (token :: rest) := by
  rw [Grammar.unary, plain]

theorem reads_arguments {arguments : List (Phrase Node)} (nonempty : arguments ≠ [])
    (all : ∀ argument ∈ arguments,
      Readable finish BinaryOperator.loosest argument.kinds argument.tree) {closing : Span}
    (spelled : Spells (divided (arguments.map Phrase.kinds)) tokens
      (⟨.symbol .rightParen, closing⟩ :: rest)) :
    (Grammar.arguments finish tokens).Reads (arguments.map Phrase.tree)
      (⟨.symbol .rightParen, closing⟩ :: rest) := by
  induction arguments generalizing tokens with
  | nil => exact absurd rfl nonempty
  | cons argument others ih =>
      have readable := all argument List.mem_cons_self
      rw [Grammar.arguments]
      cases others with
      | nil =>
          have stops : Stops BinaryOperator.loosest (⟨.symbol .rightParen, closing⟩ :: rest) :=
            stops_cons (closes_of_none rfl rfl)
          rw [List.map_singleton, divided_singleton] at spelled
          exact (readable.reads spelled stops).bind fun _ => reads_pure _
      | cons second others =>
          obtain ⟨span, later, spelled, spelled'⟩ := spells_divided.mp spelled
          have stops : Stops BinaryOperator.loosest (⟨.symbol .comma, span⟩ :: later) :=
            stops_cons (closes_of_none rfl rfl)
          have reads := ih (List.cons_ne_nil _ _)
            (fun argument member => all argument (.tail _ member)) spelled'
          exact (readable.reads spelled stops).bind fun _ => ((reads.map _).after _).weaken

theorem reads_callTail (location : Location) {name : String} {arguments : List (Phrase Node)}
    (all : ∀ argument ∈ arguments,
      IsExpression BinaryOperator.loosest argument.kinds argument.tree)
    (readable : ∀ argument ∈ arguments,
      Readable finish BinaryOperator.loosest argument.kinds argument.tree)
    (callable : Node.Callable name (arguments.map Phrase.tree))
    (whole : Spells (divided (arguments.map Phrase.kinds) ++ [.symbol .rightParen]) tokens rest) :
    (callTail finish location name tokens).Reads (.call name (arguments.map Phrase.tree)) rest := by
  obtain ⟨_, spelled, closing, rest, rfl, rfl⟩ := spells_append.mp whole
  have checked : checkCall location name (arguments.map Phrase.tree) =
      .ok (.call name (arguments.map Phrase.tree)) := by
    unfold Node.Callable at callable
    unfold checkCall
    split at callable
    next unknown => rw [unknown]
    next known =>
      obtain ⟨value, single⟩ := callable
      rw [known, single]
    next known =>
      obtain ⟨target, single, assignable⟩ := callable
      rw [known, single]
      simp only [assignable, if_true]
  have reads : (callArguments finish tokens).Reads (arguments.map Phrase.tree)
      (⟨.symbol .rightParen, closing⟩ :: rest) := by
    cases arguments with
    | nil =>
        obtain rfl : tokens = _ := spelled
        rw [callArguments]
        exact reads_pure _
    | cons argument others =>
        have reads := reads_arguments (List.cons_ne_nil argument others) readable spelled
        rw [callArguments]
        · exact reads.weaken
        · rintro span later rfl
          obtain ⟨kind, more, first, operand⟩ := (all argument List.mem_cons_self).starts
          have next := spelled.nextKind_eq
          rw [List.map_cons, first, head?_divided] at next
          obtain rfl := Option.some.inj next
          exact not_startsOperand_rightParen operand
  rw [callTail]
  exact reads.bind fun _ => (reads_expect _ _ _).bind fun _ => reads_check checked

/-- **Every expression is readable.** -/
theorem IsExpression.readable (spelled : IsExpression level kinds tree) (finish : Location) :
    Readable finish level kinds tree := by
  induction spelled with
  | constant value =>
      refine readable_of_unary fun tokens rest spelled _ => ?_
      obtain ⟨span, _, rfl, rfl⟩ := spelled
      rw [unary_eq_primary rfl, primary]
      exact reads_take _ _
  | reference name =>
      refine readable_of_unary fun tokens rest spelled halts => ?_
      obtain ⟨span, _, rfl, rfl⟩ := spelled
      have last : EndsInName [.identifier name] := ⟨[], name, rfl⟩
      rw [unary_eq_primary rfl, primary]
      · exact reads_take _ _
      · rintro opening later rfl
        exact halts _ rfl (.inr ⟨.inl rfl, last⟩)
      · rintro opening later rfl
        exact halts _ rfl (.inr ⟨.inr rfl, last⟩)
  | element name _ ih =>
      refine readable_of_unary fun tokens rest whole _ => ?_
      obtain ⟨span, _, rfl, opening, _, rfl, inner⟩ := whole
      obtain ⟨_, spelled, closing, rest, rfl, rfl⟩ := spells_append.mp inner
      rw [unary_eq_primary rfl, primary]
      have reads := ih.reads spelled (stops_cons (closes_of_none rfl rfl))
      exact (((reads.bind fun _ => (reads_expect _ _ _).map _).after _).after _).weaken
  | call name arguments all callable ih =>
      refine readable_of_unary fun tokens rest spelled _ => ?_
      obtain ⟨span, _, rfl, opening, _, rfl, spelled⟩ := spelled
      rw [unary_eq_primary rfl, primary]
      have reads := reads_callTail opening.start all ih callable spelled
      exact ((reads.after _).after _).weaken
  | enclosed _ ih =>
      refine readable_of_unary fun tokens rest whole _ => ?_
      obtain ⟨span, _, rfl, inner⟩ := whole
      obtain ⟨_, spelled, closing, rest, rfl, rfl⟩ := spells_append.mp inner
      rw [unary_eq_primary rfl, primary]
      have reads := ih.reads spelled (stops_cons (closes_of_none rfl rfl))
      exact ((reads.bind fun _ => (reads_expect _ _ _).map _).after _).weaken
  | unary op _ ih =>
      refine readable_of_unary fun tokens rest spelled halts => ?_
      obtain ⟨span, later, rfl, spelled⟩ := spelled
      have reads := ih.reads_of_halts spelled halts.of_cons
      rw [Grammar.binary] at reads
      rw [Grammar.unary, op.ofKind?_kind]
      exact ((reads.map _).after _).weaken
  | looser _ ih =>
      intro tokens rest value final spelled halts goesOn
      rw [Grammar.binary]
      exact (ih.reads_of_halts spelled halts).bind fun _ => goesOn
  | @binary op level ofLevel kinds kinds' left right _ _ ih ih' =>
      intro tokens rest value final spelled halts goesOn
      obtain ⟨later, spelled, span, later', rfl, spelled'⟩ := spells_append.mp spelled
      refine ih tokens _ value final spelled (stops_cons (closes_kind op (by omega))).halts ?_
      change (binaryTail finish level left _).Reads value final
      have known : BinaryOperator.ofKindAt? (level + 1) op.kind = some op := by
        rw [BinaryOperator.ofKindAt?, op.ofKind?_kind, Option.filter_some, if_pos]
        simp [ofLevel]
      rw [binaryTail, known]
      have more : (binaryTail finish level (.binary op left right) rest).Reads value final := goesOn
      have second := ih'.reads_of_halts spelled' halts.of_append.of_cons
      exact ((second.bind fun _ => more).after _).weaken

end Expressions

/-! ## Statements -/

section Statements

variable {finish : Location} {kinds : List TokenKind} {tree : Node} {tokens rest : List Token}

/-- The tokens that start a statement. -/
inductive StartsStatement : TokenKind → Prop
  | branch : StartsStatement (.keyword .kwIf)
  | loop : StartsStatement (.keyword .kwWhile)
  | block : StartsStatement (.keyword .kwBegin)
  | named (name : String) : StartsStatement (.identifier name)
  | dereference : StartsStatement (.symbol .star)
  | enclosed : StartsStatement (.symbol .leftParen)

theorem IsStatement.starts {beside : Clause → Clause → Prop}
    (spelled : IsStatement beside kinds tree) :
    ∃ kind more, kinds = kind :: more ∧ StartsStatement kind := by
  cases spelled with
  | assign place assignable term =>
      cases place with
      | constant value => cases assignable
      | reference name => exact ⟨_, _, rfl, .named name⟩
      | element name _ => exact ⟨_, _, rfl, .named name⟩
      | call name _ _ _ => cases assignable
      | enclosed _ => exact ⟨_, _, rfl, .enclosed⟩
      | unary op _ =>
          cases op with
          | dereference => exact ⟨_, _, rfl, .dereference⟩
          | plus => cases assignable
          | minus => cases assignable
          | not => cases assignable
  | call name _ _ _ => exact ⟨_, _, rfl, .named name⟩
  | block _ _ _ => exact ⟨_, _, rfl, .block⟩
  | branch _ _ _ _ => exact ⟨_, _, rfl, .branch⟩
  | branchElse _ _ _ _ _ _ _ => exact ⟨_, _, rfl, .branch⟩
  | loop _ _ _ _ => exact ⟨_, _, rfl, .loop⟩

/-- Neighbours may stand in any relation that follows from the one they stand in. -/
theorem IsStatement.mono {beside beside' : Clause → Clause → Prop}
    (imp : ∀ first second, IsStatement beside second.kinds second.tree →
      beside first second → beside' first second)
    (spelled : IsStatement beside kinds tree) : IsStatement beside' kinds tree := by
  have chains : ∀ {clauses : List Clause}, clauses.IsChain beside →
      (∀ clause ∈ clauses, IsStatement beside clause.kinds clause.tree) →
      clauses.IsChain beside' := fun chain all =>
    chain.imp_of_mem_imp fun first second _ member => imp first second (all second member)
  induction spelled with
  | assign place assignable term => exact .assign place assignable term
  | call name arguments all callable => exact .call name arguments all callable
  | block body chain all ih => exact .block body (chains chain all) ih
  | branch test taken chain all ih => exact .branch test taken (chains chain all) ih
  | branchElse test taken skipped chain chain' all all' ih ih' =>
      exact .branchElse test taken skipped (chains chain all) (chains chain' all') ih ih'
  | loop test body chain all ih => exact .loop test body (chains chain all) ih

theorem IsItem.mono {beside beside' : Clause → Clause → Prop}
    (imp : ∀ first second, IsStatement beside second.kinds second.tree →
      beside first second → beside' first second)
    (spelled : IsItem beside kinds tree) : IsItem beside' kinds tree := by
  cases spelled with
  | declarations spelled => exact .declarations spelled
  | procedure heading spelled body chain all closed reach =>
      refine .procedure heading spelled body ?_ (fun clause member => ?_) closed reach
      · exact chain.imp_of_mem_imp fun first second _ member => imp first second (all second member)
      · exact (all clause member).mono imp

theorem IsProgram.mono {beside beside' : Clause → Clause → Prop}
    (imp : ∀ first second, IsStatement beside second.kinds second.tree →
      beside first second → beside' first second)
    (spelled : IsProgram beside kinds tree) : IsProgram beside' kinds tree := by
  cases spelled with
  | ofItems items all => exact .ofItems items fun item member => (all item member).mono imp

/-- What looks at the second statement only is enough to keep neighbours separate. -/
theorem Clause.Apart.separate {beside : Clause → Clause → Prop} {first second : Clause}
    (spelled : IsStatement beside second.kinds second.tree) (apart : Apart first second) :
    Separate first second := by
  intro isOpen next member prolongs
  obtain ⟨noProduct, noCall⟩ := apart isOpen
  obtain ⟨kind, more, starts, statement⟩ := spelled.starts
  rw [starts] at noProduct noCall member
  obtain rfl := Option.some.inj member
  cases statement with
  | dereference => exact noProduct rfl
  | enclosed => exact noCall rfl
  | _ =>
      rcases prolongs with ⟨op, known, -⟩ | ⟨opening | opening, -⟩
      · cases known
      · cases opening
      · cases opening

/-- Reading a statement comes down to skipping the semicolon after it. -/
def Performable (finish : Location) (kinds : List TokenKind) (tree : Node) : Prop :=
  ∀ tokens rest final, Spells kinds tokens rest →
    (tree.endsOpen → Halts BinaryOperator.loosest kinds rest) →
    (skip (.symbol .semicolon) rest).Reads () final → (statement finish tokens).Reads tree final

/-- The tokens in front of which a list of statements ends. -/
inductive EndsBlock : List Token → Prop
  | final (span : Span) (rest : List Token) : EndsBlock (⟨.keyword .kwEnd, span⟩ :: rest)
  | alternative (span : Span) (rest : List Token) : EndsBlock (⟨.keyword .kwElse, span⟩ :: rest)

/-- What follows a clause is not a semicolon, and it does not go on with an open one. -/
theorem follows_clause {clause : Clause} {others : List Clause}
    (chain : (clause :: others).IsChain Clause.Separate)
    (all : ∀ clause ∈ others, IsStatement Clause.Separate clause.kinds clause.tree)
    (spelled : Spells (others.flatMap Clause.spelling) tokens rest) (ends : EndsBlock rest) :
    nextKind tokens ≠ some (.symbol .semicolon) ∧
      (clause.isOpen → Halts BinaryOperator.loosest clause.kinds tokens) := by
  cases others with
  | nil =>
      obtain rfl : tokens = rest := spelled
      cases ends with
      | final span rest => exact ⟨nofun, fun _ => (stops_cons (closes_of_none rfl rfl)).halts⟩
      | alternative span rest => exact ⟨nofun, fun _ => (stops_cons (closes_of_none rfl rfl)).halts⟩
  | cons second others =>
      obtain ⟨kind, more, first, statement⟩ := (all second List.mem_cons_self).starts
      have next := spelled.nextKind_eq
      rw [List.flatMap_cons, Clause.spelling, first] at next
      obtain ⟨separate, -⟩ := List.isChain_cons_cons.mp chain
      unfold Clause.Separate at separate
      rw [first] at separate
      constructor
      · rw [next]
        cases statement <;> nofun
      · intro isOpen kind' member
        rw [next] at member
        exact separate isOpen kind' member

theorem reads_statements {clauses : List Clause} (chain : clauses.IsChain Clause.Separate)
    (all : ∀ clause ∈ clauses, IsStatement Clause.Separate clause.kinds clause.tree)
    (performable : ∀ clause ∈ clauses, Performable finish clause.kinds clause.tree)
    (spelled : Spells (clauses.flatMap Clause.spelling) tokens rest) (ends : EndsBlock rest) :
    (statements finish tokens).Reads (clauses.map Clause.tree) rest := by
  induction clauses generalizing tokens with
  | nil =>
      obtain rfl : tokens = rest := spelled
      rw [statements, if_pos (by cases ends <;> rfl)]
      exact reads_pure _
  | cons clause others ih =>
      have all' := fun other member => all other (List.mem_cons_of_mem clause member)
      rw [List.flatMap_cons] at spelled
      obtain ⟨later, here, spelled'⟩ := spells_append.mp spelled
      obtain ⟨middle, here, closing⟩ := spells_append.mp here
      obtain ⟨unclosed, halts⟩ := follows_clause chain all' spelled' ends
      have goesOn : endsStatements tokens = false := by
        obtain ⟨kind, more, first, statement⟩ := (all clause List.mem_cons_self).starts
        rw [first] at here
        obtain ⟨span, _, rfl, -⟩ := here
        cases statement <;> rfl
      have halts' : clause.tree.endsOpen → Halts BinaryOperator.loosest clause.kinds middle := by
        intro endsOpen
        cases closed : clause.closed with
        | true =>
            rw [closed] at closing
            obtain ⟨span, _, rfl, -⟩ := closing
            exact (stops_cons (closes_of_none rfl rfl)).halts
        | false =>
            rw [closed] at closing
            obtain rfl : middle = later := closing
            exact halts (by rw [Clause.isOpen, endsOpen, closed]; rfl)
      have reads := performable clause List.mem_cons_self tokens middle later here halts'
        (reads_skip closing unclosed)
      have reads' := ih chain.tail all' (fun other member => performable other (.tail _ member))
        spelled'
      rw [statements, if_neg (Bool.eq_false_iff.mp goesOn)]
      exact (reads.bind fun _ => reads'.map _).weaken

/-- A statement that starts with its target is an assignment. -/
theorem statement_eq_assignment {target : Node} {kinds' : List TokenKind}
    (place : IsExpression 0 kinds target) (assignable : target.isAssignable)
    (spelled : Spells (kinds ++ .symbol .assign :: kinds') tokens rest) :
    statement finish tokens = (assignment finish tokens).bind fun read rest _ =>
      (skip (.symbol .semicolon) rest).map fun _ => read := by
  cases place with
  | constant value => cases assignable
  | reference name =>
      obtain ⟨span, _, rfl, span', later, rfl, -⟩ := spelled
      rw [statement] <;> simp
  | element name _ =>
      obtain ⟨span, _, rfl, span', later, rfl, -⟩ := spelled
      rw [statement] <;> simp
  | call name _ _ _ => cases assignable
  | enclosed _ =>
      obtain ⟨span, later, rfl, -⟩ := spelled
      rw [statement] <;> simp
  | unary op _ =>
      obtain ⟨span, later, rfl, -⟩ := spelled
      cases op with
      | dereference => rw [statement] <;> simp [UnaryOperator.kind]
      | plus => cases assignable
      | minus => cases assignable
      | not => cases assignable

theorem reads_assignment {target value : Node} {kinds' : List TokenKind}
    (place : IsExpression 0 kinds target) (assignable : target.isAssignable)
    (term : IsExpression BinaryOperator.loosest kinds' value)
    (spelled : Spells (kinds ++ .symbol .assign :: kinds') tokens rest)
    (halts : Halts BinaryOperator.loosest (kinds ++ .symbol .assign :: kinds') rest) :
    (assignment finish tokens).Reads (.assign target value) rest := by
  obtain ⟨_, spelled, span, later, rfl, spelled'⟩ := spells_append.mp spelled
  have first := (place.readable finish).reads spelled (stops_cons (closes_of_none rfl rfl))
  rw [binary] at first
  have second := (term.readable finish).reads_of_halts spelled' halts.of_append.of_cons
  have checked : checkTarget (nextLocation finish tokens) target = .ok target := by
    rw [checkTarget, if_pos assignable]
  exact (first.bind fun _ => (reads_check checked).bind fun _ =>
    (reads_expect _ _ _).bind fun _ => second.map _).weaken

/-- **Every statement is performable.** -/
theorem IsStatement.performable (spelled : IsStatement Clause.Separate kinds tree)
    (finish : Location) : Performable finish kinds tree := by
  induction spelled with
  | assign place assignable term =>
      intro tokens rest final spelled halts skips
      rw [statement_eq_assignment place assignable spelled]
      exact (reads_assignment place assignable term spelled (halts rfl)).bind fun _ => skips.map _
  | call name arguments all callable =>
      intro tokens rest final spelled _ skips
      obtain ⟨span, _, rfl, opening, _, rfl, spelled⟩ := spelled
      have reads := reads_callTail opening.start all
        (fun argument member => (all argument member).readable finish) callable spelled
      rw [statement]
      exact ((reads.after _).after _).weaken.bind fun _ => skips.map _
  | block body chain all ih =>
      intro tokens rest final whole _ skips
      obtain ⟨span, _, rfl, inner⟩ := whole
      obtain ⟨_, spelled, closing, _, rfl, rfl⟩ := spells_append.mp inner
      have reads := reads_statements chain all ih spelled (.final _ _)
      rw [statement]
      exact ((reads.bind fun _ => (reads_expect _ _ _).map _).after _).weaken.bind fun _ =>
        skips.map _
  | branch test taken chain all ih =>
      intro tokens rest final whole _ skips
      obtain ⟨span, _, rfl, inner⟩ := whole
      obtain ⟨_, spelled, opening, _, rfl, inner'⟩ := spells_append.mp inner
      obtain ⟨_, spelled', closing, _, rfl, rfl⟩ := spells_append.mp inner'
      have condition := (test.readable finish).reads spelled (stops_cons (closes_of_none rfl rfl))
      have consequent := reads_statements chain all ih spelled' (.final _ _)
      rw [statement, branchTail]
      refine (Reads.after (Reads.weaken (condition.bind fun _ => ?_)) _).weaken.bind fun _ =>
        skips.map _
      refine (reads_expect _ _ _).bind fun _ => consequent.bind fun _ => ?_
      rw [alternative]
      · exact (reads_pure none).bind fun _ => (reads_expect _ _ _).map _
      · simp
  | branchElse test taken skipped chain chain' all all' ih ih' =>
      intro tokens rest final whole _ skips
      obtain ⟨span, _, rfl, inner⟩ := whole
      obtain ⟨_, spelled, opening, _, rfl, inner'⟩ := spells_append.mp inner
      obtain ⟨_, spelled', other, _, rfl, inner''⟩ := spells_append.mp inner'
      obtain ⟨_, spelled'', closing, _, rfl, rfl⟩ := spells_append.mp inner''
      have condition := (test.readable finish).reads spelled (stops_cons (closes_of_none rfl rfl))
      have consequent := reads_statements chain all ih spelled' (.alternative _ _)
      have alternative := reads_statements chain' all' ih' spelled'' (.final _ _)
      rw [statement, branchTail]
      refine (Reads.after (Reads.weaken (condition.bind fun _ => ?_)) _).weaken.bind fun _ =>
        skips.map _
      refine (reads_expect _ _ _).bind fun _ => consequent.bind fun _ => ?_
      rw [Grammar.alternative]
      exact ((alternative.map _).after _).weaken.bind fun _ => (reads_expect _ _ _).map _
  | loop test body chain all ih =>
      intro tokens rest final whole _ skips
      obtain ⟨span, _, rfl, inner⟩ := whole
      obtain ⟨_, spelled, opening, _, rfl, inner'⟩ := spells_append.mp inner
      obtain ⟨_, spelled', closing, _, rfl, rfl⟩ := spells_append.mp inner'
      have condition := (test.readable finish).reads spelled (stops_cons (closes_of_none rfl rfl))
      have reads := reads_statements chain all ih spelled' (.final _ _)
      rw [statement, loopTail]
      refine (Reads.after (Reads.weaken (condition.bind fun _ => ?_)) _).weaken.bind fun _ =>
        skips.map _
      exact (reads_expect _ _ _).bind fun _ => reads.bind fun _ => (reads_expect _ _ _).map _

end Statements

/-! ## Declarations -/

section Items

variable {finish : Location} {kinds : List TokenKind} {tokens rest : List Token}

/-- What follows neither prolongs a list of declarations nor closes it. -/
def Fresh (rest : List Token) : Prop :=
  nextKind rest ≠ some (.symbol .leftBracket) ∧ nextKind rest ≠ some (.symbol .comma) ∧
    nextKind rest ≠ some (.symbol .semicolon)

theorem fresh_cons {token : Token} {later : List Token}
    (other : [.symbol .leftBracket, .symbol .comma, .symbol .semicolon].contains token.kind =
      false) :
    Fresh (token :: later) := by
  simp only [List.contains_cons, List.contains_nil, Bool.or_eq_false_iff] at other
  obtain ⟨bracket, comma, semicolon, -⟩ := other
  exact ⟨nextKind_cons_ne bracket, nextKind_cons_ne comma, nextKind_cons_ne semicolon⟩

theorem reads_declaration {declared : Declaration} (spelling : IsDeclaration kinds declared)
    (spelled : Spells kinds tokens rest) (stop : nextKind rest ≠ some (.symbol .leftBracket)) :
    (declaration finish tokens).Reads declared rest := by
  cases spelling with
  | word name =>
      obtain ⟨span, _, rfl, rfl⟩ := spelled
      refine (reads_expectIdentifier _ _ _).bind fun _ => ?_
      split
      next => exact absurd rfl stop
      next => exact reads_pure _
  | @array name size positive =>
      obtain ⟨span, _, rfl, opening, _, rfl, span', _, rfl, closing, _, rfl, rfl⟩ := spelled
      have checked : ∀ location, checkSize location name size = .ok ⟨name, size.toUInt32⟩ := by
        intro location
        rw [checkSize, if_neg (Int32.not_lt.mpr positive)]
      refine (reads_expectIdentifier _ _ _).bind fun _ => (Reads.after ?_ _).weaken
      refine ((reads_expectInteger _ _ _).bind fun _ => ?_).weaken
      exact (reads_expect _ _ _).bind fun _ => (reads_check (checked _)).bind fun _ =>
        reads_report _ _

theorem reads_declarations {declared : List (Phrase Declaration)} (nonempty : declared ≠ [])
    (all : ∀ entry ∈ declared, IsDeclaration entry.kinds entry.tree)
    (spelled : Spells (divided (declared.map Phrase.kinds)) tokens rest)
    (bracket : nextKind rest ≠ some (.symbol .leftBracket))
    (comma : nextKind rest ≠ some (.symbol .comma)) :
    (declarations finish tokens).Reads (declared.map Phrase.tree) rest := by
  induction declared generalizing tokens with
  | nil => exact absurd rfl nonempty
  | cons entry others ih =>
      have spelling := all entry List.mem_cons_self
      rw [declarations]
      cases others with
      | nil =>
          rw [List.map_singleton, divided_singleton] at spelled
          refine (reads_declaration spelling spelled bracket).bind fun _ => ?_
          split
          next => exact absurd rfl comma
          next => exact reads_pure _
      | cons second others =>
          obtain ⟨span, later, spelled, spelled'⟩ := spells_divided.mp spelled
          have reads := ih (List.cons_ne_nil _ _)
            (fun entry member => all entry (.tail _ member)) spelled'
          exact (reads_declaration spelling spelled (nextKind_cons_ne rfl)).bind fun _ =>
            ((reads.map _).after _).weaken

theorem reads_parameters (finish : Location) {names : List String} (nonempty : names ≠ [])
    (spelled : Spells (divided (names.map fun name => [.identifier name])) tokens rest)
    (comma : nextKind rest ≠ some (.symbol .comma)) :
    (parameters finish tokens).Reads names rest := by
  induction names generalizing tokens with
  | nil => exact absurd rfl nonempty
  | cons name others ih =>
      rw [parameters]
      cases others with
      | nil =>
          rw [List.map_singleton, divided_singleton] at spelled
          obtain ⟨span, _, rfl, rfl⟩ := spelled
          refine (reads_expectIdentifier _ _ _).bind fun _ => ?_
          split
          next => exact absurd rfl comma
          next => exact reads_pure _
      | cons second others =>
          obtain ⟨span, later, ⟨span', _, rfl, rfl⟩, spelled'⟩ := spells_divided.mp spelled
          exact (reads_expectIdentifier _ _ _).bind fun _ =>
            (((ih (List.cons_ne_nil _ _) spelled').map _).after _).weaken

theorem reads_declarationsTail (finish : Location) {declared : List Declaration}
    (spelling : IsDeclarations kinds declared) (spelled : Spells kinds tokens rest)
    (fresh : Fresh rest) :
    ∃ span later, tokens = ⟨.keyword .kwVar, span⟩ :: later ∧
      (declarationsTail finish later).Reads declared rest := by
  obtain ⟨bracket, comma, semicolon⟩ := fresh
  cases spelling with
  | announced declared nonempty all closed =>
      obtain ⟨span, later, rfl, inner⟩ := spelled
      obtain ⟨middle, spelled, closing⟩ := spells_append.mp inner
      have ends : nextKind middle ≠ some (.symbol .leftBracket) ∧
          nextKind middle ≠ some (.symbol .comma) := by
        cases closed with
        | true =>
            obtain ⟨span, _, rfl, -⟩ := closing
            exact ⟨nextKind_cons_ne rfl, nextKind_cons_ne rfl⟩
        | false =>
            obtain rfl : middle = rest := closing
            exact ⟨bracket, comma⟩
      refine ⟨span, later, rfl, ?_⟩
      exact (reads_declarations nonempty all spelled ends.1 ends.2).bind fun _ =>
        (reads_skip closing semicolon).map _

/-! ## Procedures -/

theorem reads_locals {declared : List Declaration} {opening : Span}
    (spelling : IsLocals kinds declared)
    (spelled : Spells kinds tokens (⟨.keyword .kwBegin, opening⟩ :: rest)) :
    (locals finish tokens).Reads declared (⟨.keyword .kwBegin, opening⟩ :: rest) := by
  cases spelling with
  | missing =>
      obtain rfl : tokens = _ := spelled
      exact reads_pure _
  | present spelling =>
      obtain ⟨span, later, rfl, reads⟩ :=
        reads_declarationsTail finish spelling spelled (fresh_cons rfl)
      rw [locals]
      exact (reads.after _).weaken

theorem reads_parameterList {names : List String} {closing : Span}
    (spelled : Spells (divided (names.map fun name => [.identifier name])) tokens
      (⟨.symbol .rightParen, closing⟩ :: rest)) :
    (parameterList finish tokens).Reads names (⟨.symbol .rightParen, closing⟩ :: rest) := by
  cases names with
  | nil =>
      obtain rfl : tokens = _ := spelled
      exact reads_pure _
  | cons name others =>
      have reads := reads_parameters finish (List.cons_ne_nil name others) spelled
        (nextKind_cons_ne rfl)
      have next := spelled.nextKind_eq
      rw [List.map_cons, head?_divided] at next
      unfold parameterList
      split
      next => cases next
      next => exact reads.weaken

theorem reads_header {heading : Header} (spelled : Spells (headerKinds heading) tokens rest) :
    (header finish tokens).Reads heading rest := by
  obtain ⟨span, _, rfl, span', _, rfl, opening, _, rfl, inner⟩ := spelled
  obtain ⟨_, spelled, closing, _, rfl, rfl⟩ := spells_append.mp inner
  refine ((reads_expect _ _ _).bind fun _ => (reads_expectIdentifier _ _ _).bind fun _ => ?_).weaken
  exact (reads_expect _ _ _).bind fun _ => (reads_parameterList spelled).bind fun _ =>
    (reads_expect _ _ _).map _

theorem reads_procedureBody (finish : Location) {body : List Clause}
    (chain : body.IsChain Clause.Separate)
    (all : ∀ clause ∈ body, IsStatement Clause.Separate clause.kinds clause.tree) {closed : Bool}
    (spelled : Spells (.keyword .kwBegin ::
      (body.flatMap Clause.spelling ++ .keyword .kwEnd :: closing closed)) tokens rest)
    (stop : nextKind rest ≠ some (.symbol .semicolon)) :
    (procedureBody finish tokens).Reads (body.map Clause.tree) rest := by
  obtain ⟨span, _, rfl, inner⟩ := spelled
  obtain ⟨_, spelled, span', _, rfl, closing⟩ := spells_append.mp inner
  have reads := reads_statements chain all
    (fun clause member => (all clause member).performable finish) spelled (.final _ _)
  refine ((reads_expect _ _ _).bind fun _ => reads.bind fun _ => ?_).weaken
  exact (reads_expect _ _ _).bind fun _ => (reads_skip closing stop).map _

/-! ## Items -/

/-- An item starts with the word that announces it. -/
theorem IsItem.starts {beside : Clause → Clause → Prop} {tree : Node}
    (spelling : IsItem beside kinds tree) :
    ∃ word more, kinds = .keyword word :: more ∧ (word = .kwVar ∨ word = .kwProc) := by
  cases spelling with
  | declarations spelled =>
      cases spelled with
      | announced _ _ _ _ => exact ⟨_, _, rfl, .inl rfl⟩
  | procedure _ _ _ _ _ _ _ => exact ⟨_, _, rfl, .inr rfl⟩

theorem reads_item {tree : Node} (spelling : IsItem Clause.Separate kinds tree)
    (spelled : Spells kinds tokens rest) (fresh : Fresh rest) :
    (item finish tokens).Reads tree rest := by
  cases spelling with
  | declarations spelling =>
      obtain ⟨span, later, rfl, reads⟩ := reads_declarationsTail finish spelling spelled fresh
      rw [item]
      exact ((reads.map _).after _).weaken
  | @procedure heading kinds locals spelling body chain all closed reach =>
      obtain ⟨middle, heads, inner⟩ := spells_append.mp spelled
      obtain ⟨later, declares, performs⟩ := spells_append.mp inner
      have first : (header finish tokens).Reads heading middle := reads_header heads
      obtain ⟨span, _, rfl, -⟩ := heads
      have third := reads_procedureBody finish chain all performs fresh.2.2
      obtain ⟨opening, _, rfl, -⟩ := performs
      have second : (Grammar.locals finish middle).Reads locals _ := reads_locals spelling declares
      obtain ⟨extent, reached⟩ := Option.isSome_iff_exists.mp reach
      have checked : ∀ location, checkReach location heading locals (body.map Clause.tree) =
          .ok (.procedure heading locals (.block (body.map Clause.tree))) := by
        intro location
        rw [checkReach, reached]
      rw [item, Grammar.procedure]
      refine (first.bind fun _ => second.bind fun _ => third.bind fun _ => ?_).weaken
      exact (reads_check (checked _)).bind fun _ => reads_report _ _

theorem fresh_of_endsProgram (ends : endsProgram rest) : Fresh rest := by
  cases rest with
  | nil => simp [Fresh, nextKind]
  | cons token later =>
      have last : token.kind = .endOfFile := beq_iff_eq.mp ends
      exact fresh_cons (by rw [last]; rfl)

theorem reads_items {phrases : List (Phrase Node)}
    (all : ∀ phrase ∈ phrases, IsItem Clause.Separate phrase.kinds phrase.tree)
    (spelled : Spells (phrases.flatMap Phrase.kinds) tokens rest) (ends : endsProgram rest) :
    (items finish tokens).Reads (phrases.map Phrase.tree) rest := by
  induction phrases generalizing tokens with
  | nil =>
      obtain rfl : tokens = rest := spelled
      rw [items, if_pos ends]
      exact reads_pure _
  | cons phrase others ih =>
      have all' := fun other member => all other (List.mem_cons_of_mem phrase member)
      rw [List.flatMap_cons] at spelled
      obtain ⟨later, here, spelled'⟩ := spells_append.mp spelled
      have spelling := all phrase List.mem_cons_self
      have fresh : Fresh later := by
        cases others with
        | nil =>
            obtain rfl : later = rest := spelled'
            exact fresh_of_endsProgram ends
        | cons second others =>
            obtain ⟨word, more, first, -⟩ := (all' second List.mem_cons_self).starts
            rw [List.flatMap_cons, first] at spelled'
            obtain ⟨span, _, rfl, -⟩ := spelled'
            exact fresh_cons rfl
      have goesOn : endsProgram tokens = false := by
        obtain ⟨word, more, first, -⟩ := spelling.starts
        rw [first] at here
        obtain ⟨span, _, rfl, -⟩ := here
        rfl
      rw [items, if_neg (Bool.eq_false_iff.mp goesOn)]
      exact ((reads_item spelling here fresh).bind fun _ => (ih all' spelled').map _).weaken

/-- **Tokens that spell a program are read as it.** -/
theorem reads_program_of_separate (finish : Location) {tree : Node}
    (spelling : IsProgram Clause.Separate kinds tree) (spelled : Spells kinds tokens rest)
    (ends : endsProgram rest) : (program finish tokens).Reads tree rest := by
  cases spelling with
  | ofItems phrases all => exact (reads_items all spelled ends).bind fun _ => reads_report _ _

theorem reads_program (finish : Location) {tree : Node}
    (spelling : IsProgram Clause.Apart kinds tree) {span : Span}
    (spelled : Spells kinds tokens [⟨.endOfFile, span⟩]) :
    (program finish tokens).Reads tree [⟨.endOfFile, span⟩] :=
  reads_program_of_separate finish (spelling.mono fun _ _ => Clause.Apart.separate) spelled rfl

end Items

end Grammar

/-- **A source text whose tokens spell a program is parsed as it.** -/
theorem parse_of_isProgram {source : String} {used : List Token} {span : Span} {tree : Node}
    (scanned : tokensOf source = .ok (used ++ [⟨.endOfFile, span⟩]))
    (spelling : Grammar.IsProgram Grammar.Clause.Apart (used.map Token.kind) tree) :
    (parse source).1 = .ok tree := by
  have outcome : ((TokenStream.ofTokens (used ++ [⟨.endOfFile, span⟩])).read
      Grammar.program).outcome = .ok tree :=
    (Grammar.reads_program _ spelling (Grammar.spells_map_kind used _)).1
  unfold parse
  rw [scanned]
  simp only [outcome]

end ProcLang
