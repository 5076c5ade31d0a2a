import ProcLang.Proofs.Grammar.Soundness

/-!
# Semicolons that may be left out

A program that is read is read as the same tree without one of its semicolons, unless the
semicolon stands between two assignments of which the first goes on with the target of the
second: a star makes a product of the two, and a parenthesis after a name makes a call
(`Collides`). Then nothing is read, because the sign of the second assignment is left over.

Semicolons and signs of assignments never stand in an expression, so they show what
statement they belong to. `Settles` says what is known of each of them in a spelled text:
without the semicolon the text is spelled as well, or two assignments collide; and after the
sign there is an expression up to a token that does not go on with it. This is proved of
each production from its parts.
-/

set_option autoImplicit false

namespace ProcLang

/-- The tokens that end a statement, an assigned place or the text. -/
def TokenKind.isMark : TokenKind → Bool
  | .symbol .semicolon | .symbol .assign | .endOfFile => true
  | _ => false

namespace Grammar

/-! ## What has no marks -/

/-- No token is a mark. -/
def Unmarked (kinds : List TokenKind) : Prop :=
  ∀ kind ∈ kinds, kind.isMark = false

section Unmarked

variable {kinds kinds' : List TokenKind} {kind : TokenKind} {level : Nat} {tree : Node}

@[simp] theorem unmarked_nil : Unmarked [] :=
  List.forall_mem_nil _

@[simp] theorem unmarked_cons : Unmarked (kind :: kinds) ↔ kind.isMark = false ∧ Unmarked kinds :=
  List.forall_mem_cons

@[simp] theorem unmarked_append : Unmarked (kinds ++ kinds') ↔ Unmarked kinds ∧ Unmarked kinds' :=
  List.forall_mem_append

@[simp] theorem unmarked_divided {parts : List (List TokenKind)} :
    Unmarked (divided parts) ↔ ∀ part ∈ parts, Unmarked part := by
  induction parts with
  | nil => simp [divided]
  | cons part parts ih =>
      cases parts with
      | nil => simp [divided]
      | cons second others =>
          rw [divided, List.intercalate_cons_cons, ← divided, unmarked_append, ih]
          simp [TokenKind.isMark]

theorem isMark_binary (op : BinaryOperator) : op.kind.isMark = false := by
  cases op <;> rfl

theorem isMark_unary (op : UnaryOperator) : op.kind.isMark = false := by
  cases op <;> rfl

theorem IsExpression.unmarked (spelled : IsExpression level kinds tree) : Unmarked kinds := by
  induction spelled with
  | constant value => simp [TokenKind.isMark]
  | reference name => simp [TokenKind.isMark]
  | element name _ ih => simp [TokenKind.isMark, ih]
  | call name arguments _ _ ih => simpa [callKinds, TokenKind.isMark] using ih
  | enclosed _ ih => simp [TokenKind.isMark, ih]
  | unary op _ ih => simp [isMark_unary, ih]
  | looser _ ih => exact ih
  | binary op _ _ _ ih ih' => simp [isMark_binary, ih, ih']

theorem IsDeclaration.unmarked {declared : Declaration} (spelled : IsDeclaration kinds declared) :
    Unmarked kinds := by
  cases spelled <;> simp [TokenKind.isMark]

theorem unmarked_headerKinds (heading : Header) : Unmarked (headerKinds heading) := by
  simp [headerKinds, TokenKind.isMark]

end Unmarked

/-! ## Marks in a text -/

/-- Two assignments with a semicolon between them, of which the first would go on with the
target of the second. -/
def Collides (before after : List TokenKind) : Prop :=
  ∃ earlier value valueTree target targetTree later,
    before = earlier ++ .symbol .assign :: value ∧
      IsExpression BinaryOperator.loosest value valueTree ∧
      after = target ++ .symbol .assign :: later ∧ IsExpression 0 target targetTree ∧
      targetTree.isAssignable ∧ ∃ next ∈ target.head?, Prolongs BinaryOperator.loosest value next

/-- What follows does not go on with an expression, and it is no sign of an assignment. -/
def Ends (kinds rest : List TokenKind) : Prop :=
  ∀ next ∈ rest.head?, ¬ Prolongs BinaryOperator.loosest kinds next ∧ next ≠ .symbol .assign

/-- What follows the sign of an assignment: an expression and what ends it. -/
def IsAssigned (after : List TokenKind) : Prop :=
  ∃ value tree rest, after = value ++ rest ∧
    IsExpression BinaryOperator.loosest value tree ∧ Ends value rest

/-- What is known of a mark with tokens before and after it, and others that follow: without
a semicolon there is a derivation, unless two assignments collide; and an expression
follows the sign of an assignment. -/
structure Settled (derives : List TokenKind → Prop) (mark : TokenKind)
    (before after following : List TokenKind) : Prop where
  semicolon : mark = .symbol .semicolon →
    derives (before ++ after) ∨ Collides before (after ++ following)
  assign : mark = .symbol .assign → IsAssigned (after ++ following)

/-- All marks of a text are settled. -/
def Settles (derives : List TokenKind → Prop) (kinds following : List TokenKind) : Prop :=
  ∀ mark before after, mark.isMark → kinds = before ++ mark :: after →
    Settled derives mark before after following

section Settles

variable {derives derives' derives'' : List TokenKind → Prop}
  {first second following before after : List TokenKind} {mark : TokenKind}

theorem Collides.extend (collides : Collides before after) (front back : List TokenKind) :
    Collides (front ++ before) (after ++ back) := by
  obtain ⟨earlier, value, valueTree, target, targetTree, later, rfl, term, rfl, place⟩ := collides
  exact ⟨front ++ earlier, value, valueTree, target, targetTree, later ++ back, by simp, term,
    by simp, place⟩

theorem settles_of_unmarked {kinds : List TokenKind} (unmarked : Unmarked kinds) :
    Settles derives kinds following := by
  intro mark before after isMark same
  have none := unmarked mark (by simp [same])
  rw [isMark] at none
  cases none

theorem Settles.imp {kinds : List TokenKind} (settles : Settles derives kinds following)
    (holds : ∀ kinds, derives kinds → derives' kinds) : Settles derives' kinds following := by
  intro mark before after isMark same
  have settled := settles mark before after isMark same
  exact ⟨fun semicolon => (settled.semicolon semicolon).imp_left (holds _), settled.assign⟩

/-- A member of two lists in a row is a member of the first or of the second. -/
theorem exists_of_append_eq {α : Type} {first second before after : List α} {one : α}
    (same : first ++ second = before ++ one :: after) :
    (∃ middle, first = before ++ one :: middle ∧ after = middle ++ second) ∨
      ∃ middle, before = first ++ middle ∧ second = middle ++ one :: after := by
  rcases List.append_eq_append_iff.mp same with ⟨middle, rfl, rfl⟩ | ⟨middle, rfl, split⟩
  · exact .inr ⟨middle, rfl, rfl⟩
  · cases middle with
    | nil => exact .inr ⟨[], by simp, by simpa using split.symm⟩
    | cons head middle =>
        obtain ⟨rfl, rfl⟩ := List.cons.inj split
        exact .inl ⟨middle, rfl, rfl⟩

theorem Settled.append (settled : Settled derives mark before after (second ++ following))
    (holds : ∀ kinds, derives kinds → derives' (kinds ++ second)) :
    Settled derives' mark before (after ++ second) following := by
  constructor
  · intro semicolon
    refine (settled.semicolon semicolon).imp (fun derived => ?_) fun collides => ?_
    · simpa using holds _ derived
    · simpa using collides
  · intro assign
    simpa using settled.assign assign

/-- Two texts in a row settle their marks if each does, with what follows it. -/
theorem Settles.join (left : Settles derives first (second ++ following))
    (right : Settles derives' second following)
    (holds : ∀ kinds, derives kinds → derives'' (kinds ++ second))
    (holds' : ∀ kinds, derives' kinds → derives'' (first ++ kinds)) :
    Settles derives'' (first ++ second) following := by
  intro mark before after isMark same
  rcases exists_of_append_eq same with ⟨middle, rfl, rfl⟩ | ⟨middle, rfl, rfl⟩
  · exact (left mark before middle isMark rfl).append holds
  · have settled := right mark middle after isMark rfl
    constructor
    · intro semicolon
      refine (settled.semicolon semicolon).imp (fun derived => ?_) fun collides => ?_
      · simpa using holds' _ derived
      · simpa using collides.extend first []
    · exact settled.assign

/-- A text behind one without marks. -/
theorem Settles.prepend (unmarked : Unmarked first)
    (right : Settles (fun kinds => derives (first ++ kinds)) second following) :
    Settles derives (first ++ second) following :=
  (settles_of_unmarked unmarked : Settles (fun _ => False) first _).join right
    (fun _ => False.elim) fun _ => id

/-- A text between two without marks. -/
theorem Settles.within {kinds : List TokenKind}
    (inner : Settles derives kinds (second ++ following))
    (unmarked : Unmarked first) (unmarked' : Unmarked second)
    (holds : ∀ kinds, derives kinds → derives' (first ++ (kinds ++ second))) :
    Settles derives' (first ++ (kinds ++ second)) following :=
  .prepend unmarked (inner.join (settles_of_unmarked unmarked' : Settles (fun _ => False) second _)
    holds fun _ => False.elim)

/-- A text with a semicolon after it that may be left out. -/
theorem Settles.close {closed : Bool} (left : Settles derives first (closing closed ++ following))
    (holds : ∀ kinds, derives kinds → derives' (kinds ++ closing closed))
    (dropped : closed → derives' first ∨ Collides first following) :
    Settles derives' (first ++ closing closed) following := by
  intro mark before after isMark same
  rcases exists_of_append_eq same with ⟨middle, rfl, rfl⟩ | ⟨middle, rfl, last⟩
  · exact (left mark before middle isMark rfl).append holds
  · cases closed with
    | false => simp [closing] at last
    | true =>
        obtain ⟨rfl, rfl, rfl⟩ : middle = [] ∧ mark = .symbol .semicolon ∧ after = [] := by
          cases middle <;> simp_all [closing]
        exact ⟨fun _ => by simpa using dropped rfl, fun assign => by cases assign⟩

end Settles

/-! ## Statements -/

/-- Another spelling of a statement, with a given start. The statement does not end with an
expression. -/
structure Respells (start : Option TokenKind) (tree : Node) (kinds : List TokenKind) : Prop where
  spelled : IsStatement Clause.Separate kinds tree
  starts : kinds.head? = start
  closed : tree.endsOpen = false

/-- Another spelling of a statement in front of others, with the same start. -/
def Replaces (clause : Clause) (rest : List Clause) (kinds : List TokenKind) : Prop :=
  ∃ clause' : Clause, (clause' :: rest).IsChain Clause.Separate ∧
    IsStatement Clause.Separate clause'.kinds clause'.tree ∧ clause'.tree = clause.tree ∧
    clause'.spelling = kinds ∧ clause'.kinds.head? = clause.kinds.head?

/-- Another spelling of statements in a row, with the same start. -/
def Relists (clauses : List Clause) (kinds : List TokenKind) : Prop :=
  ∃ clauses' : List Clause, clauses'.IsChain Clause.Separate ∧
    (∀ clause ∈ clauses', IsStatement Clause.Separate clause.kinds clause.tree) ∧
    clauses'.map Clause.tree = clauses.map Clause.tree ∧
    clauses'.flatMap Clause.spelling = kinds ∧
    (clauses'.head?.map fun clause => clause.kinds.head?) =
      clauses.head?.map fun clause => clause.kinds.head?

section Statements

variable {kinds kinds' following : List TokenKind} {tree tree' : Node} {clause : Clause}
  {clauses : List Clause}

theorem ends_of_closes {kind : TokenKind} (first : following.head? = some kind)
    (closes : Closes BinaryOperator.loosest kind) (other : kind ≠ .symbol .assign) :
    Ends kinds following := by
  intro next member
  rw [first] at member
  obtain rfl := Option.some.inj member
  exact ⟨closes.not_prolongs, other⟩

theorem Ends.of_append {front : List TokenKind} (ends : Ends (front ++ kinds) following) :
    Ends kinds following := fun next member =>
  ⟨fun prolongs => (ends next member).1 (prolongs.append front), (ends next member).2⟩

theorem Ends.of_cons {kind : TokenKind} (ends : Ends (kind :: kinds) following) :
    Ends kinds following :=
  @of_append _ _ [kind] ends

/-- What follows an open clause ends it. -/
theorem ends_clause (chain : (clause :: clauses).IsChain Clause.Separate)
    (all : ∀ clause ∈ clauses, IsStatement Clause.Separate clause.kinds clause.tree)
    (ends : Ends clause.kinds following) (isOpen : clause.isOpen) :
    Ends clause.kinds (clauses.flatMap Clause.spelling ++ following) := by
  cases clauses with
  | nil => exact ends
  | cons second others =>
      obtain ⟨kind, more, first, statement⟩ := (all second List.mem_cons_self).starts
      intro next member
      obtain rfl : kind = next := by simpa [Clause.spelling, first] using member
      refine ⟨(List.isChain_cons_cons.mp chain).1 isOpen kind (by rw [first]; rfl), ?_⟩
      cases statement <;> simp

/-- An assignment that goes on with the start of a statement collides with it. -/
theorem collides_of_prolongs {beside beside' : Clause → Clause → Prop}
    (first : IsStatement beside kinds tree) (endsOpen : tree.endsOpen)
    (second : IsStatement beside' kinds' tree') {next : TokenKind} (starts : next ∈ kinds'.head?)
    (prolongs : Prolongs BinaryOperator.loosest kinds next) : Collides kinds kinds' := by
  cases first with
  | assign place assignable term =>
      have goesOn := (prolongs.of_append (List.cons_ne_nil _ _)).of_cons term.ne_nil
      cases second with
      | assign place' assignable' term' =>
          refine ⟨_, _, _, _, _, _, rfl, term, rfl, place', assignable', next, ?_, goesOn⟩
          rwa [List.head?_append_of_ne_nil _ place'.ne_nil] at starts
      | _ =>
          obtain rfl := Option.some.inj starts
          exact absurd prolongs (closes_of_none rfl rfl).not_prolongs
  | _ => cases endsOpen

theorem Replaces.relists {rest : List Clause} (replaces : Replaces clause rest kinds)
    (all : ∀ clause ∈ rest, IsStatement Clause.Separate clause.kinds clause.tree) :
    Relists (clause :: rest) (kinds ++ rest.flatMap Clause.spelling) := by
  obtain ⟨clause', chain, spelled, tree, rfl, starts⟩ := replaces
  exact ⟨clause' :: rest, chain, List.forall_mem_cons.mpr ⟨spelled, all⟩, by simp [tree], rfl,
    by simp [starts]⟩

theorem Relists.cons (relists : Relists clauses kinds)
    (chain : (clause :: clauses).IsChain Clause.Separate)
    (spelled : IsStatement Clause.Separate clause.kinds clause.tree) :
    Relists (clause :: clauses) (clause.spelling ++ kinds) := by
  obtain ⟨clauses', chain', all, trees, rfl, starts⟩ := relists
  refine ⟨clause :: clauses', List.isChain_cons.mpr ⟨fun second member => ?_, chain'⟩,
    List.forall_mem_cons.mpr ⟨spelled, all⟩, by simp [trees], rfl, rfl⟩
  -- Whether a clause is separate from the next depends only on how the next one starts.
  rw [Option.mem_def.mp member] at starts
  obtain ⟨second', member', starts'⟩ := Option.map_eq_some_iff.mp starts.symm
  have separate := (List.isChain_cons.mp chain).1 second' member'
  unfold Clause.Separate at separate ⊢
  rwa [starts'] at separate

/-- Without the semicolon after it, a clause is still separate from the next one, or it
collides with it. -/
theorem replaces_or_collides {rest : List Clause}
    (chain : (clause :: rest).IsChain Clause.Separate)
    (all : ∀ other ∈ clause :: rest, IsStatement Clause.Separate other.kinds other.tree) :
    Replaces clause rest clause.kinds ∨
      Collides clause.kinds (rest.flatMap Clause.spelling ++ following) := by
  obtain ⟨spelled, all'⟩ := List.forall_mem_cons.mp all
  by_cases separate :
      ∀ second ∈ rest.head?, Clause.Separate ⟨clause.kinds, clause.tree, false⟩ second
  · exact .inl ⟨⟨clause.kinds, clause.tree, false⟩, List.isChain_cons.mpr ⟨separate, chain.tail⟩,
      spelled, rfl, List.append_nil _, rfl⟩
  · simp only [Clause.Separate, not_forall, not_not] at separate
    obtain ⟨second, member, isOpen, next, starts, prolongs⟩ := separate
    obtain ⟨others, rfl⟩ := List.head?_eq_some_iff.mp member
    have endsOpen : clause.tree.endsOpen := by simpa [Clause.isOpen] using isOpen
    have collides := collides_of_prolongs spelled endsOpen (all' second List.mem_cons_self) starts
      prolongs
    refine .inr ?_
    simpa [Clause.spelling] using collides.extend [] (closing second.closed ++
      (others.flatMap Clause.spelling ++ following))

theorem settles_clauses (chain : clauses.IsChain Clause.Separate)
    (all : ∀ clause ∈ clauses, IsStatement Clause.Separate clause.kinds clause.tree)
    (settles : ∀ clause ∈ clauses, ∀ following,
      (clause.tree.endsOpen → Ends clause.kinds following) →
        Settles (Respells clause.kinds.head? clause.tree) clause.kinds following)
    (ends : ∀ kinds, Ends kinds following) :
    Settles (Relists clauses) (clauses.flatMap Clause.spelling) following := by
  induction clauses with
  | nil => exact settles_of_unmarked unmarked_nil
  | cons clause rest ih =>
      obtain ⟨spelled, all'⟩ := List.forall_mem_cons.mp all
      obtain ⟨settle, settles'⟩ := List.forall_mem_cons.mp settles
      have first : Settles (Replaces clause rest) clause.spelling
          (rest.flatMap Clause.spelling ++ following) := by
        refine (settle _ fun endsOpen => ?_).close (fun kinds respells => ?_) fun _ =>
          replaces_or_collides chain all
        · cases closed : clause.closed with
          | true => exact ends_of_closes rfl (closes_of_none rfl rfl) (by simp)
          | false =>
              exact ends_clause chain all' (ends _) (by rw [Clause.isOpen, endsOpen, closed]; rfl)
        · have separate : ∀ second ∈ rest.head?,
              Clause.Separate ⟨kinds, clause.tree, clause.closed⟩ second := by
            intro second _ isOpen
            simp [Clause.isOpen, respells.closed] at isOpen
          exact ⟨⟨kinds, clause.tree, clause.closed⟩,
            List.isChain_cons.mpr ⟨separate, chain.tail⟩, respells.spelled, rfl, rfl,
            respells.starts⟩
      exact first.join (ih chain.tail all' settles') (fun _ replaces => replaces.relists all')
        fun _ relists => relists.cons chain spelled

/-- The sign of an assignment is the only mark in front of its value. -/
theorem settles_value {value : Node} (term : IsExpression BinaryOperator.loosest kinds value)
    (ends : Ends kinds following) :
    Settles (fun _ => False) (.symbol .assign :: kinds) following := by
  intro mark before after isMark same
  cases before with
  | nil =>
      obtain ⟨rfl, rfl⟩ := List.cons.inj same
      exact ⟨by simp, fun _ => ⟨kinds, value, following, rfl, term, ends⟩⟩
  | cons head before =>
      have none := term.unmarked mark (by simp [(List.cons.inj same).2])
      rw [isMark] at none
      cases none

theorem cons_append_cons (first second : TokenKind) (kinds inner : List TokenKind) :
    first :: (kinds ++ second :: inner) = first :: (kinds ++ [second]) ++ inner := by
  simp

/-- **Every mark of a statement is settled.** -/
theorem IsStatement.settles (spelled : IsStatement Clause.Separate kinds tree) :
    ∀ following, (tree.endsOpen → Ends kinds following) →
      Settles (Respells kinds.head? tree) kinds following := by
  have final : ∀ following kinds, Ends kinds ([.keyword .kwEnd] ++ following) := fun _ _ =>
    ends_of_closes rfl (closes_of_none rfl rfl) (by simp)
  have unmarked : Unmarked [.keyword .kwEnd] := by simp [TokenKind.isMark]
  induction spelled with
  | assign place assignable term =>
      intro following ends
      have ends' := (ends rfl).of_append.of_cons
      exact (settles_of_unmarked place.unmarked).join (settles_value term ends')
        (fun _ => False.elim) fun _ => False.elim
  | call name arguments all callable =>
      intro following _
      exact settles_of_unmarked (IsExpression.call name arguments all callable).unmarked
  | block body chain all ih =>
      intro following _
      have front : Unmarked [.keyword .kwBegin] := by simp [TokenKind.isMark]
      refine (settles_clauses chain all ih (final following)).within front unmarked ?_
      rintro _ ⟨body', chain', all', trees, rfl, -⟩
      rw [← trees]
      exact ⟨.block body' chain' all', rfl, rfl⟩
  | @branch kinds condition test taken chain all ih =>
      intro following _
      have shape := cons_append_cons (.keyword .kwIf) (.keyword .kwThen) kinds
      rw [shape]
      refine (settles_clauses chain all ih (final following)).within
        (by simp [TokenKind.isMark, test.unmarked]) unmarked ?_
      rintro _ ⟨taken', chain', all', trees, rfl, -⟩
      rw [← trees]
      refine ⟨?_, rfl, rfl⟩
      rw [← shape]
      exact .branch test taken' chain' all'
  | @branchElse kinds condition test taken skipped chain chain' all all' ih ih' =>
      intro following _
      have shape := cons_append_cons (.keyword .kwIf) (.keyword .kwThen) kinds
      have divider : Unmarked [.keyword .kwElse] := by simp [TokenKind.isMark]
      have second : Settles
          (fun others => ∃ kinds, Relists skipped kinds ∧
            others = .keyword .kwElse :: (kinds ++ [.keyword .kwEnd]))
          (.keyword .kwElse :: (skipped.flatMap Clause.spelling ++ [.keyword .kwEnd])) following :=
        (settles_clauses chain' all' ih' (final following)).within divider unmarked
          fun kinds relists => ⟨kinds, relists, rfl⟩
      have first := settles_clauses chain all ih fun _ =>
        (ends_of_closes rfl (closes_of_none rfl rfl) (by simp) :
          Ends _ (.keyword .kwElse :: (skipped.flatMap Clause.spelling ++ [.keyword .kwEnd]) ++
            following))
      rw [shape]
      refine .prepend (by simp [TokenKind.isMark, test.unmarked]) (first.join second ?_ ?_)
      · rintro _ ⟨taken', chain'', all'', trees, rfl, -⟩
        rw [← trees]
        refine ⟨?_, rfl, rfl⟩
        rw [← shape]
        exact .branchElse test taken' skipped chain'' chain' all'' all'
      · rintro _ ⟨_, ⟨skipped', chain'', all'', trees, rfl, -⟩, rfl⟩
        rw [← trees]
        refine ⟨?_, rfl, rfl⟩
        rw [← shape]
        exact .branchElse test taken skipped' chain chain'' all all''
  | @loop kinds condition test body chain all ih =>
      intro following _
      have shape := cons_append_cons (.keyword .kwWhile) (.keyword .kwDo) kinds
      rw [shape]
      refine (settles_clauses chain all ih (final following)).within
        (by simp [TokenKind.isMark, test.unmarked]) unmarked ?_
      rintro _ ⟨body', chain', all', trees, rfl, -⟩
      rw [← trees]
      refine ⟨?_, rfl, rfl⟩
      rw [← shape]
      exact .loop test body' chain' all'

end Statements

/-! ## Programs -/

/-- The kinds spell the body of a procedure, with a semicolon after it or without. -/
def IsBody (trees : List Node) (kinds : List TokenKind) : Prop :=
  ∃ (body : List Clause) (closed : Bool), body.IsChain Clause.Separate ∧
    (∀ clause ∈ body, IsStatement Clause.Separate clause.kinds clause.tree) ∧
    body.map Clause.tree = trees ∧
    kinds = .keyword .kwBegin ::
      (body.flatMap Clause.spelling ++ .keyword .kwEnd :: closing closed)

section Programs

variable {kinds following : List TokenKind} {tree : Node} {declared : List Declaration}

theorem IsDeclarations.settles (spelled : IsDeclarations kinds declared) :
    Settles (fun kinds => IsDeclarations kinds declared) kinds following := by
  cases spelled with
  | announced declared nonempty all closed =>
      have unmarked : Unmarked (.keyword .kwVar :: divided (declared.map Phrase.kinds)) := by
        simpa [TokenKind.isMark] using fun entry member => (all entry member).unmarked
      have dropped := IsDeclarations.announced declared nonempty all false
      rw [closing, List.append_nil] at dropped
      exact (settles_of_unmarked unmarked : Settles (fun _ => False) _ _).close
        (fun _ => False.elim) fun _ => .inl dropped

theorem IsLocals.settles (spelled : IsLocals kinds declared) :
    Settles (fun kinds => IsLocals kinds declared) kinds following := by
  cases spelled with
  | missing => exact settles_of_unmarked unmarked_nil
  | present spelled => exact spelled.settles.imp fun _ => .present

theorem settles_body {body : List Clause} (chain : body.IsChain Clause.Separate)
    (all : ∀ clause ∈ body, IsStatement Clause.Separate clause.kinds clause.tree) (closed : Bool) :
    Settles (IsBody (body.map Clause.tree)) (.keyword .kwBegin ::
      (body.flatMap Clause.spelling ++ .keyword .kwEnd :: closing closed)) following := by
  have shape : ∀ (inner : List TokenKind) closed, .keyword .kwBegin ::
      (inner ++ .keyword .kwEnd :: closing closed) =
        [.keyword .kwBegin] ++ (inner ++ [.keyword .kwEnd]) ++ closing closed := by simp
  have clauses := settles_clauses chain all (fun clause member => (all clause member).settles)
    fun _ => (ends_of_closes rfl (closes_of_none rfl rfl) (by simp) :
      Ends _ ([.keyword .kwEnd] ++ (closing closed ++ following)))
  have bracketed : Settles (fun kinds => ∃ inner, Relists body inner ∧
      kinds = [.keyword .kwBegin] ++ (inner ++ [.keyword .kwEnd])) _
      (closing closed ++ following) :=
    clauses.within (by simp [TokenKind.isMark]) (by simp [TokenKind.isMark])
      fun inner relists => ⟨inner, relists, rfl⟩
  rw [shape]
  refine bracketed.close ?_ fun _ => .inl ?_
  · rintro _ ⟨_, ⟨body', chain', all', trees, rfl, -⟩, rfl⟩
    exact ⟨body', closed, chain', all', trees, (shape _ closed).symm⟩
  · refine ⟨body, false, chain, all, rfl, ?_⟩
    rw [shape, closing, List.append_nil]

theorem IsItem.settles (spelled : IsItem Clause.Separate kinds tree) :
    Settles (fun kinds => IsItem Clause.Separate kinds tree) kinds following := by
  cases spelled with
  | declarations spelled => exact spelled.settles.imp fun _ => .declarations
  | procedure heading spelled body chain all closed reach =>
      refine .prepend (unmarked_headerKinds heading)
        (spelled.settles.join (settles_body chain all closed) ?_ ?_)
      · exact fun kinds locals => .procedure heading locals body chain all closed reach
      · rintro _ ⟨body', closed', chain', all', trees, rfl⟩
        rw [← trees]
        exact .procedure heading spelled body' chain' all' closed' reach

/-- **Every mark of a program is settled.** -/
theorem IsProgram.settles (spelled : IsProgram Clause.Separate kinds tree) :
    Settles (fun kinds => IsProgram Clause.Separate kinds tree) kinds [] := by
  cases spelled with
  | ofItems items all =>
      have listed : Settles (fun kinds => ∃ items' : List (Phrase Node),
          (∀ item ∈ items', IsItem Clause.Separate item.kinds item.tree) ∧
          items'.map Phrase.tree = items.map Phrase.tree ∧ items'.flatMap Phrase.kinds = kinds)
          (items.flatMap Phrase.kinds) [] := by
        induction items with
        | nil => exact settles_of_unmarked unmarked_nil
        | cons item rest ih =>
            obtain ⟨first, all'⟩ := List.forall_mem_cons.mp all
            refine first.settles.join (ih all') (fun kinds spelled => ?_) ?_
            · exact ⟨⟨kinds, item.tree⟩ :: rest, List.forall_mem_cons.mpr ⟨spelled, all'⟩, rfl, rfl⟩
            · rintro _ ⟨rest', all'', trees, rfl⟩
              exact ⟨item :: rest', List.forall_mem_cons.mpr ⟨first, all''⟩, by simp [trees], rfl⟩
      refine listed.imp ?_
      rintro _ ⟨items', all', trees, rfl⟩
      rw [← trees]
      exact .ofItems items' all'

end Programs

/-! ## Collisions -/

section Collisions

variable {level : Nat} {kinds kinds' : List TokenKind} {tree tree' : Node}

/-- An expression goes on with a star and an operand. -/
theorem IsExpression.times (spelled : IsExpression (level + 1) kinds tree)
    (operand : IsExpression 0 kinds' tree') :
    ∃ whole, IsExpression (level + 1) (kinds ++ .symbol .star :: kinds') whole := by
  induction level generalizing kinds tree with
  | zero => exact ⟨_, .binary .mul rfl spelled operand⟩
  | succ level ih =>
      cases spelled with
      | looser inner =>
          obtain ⟨whole, spelled⟩ := ih inner
          exact ⟨whole, spelled.looser⟩
      | binary op ofLevel first second =>
          obtain ⟨whole, spelled⟩ := ih second
          exact ⟨_, by simpa using IsExpression.binary op ofLevel first spelled⟩

/-- An expression that ends with a name goes on with an argument in parentheses. -/
theorem IsExpression.called (spelled : IsExpression level kinds tree) (named : EndsInName kinds)
    (inner : IsExpression BinaryOperator.loosest kinds' tree') (assignable : tree'.isAssignable) :
    ∃ whole, IsExpression level
      (kinds ++ .symbol .leftParen :: (kinds' ++ [.symbol .rightParen])) whole := by
  induction spelled with
  | constant value => exact absurd named (@not_endsInName [] _ (by simp))
  | reference name =>
      have callable : Node.Callable name [tree'] := by
        unfold Node.Callable
        split
        · trivial
        · exact ⟨tree', rfl⟩
        · exact ⟨tree', rfl, assignable⟩
      have call := IsExpression.call name [⟨kinds', tree'⟩] (List.forall_mem_singleton.mpr inner)
        callable
      rw [callKinds, List.map_singleton, divided_singleton] at call
      exact ⟨_, call⟩
  | @element name kinds _ _ _ => exact absurd named (@not_endsInName (_ :: _ :: kinds) _ (by simp))
  | call name arguments _ _ _ =>
      exact absurd named (@not_endsInName (_ :: _ :: divided _) _ (by simp))
  | @enclosed kinds _ _ _ => exact absurd named (@not_endsInName (_ :: kinds) _ (by simp))
  | unary op operand ih =>
      obtain ⟨whole, spelled⟩ := ih (named.of_cons operand.ne_nil)
      exact ⟨_, .unary op spelled⟩
  | looser _ ih =>
      obtain ⟨whole, spelled⟩ := ih named
      exact ⟨whole, spelled.looser⟩
  | binary op ofLevel first second _ ih =>
      obtain ⟨whole, spelled⟩ := ih
        ((named.of_append (List.cons_ne_nil _ _)).of_cons second.ne_nil)
      exact ⟨_, by simpa using IsExpression.binary op ofLevel first spelled⟩

/-- An expression goes on with a place that starts with a token that prolongs it. -/
theorem IsExpression.run_on (term : IsExpression BinaryOperator.loosest kinds tree)
    (place : IsExpression 0 kinds' tree') (assignable : tree'.isAssignable) {next : TokenKind}
    (starts : next ∈ kinds'.head?) (prolongs : Prolongs BinaryOperator.loosest kinds next) :
    ∃ whole, IsExpression BinaryOperator.loosest (kinds ++ kinds') whole := by
  cases place with
  | constant value => cases assignable
  | call name _ _ _ => cases assignable
  | reference name =>
      obtain rfl := Option.some.inj starts
      exact absurd prolongs (closes_of_none rfl rfl).not_prolongs
  | element name _ =>
      obtain rfl := Option.some.inj starts
      exact absurd prolongs (closes_of_none rfl rfl).not_prolongs
  | enclosed inner =>
      obtain rfl := Option.some.inj starts
      rcases prolongs with ⟨op, known, -⟩ | ⟨-, named⟩
      · cases known
      · exact term.called named inner assignable
  | unary op inner =>
      cases op with
      | dereference => exact @IsExpression.times 5 _ _ _ _ term inner
      | plus => cases assignable
      | minus => cases assignable
      | not => cases assignable

theorem map_kind_unplaced (kinds : List TokenKind) :
    (TokenStream.unplaced kinds).map Token.kind = kinds := by
  rw [TokenStream.unplaced, List.map_map]
  exact List.map_id kinds

/-- Tokens are read as one expression only, so what is left is the same. -/
theorem rest_unique {rest rest' : List TokenKind}
    (term : IsExpression BinaryOperator.loosest kinds tree)
    (term' : IsExpression BinaryOperator.loosest kinds' tree')
    (same : kinds ++ rest = kinds' ++ rest')
    (ends : ∀ next ∈ rest.head?, ¬ Prolongs BinaryOperator.loosest kinds next)
    (ends' : ∀ next ∈ rest'.head?, ¬ Prolongs BinaryOperator.loosest kinds' next) :
    rest = rest' := by
  have left : ∀ {kinds rest : List TokenKind} {tree : Node},
      IsExpression BinaryOperator.loosest kinds tree →
      (∀ next ∈ rest.head?, ¬ Prolongs BinaryOperator.loosest kinds next) →
      (expression default (TokenStream.unplaced (kinds ++ rest))).rest =
        TokenStream.unplaced rest := by
    intro kinds rest tree term ends
    have spelled := spells_map_kind (TokenStream.unplaced kinds) (TokenStream.unplaced rest)
    rw [map_kind_unplaced, TokenStream.unplaced, TokenStream.unplaced, ← List.map_append] at spelled
    refine ((term.readable default).reads_of_halts spelled fun next member => ends next ?_).2
    cases rest <;> exact member
  have equal : TokenStream.unplaced rest = TokenStream.unplaced rest' := by
    rw [← left term ends, same, left term' ends']
  rw [← map_kind_unplaced rest, equal, map_kind_unplaced]

/-- **Assignments that collide are not read.** -/
theorem not_isProgram_of_collides {before after : List TokenKind}
    (collides : Collides before after) :
    ¬ IsProgram Clause.Separate (before ++ after) tree := by
  obtain ⟨earlier, value, valueTree, target, targetTree, later, rfl, term, rfl, place, assignable,
    next, starts, prolongs⟩ := collides
  intro spelled
  obtain ⟨whole, joined⟩ := term.run_on place assignable starts prolongs
  obtain ⟨value', tree', rest, same, term', ends⟩ := (spelled.settles (.symbol .assign) earlier
    (value ++ (target ++ .symbol .assign :: later)) rfl (by simp)).assign rfl
  have left : .symbol .assign :: later = rest := by
    refine rest_unique joined term' (by simpa using same) (fun next member => ?_)
      fun next member => (ends next member).1
    obtain rfl := Option.some.inj member
    exact (closes_of_none rfl rfl).not_prolongs
  -- The longer expression takes all up to the second sign, which then stands alone.
  exact (ends (.symbol .assign) (by rw [← left]; rfl)).2 rfl

end Collisions

/-! ## Tokens up to the end of the text -/

section Words

variable {kinds : List TokenKind} {tokens before after rest : List Token} {span : Span}
  {tree : Node}

/-- The kinds of the tokens before the end of the text. -/
def words (tokens : List Token) : List TokenKind :=
  (tokens.map Token.kind).takeWhile (· != .endOfFile)

theorem words_cons {token : Token} (ordinary : token.kind ≠ .endOfFile) :
    words (token :: tokens) = token.kind :: words tokens := by
  simp [words, ordinary]

theorem words_append (ordinary : .endOfFile ∉ before.map Token.kind) :
    words (before ++ after) = before.map Token.kind ++ words after := by
  rw [words, List.map_append, List.takeWhile_append_of_pos]
  · rfl
  · intro kind member
    exact bne_iff_ne.mpr (ne_of_mem_of_not_mem member ordinary)

/-- Nothing behind the end of the text counts. -/
theorem words_append_of_mem (ended : .endOfFile ∈ before.map Token.kind) :
    words (before ++ after) = words before := by
  induction before with
  | nil => cases ended
  | cons token before ih =>
      by_cases ends : token.kind = .endOfFile
      · simp [words, ends]
      · have later : .endOfFile ∈ before.map Token.kind :=
          (List.mem_cons.mp ended).resolve_left (Ne.symm ends)
        rw [List.cons_append, words_cons ends, words_cons ends, ih later]

theorem exists_spells_words (tokens : List Token) :
    ∃ rest, Spells (words tokens) tokens rest ∧ endsProgram rest := by
  induction tokens with
  | nil => exact ⟨[], rfl, rfl⟩
  | cons token tokens ih =>
      by_cases ends : token.kind = .endOfFile
      · exact ⟨token :: tokens, by simp [words, ends, Spells], by simp [endsProgram, ends]⟩
      · obtain ⟨rest, spelled, done⟩ := ih
        rw [words_cons ends]
        exact ⟨rest, ⟨token.span, tokens, rfl, spelled⟩, done⟩

theorem words_of_spells (inside : .endOfFile ∉ kinds) (spelled : Spells kinds tokens rest)
    (ends : endsProgram rest) : words tokens = kinds := by
  induction kinds generalizing tokens with
  | nil =>
      obtain rfl : tokens = rest := spelled
      cases tokens with
      | nil => rfl
      | cons token tokens => simp [words, beq_iff_eq.mp ends]
  | cons kind kinds ih =>
      obtain ⟨span, later, rfl, spelled⟩ := spelled
      rw [List.mem_cons, not_or] at inside
      rw [words_cons (Ne.symm inside.1), ih inside.2 spelled]

/-- **Exactly the spelled texts are read.** -/
theorem outcome_program_iff (finish : Location) :
    (program finish tokens).outcome = .ok tree ↔
      IsProgram Clause.Separate (words tokens) tree := by
  constructor
  · intro read
    obtain ⟨kinds, rest, spelled, inside, ends, derived⟩ := exists_isProgram_of_read read
    rw [words_of_spells inside spelled ends]
    exact derived
  · intro derived
    obtain ⟨rest, spelled, ends⟩ := exists_spells_words tokens
    exact (reads_program_of_separate finish derived spelled ends).1

/-- The end of the text does not stand in a place, so it is not part of a collision. -/
theorem collides_words :
    Collides kinds (words tokens) ↔ Collides kinds (tokens.map Token.kind) := by
  constructor
  · intro collides
    have whole := collides.extend [] ((tokens.map Token.kind).dropWhile (· != .endOfFile))
    rwa [List.nil_append, words, List.takeWhile_append_dropWhile] at whole
  · rintro ⟨earlier, value, valueTree, target, targetTree, later, rfl, term, split, place, goesOn⟩
    have ordinary : ∀ kind ∈ target, (kind != .endOfFile) = true := by
      intro kind member
      refine bne_iff_ne.mpr ?_
      rintro rfl
      cases place.unmarked _ member
    refine ⟨earlier, value, valueTree, target, targetTree, later.takeWhile (· != .endOfFile), rfl,
      term, ?_, place, goesOn⟩
    rw [words, split, List.takeWhile_append_of_pos ordinary]
    rfl

/-- What collides starts with a token that goes on with what stands before it. -/
theorem Collides.prolongs {before after : List TokenKind} (collides : Collides before after) :
    ∃ next ∈ after.head?, Prolongs BinaryOperator.loosest before next := by
  obtain ⟨earlier, value, valueTree, target, targetTree, later, rfl, term, rfl, place, assignable,
    next, starts, prolongs⟩ := collides
  have whole := prolongs.append (earlier ++ [.symbol .assign])
  rw [List.append_assoc] at whole
  exact ⟨next, by simp [Option.mem_def.mp starts], whole⟩

/-- A semicolon between two parts of a text is needed: the text has not ended, and two
assignments collide without it. -/
def NeedsSemicolon (before after : List Token) : Prop :=
  .endOfFile ∉ before.map Token.kind ∧ Collides (before.map Token.kind) (after.map Token.kind)

theorem isProgram_without_semicolon
    (spelled : IsProgram Clause.Separate
      (words (before ++ ⟨.symbol .semicolon, span⟩ :: after)) tree)
    (free : ¬ NeedsSemicolon before after) :
    IsProgram Clause.Separate (words (before ++ after)) tree := by
  by_cases ended : .endOfFile ∈ before.map Token.kind
  · rw [words_append_of_mem ended] at spelled ⊢
    exact spelled
  · rw [words_append ended, words_cons (by simp)] at spelled
    rw [words_append ended]
    have settled := spelled.settles (.symbol .semicolon) (before.map Token.kind) (words after)
      rfl rfl
    rcases settled.semicolon rfl with derived | collides
    · exact derived
    · rw [List.append_nil, collides_words] at collides
      exact absurd ⟨ended, collides⟩ free

theorem not_isProgram_of_needsSemicolon (needed : NeedsSemicolon before after) :
    ¬ IsProgram Clause.Separate (words (before ++ after)) tree := by
  obtain ⟨ordinary, collides⟩ := needed
  rw [words_append ordinary]
  exact not_isProgram_of_collides (collides_words.mpr collides)

end Words

end Grammar

namespace TokenStream

open Grammar

/-- **Which semicolons are optional.** Tokens that are read as a tree are read as the same
tree without one of their semicolons, unless it is needed; and without a needed one nothing
is read. -/
theorem program_semicolon_optional {before after : List Token} {span : Span} {tree : Node}
    (read : ((ofTokens (before ++ ⟨.symbol .semicolon, span⟩ :: after)).read program).outcome =
      .ok tree) :
    (¬ NeedsSemicolon before after →
        ((ofTokens (before ++ after)).read program).outcome = .ok tree) ∧
      (NeedsSemicolon before after →
        ∃ fault, ((ofTokens (before ++ after)).read program).outcome = .error fault) := by
  constructor
  · intro free
    exact (outcome_program_iff _).mpr
      (isProgram_without_semicolon ((outcome_program_iff _).mp read) free)
  · intro needed
    cases outcome : ((ofTokens (before ++ after)).read program).outcome with
    | error fault => exact ⟨fault, rfl⟩
    | ok tree =>
        exact absurd ((outcome_program_iff _).mp outcome) (not_isProgram_of_needsSemicolon needed)

/-- A procedure up to the value that it assigns to a variable. -/
def assigning (value : TokenKind) : List Token :=
  unplaced [.keyword .kwProc, .identifier "main", .symbol .leftParen, .symbol .rightParen,
    .keyword .kwBegin, .identifier "x", .symbol .assign, value]

/-- The assignment of a constant to a place, and the end of the procedure. -/
def assigned (place : List TokenKind) : List Token :=
  unplaced (place ++ [.symbol .assign, .integer 2, .keyword .kwEnd, .endOfFile])

/-- Before a place in parentheses, the semicolon is optional after a constant and needed
after a name. -/
theorem program_semicolon_optional_parenthesis :
    ((ofTokens (assigning (.integer 1) ++
        assigned [.symbol .leftParen, .identifier "y", .symbol .rightParen])).read
          program).outcome =
      .ok (.program [.procedure ⟨"main", []⟩ [] (.block
        [.assign (.reference "x") (.constant 1), .assign (.reference "y") (.constant 2)])]) ∧
    ∃ fault, ((ofTokens (assigning (.identifier "z") ++
        assigned [.symbol .leftParen, .identifier "y", .symbol .rightParen])).read
          program).outcome =
      .error fault := by
  have free : ¬ NeedsSemicolon (assigning (.integer 1))
      (assigned [.symbol .leftParen, .identifier "y", .symbol .rightParen]) := by
    rintro ⟨-, collides⟩
    obtain ⟨next, starts, prolongs⟩ := collides.prolongs
    obtain rfl := Option.some.inj starts
    rcases prolongs with ⟨op, known, -⟩ | ⟨-, named⟩
    · cases known
    · exact absurd named (@not_endsInName ([_, _, _, _, _, _, _]) _ (by simp))
  have needed : NeedsSemicolon (assigning (.identifier "z"))
      (assigned [.symbol .leftParen, .identifier "y", .symbol .rightParen]) :=
    ⟨by decide, _, _, _, _, _, _, (rfl : _ = [_, _, _, _, _, _] ++ _ :: [_]),
      (IsExpression.reference "z").mono (Nat.zero_le _),
      (rfl : _ = [_, _, _] ++ _ :: [_, _, _]),
      .enclosed ((IsExpression.reference "y").mono (Nat.zero_le _)), rfl, _, rfl,
      .inr ⟨.inl rfl, [], "z", rfl⟩⟩
  exact ⟨(@program_semicolon_optional _ _ default _ (by with_unfolding_all rfl)).1 free,
    (@program_semicolon_optional _ _ default _ (by with_unfolding_all rfl)).2 needed⟩

/-- A statement that starts with a star makes a product of the value before it, so the
semicolon between the two cannot be left out. -/
theorem program_needs_semicolon_product :
    ((ofTokens (assigning (.identifier "y") ++ ⟨.symbol .semicolon, default⟩ ::
        assigned [.symbol .star, .identifier "p"])).read program).outcome =
      .ok (.program [.procedure ⟨"main", []⟩ [] (.block
        [.assign (.reference "x") (.reference "y"),
          .assign (.unary .dereference (.reference "p")) (.constant 2)])]) ∧
    ((ofTokens (assigning (.identifier "y") ++
        assigned [.symbol .star, .identifier "p"])).read program).outcome =
      .error (.unexpectedToken .expression ⟨.symbol .assign, default⟩) := by
  constructor <;> with_unfolding_all rfl

end TokenStream

end ProcLang
