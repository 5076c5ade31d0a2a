import Mathlib
import ProcLang.Grammar.Program

/-!
# The shape of what is read

The grammar reads expressions and statements apart, so a tree that comes from a
source text has expressions where values are needed and statements where effects
are. The two intrinsics have one argument, what is read or assigned to has an
address, and the frame of every procedure is in reach (`parse_shape`).

Each rule of the grammar has one lemma, which follows the rule.
-/

set_option autoImplicit false

namespace ProcLang

namespace Reading

variable {α β : Type} {least more : Nat} {tokens : List Token}

/-- Whatever is read is as described. -/
def Gives (reading : Reading least tokens α) (post : α → Prop) : Prop :=
  ∀ value, reading.outcome = .ok value → post value

variable {post : α → Prop} {post' : β → Prop}

theorem gives_pure {value : α} (holds : post value) :
    (pure value : Reading 0 tokens α).Gives post := by
  rintro _ ⟨⟩
  exact holds

theorem gives_fail (fault : SyntaxFault) : (fail fault : Reading least tokens α).Gives post :=
  nofun

theorem gives_take {value : α} (token : Token) (holds : post value) :
    (take token value : Reading 1 (token :: tokens) α).Gives post := by
  rintro _ ⟨⟩
  exact holds

theorem gives_report {value : α} (event : Event) (holds : post value) :
    (report event value : Reading 0 tokens α).Gives post := by
  rintro _ ⟨⟩
  exact holds

theorem gives_check {checked : Except SyntaxFault α}
    (holds : ∀ value, checked = .ok value → post value) :
    (check checked : Reading 0 tokens α).Gives post := by
  cases checked with
  | ok value => exact gives_pure (holds value rfl)
  | error fault => exact gives_fail fault

theorem gives_trivial (reading : Reading least tokens α) : reading.Gives fun _ => True :=
  fun _ _ => trivial

theorem Gives.map {reading : Reading least tokens α} {f : α → β} (gives : reading.Gives post)
    (holds : ∀ value, post value → post' (f value)) : (reading.map f).Gives post' := by
  intro result success
  simp only [Reading.map] at success
  split at success
  next value done =>
    cases success
    exact holds value (gives value done)
  next => cases success

theorem Gives.bind {first : Reading least tokens α}
    {second : (value : α) → (rest : List Token) → rest.length + least ≤ tokens.length →
      Reading more rest β} (gives : first.Gives post)
    (next : ∀ value rest fewer, post value → (second value rest fewer).Gives post') :
    (first.bind second).Gives post' := by
  intro result success
  cases done : first.outcome with
  | error fault =>
      rw [(bind_of_error done).1] at success
      cases success
  | ok value =>
      rw [(bind_of_ok done).1] at success
      exact next value first.rest _ (gives value done) result success

theorem Gives.after {reading : Reading least tokens α} (gives : reading.Gives post)
    (token : Token) : (reading.after token).Gives post :=
  gives

theorem Gives.weaken {reading : Reading least tokens α} {fewer : Nat}
    {le : Nat.ble fewer least = true}
    (gives : reading.Gives post) : (reading.weaken fewer le).Gives post :=
  gives

end Reading

/-! ## Expressions and statements -/

namespace Node

/-- A call that the grammar allows: an intrinsic has one argument, and what is
read has an address. -/
def Callable (name : String) (arguments : List Node) : Prop :=
  match Intrinsic.ofName? name with
  | none => True
  | some .write => ∃ value, arguments = [value]
  | some .read => ∃ target, arguments = [target] ∧ target.isAssignable

/-- An expression that the grammar reads. -/
inductive Term : Node → Prop
  | constant (value : Int32) : Term (.constant value)
  | reference (name : String) : Term (.reference name)
  | unary (op : UnaryOperator) {operand : Node} (inner : Term operand) : Term (.unary op operand)
  | binary (op : BinaryOperator) {left right : Node} (first : Term left) (second : Term right) :
      Term (.binary op left right)
  | call {name : String} {arguments : List Node} (callable : Callable name arguments)
      (all : ∀ argument ∈ arguments, Term argument) : Term (.call name arguments)

/-- A statement that the grammar reads. -/
inductive Command : Node → Prop
  | block {statements : List Node} (all : ∀ statement ∈ statements, Command statement) :
      Command (.block statements)
  | call {name : String} {arguments : List Node} (term : Term (.call name arguments)) :
      Command (.call name arguments)
  | assign {target value : Node} (assignable : target.isAssignable) (place : Term target)
      (term : Term value) : Command (.assign target value)
  | branch {condition consequent : Node} (test : Term condition) (taken : Command consequent) :
      Command (.branch condition consequent none)
  | branchElse {condition consequent alternative : Node} (test : Term condition)
      (taken : Command consequent) (skipped : Command alternative) :
      Command (.branch condition consequent (some alternative))
  | loop {condition body : Node} (test : Term condition) (taken : Command body) :
      Command (.loop condition body)

/-- An item that the grammar reads. -/
inductive Item : Node → Prop
  | declarations (declared : List Declaration) : Item (.declarations declared)
  | procedure (heading : Header) (locals : List Declaration) {body : Node}
      (reach : (Scope.mk locals heading.parameters).frameExtent?.isSome) (command : Command body) :
      Item (.procedure heading locals body)

end Node

namespace Grammar

open Reading

/-- A call that passes its check is one that the grammar allows. -/
theorem callable_of_checkCall {location : Location} {name : String} {arguments : List Node}
    {node : Node} (checked : checkCall location name arguments = .ok node) :
    Node.Callable name arguments ∧ node = .call name arguments := by
  unfold checkCall at checked
  unfold Node.Callable
  split at checked
  next unknown =>
    cases checked
    exact ⟨by simp [unknown], rfl⟩
  next known =>
    cases checked
    exact ⟨by simp [known], rfl⟩
  next known =>
    split at checked
    next assignable =>
      cases checked
      exact ⟨by simpa [known] using assignable, rfl⟩
    next => cases checked
  next => cases checked

theorem term_of_checkCall {location : Location} {name : String} {arguments : List Node}
    {node : Node} (all : ∀ argument ∈ arguments, argument.Term)
    (checked : checkCall location name arguments = .ok node) :
    node.Term ∧ ∃ name arguments, node = .call name arguments := by
  obtain ⟨callable, rfl⟩ := callable_of_checkCall checked
  exact ⟨.call callable all, name, arguments, rfl⟩

/-- An element of an array is an expression. -/
theorem term_element (name : String) {index : Node} (term : index.Term) :
    (Node.element name index).Term :=
  .unary _ (.binary _ (.reference name) term)

mutual

theorem gives_binary (finish : Location) (level : Nat) (tokens : List Token) :
    (binary finish level tokens).Gives Node.Term := by
  cases level with
  | zero =>
      rw [binary]
      exact gives_unary finish tokens
  | succ level =>
      rw [binary]
      exact (gives_binary finish level tokens).bind fun left rest fewer term =>
        gives_binaryTail finish level rest term
termination_by 9 * tokens.length + (level + 2)

theorem gives_binaryTail (finish : Location) (level : Nat) {left : Node} (tokens : List Token)
    (term : left.Term) : (binaryTail finish level left tokens).Gives Node.Term := by
  unfold binaryTail
  split
  next => exact gives_pure term
  next token tokens =>
    split
    next => exact gives_pure term
    next op _ =>
      refine Gives.weaken (Gives.after ?_ token)
      exact (gives_binary finish level tokens).bind fun right rest fewer term' =>
        gives_binaryTail finish level rest (.binary op term term')
termination_by 9 * tokens.length + (level + 3)
decreasing_by all_goals (subst_vars; simp only [List.length_cons]; omega)

theorem gives_unary (finish : Location) (tokens : List Token) :
    (unary finish tokens).Gives Node.Term := by
  unfold unary
  split
  next => exact gives_primary finish []
  next token rest =>
    split
    next op _ =>
      exact Gives.weaken (((gives_unary finish rest).map fun _ => .unary op).after token)
    next => exact gives_primary finish (token :: rest)
termination_by 9 * tokens.length + 1
decreasing_by all_goals (subst_vars; simp only [List.length_cons, List.length_nil]; omega)

theorem gives_primary (finish : Location) (tokens : List Token) :
    (primary finish tokens).Gives Node.Term := by
  unfold primary
  split
  next span rest =>
    refine Gives.weaken (Gives.after ?_ _)
    exact (gives_binary finish _ rest).bind fun inner rest _ term =>
      (gives_trivial _).map fun _ _ => term
  next value span rest => exact gives_take _ (.constant value)
  next name span opening rest =>
    refine Gives.weaken (Gives.after (Gives.after ?_ _) _)
    exact fun value done => (gives_callTail finish opening.start name rest value done).1
  next name span opening rest =>
    refine Gives.weaken (Gives.after (Gives.after ?_ _) _)
    exact (gives_binary finish _ rest).bind fun index rest _ term =>
      (gives_trivial _).map fun _ _ => term_element name term
  next name span rest _ _ => exact gives_take _ (.reference name)
  next => exact gives_fail _
termination_by 9 * tokens.length
decreasing_by all_goals (subst_vars; simp only [List.length_cons, BinaryOperator.loosest]; omega)

theorem gives_callTail (finish : Location) (location : Location) (name : String)
    (tokens : List Token) : (callTail finish location name tokens).Gives fun node =>
      node.Term ∧ ∃ name arguments, node = .call name arguments := by
  rw [callTail]
  exact (gives_callArguments finish tokens).bind fun arguments rest _ all =>
    (gives_trivial _).bind fun _ _ _ _ => gives_check fun _ checked => term_of_checkCall all checked
termination_by 9 * tokens.length + 11

theorem gives_callArguments (finish : Location) (tokens : List Token) :
    (callArguments finish tokens).Gives fun nodes => ∀ node ∈ nodes, node.Term := by
  unfold callArguments
  split
  next => exact gives_pure nofun
  next => exact (gives_arguments finish tokens).weaken
termination_by 9 * tokens.length + 10

theorem gives_arguments (finish : Location) (tokens : List Token) :
    (arguments finish tokens).Gives fun nodes => ∀ node ∈ nodes, node.Term := by
  rw [arguments]
  refine (gives_binary finish _ tokens).bind fun first rest fewer term => ?_
  split
  next span rest fewer =>
    have shorter : rest.length < tokens.length := Nat.lt_of_succ_lt fewer
    refine Gives.weaken (Gives.after ?_ _)
    refine (gives_arguments finish rest).map fun nodes all => ?_
    exact List.forall_mem_cons.mpr ⟨term, all⟩
  next => exact gives_pure (List.forall_mem_singleton.mpr term)
termination_by 9 * tokens.length + 9
decreasing_by
  · simp only [BinaryOperator.loosest]
    omega
  · omega

end

theorem gives_expression (finish : Location) (tokens : List Token) :
    (expression finish tokens).Gives Node.Term :=
  gives_binary finish _ tokens

/-! ## Statements -/

theorem gives_assignment (finish : Location) (tokens : List Token) :
    (assignment finish tokens).Gives Node.Command := by
  refine Gives.weaken ((gives_unary finish tokens).bind fun operand rest _ term => ?_)
  have target : (check (checkTarget (nextLocation finish tokens) operand) :
      Reading 0 rest Node).Gives fun target => target.isAssignable ∧ target.Term := by
    refine gives_check fun target checked => ?_
    unfold checkTarget at checked
    split at checked
    next assignable =>
      cases checked
      exact ⟨assignable, term⟩
    next => cases checked
  refine target.bind fun target rest _ place => (gives_trivial _).bind fun _ rest _ _ => ?_
  exact (gives_expression finish rest).map fun value term' => .assign place.1 place.2 term'

mutual

theorem gives_statements (finish : Location) (tokens : List Token) :
    (statements finish tokens).Gives fun nodes => ∀ node ∈ nodes, node.Command := by
  rw [statements]
  split
  next => exact gives_pure nofun
  next =>
    refine Gives.weaken ((gives_statement finish tokens).bind fun first rest fewer command => ?_)
    refine (gives_statements finish rest).map fun nodes all => ?_
    exact List.forall_mem_cons.mpr ⟨command, all⟩
termination_by 2 * tokens.length + 1

theorem gives_statement (finish : Location) (tokens : List Token) :
    (statement finish tokens).Gives Node.Command := by
  unfold statement
  refine Gives.bind ?_ fun read rest _ command => (gives_trivial _).map fun _ _ => command
  split
  next span rest => exact Gives.weaken ((gives_branchTail finish rest).after _)
  next span rest => exact Gives.weaken ((gives_loopTail finish rest).after _)
  next span rest =>
    refine Gives.weaken (Gives.after ?_ _)
    exact (gives_statements finish rest).bind fun body rest _ all =>
      (gives_trivial _).map fun _ _ => .block all
  next name span opening rest =>
    refine Gives.weaken (Gives.after (Gives.after ?_ _) _)
    intro node done
    obtain ⟨term, name, arguments, rfl⟩ := gives_callTail finish opening.start name rest node done
    exact .call term
  next => exact gives_assignment finish tokens
termination_by 2 * tokens.length
decreasing_by all_goals (subst_vars; simp only [List.length_cons]; omega)

theorem gives_branchTail (finish : Location) (tokens : List Token) :
    (branchTail finish tokens).Gives Node.Command := by
  rw [branchTail]
  refine Gives.weaken ((gives_expression finish tokens).bind fun condition rest _ test => ?_)
  refine (gives_trivial _).bind fun _ rest _ _ => ?_
  refine (gives_statements finish rest).bind fun consequent rest _ taken => ?_
  refine (gives_alternative finish rest).bind fun alternative rest _ skipped => ?_
  refine (gives_trivial _).map fun _ _ => ?_
  cases alternative with
  | none => exact .branch test (.block taken)
  | some alternative => exact .branchElse test (.block taken) (skipped alternative rfl)
termination_by 2 * tokens.length + 1

theorem gives_alternative (finish : Location) (tokens : List Token) :
    (alternative finish tokens).Gives fun found => ∀ node, found = some node → node.Command := by
  unfold alternative
  split
  next span rest =>
    refine Gives.weaken (Gives.after ?_ _)
    refine (gives_statements finish rest).map fun body all => ?_
    rintro node ⟨⟩
    exact .block all
  next => exact gives_pure nofun
termination_by 2 * tokens.length
decreasing_by all_goals (subst_vars; simp only [List.length_cons]; omega)

theorem gives_loopTail (finish : Location) (tokens : List Token) :
    (loopTail finish tokens).Gives Node.Command := by
  rw [loopTail]
  refine Gives.weaken ((gives_expression finish tokens).bind fun condition rest _ test => ?_)
  refine (gives_trivial _).bind fun _ rest _ _ => ?_
  refine (gives_statements finish rest).bind fun body rest _ taken => ?_
  exact (gives_trivial _).map fun _ _ => .loop test (.block taken)
termination_by 2 * tokens.length + 1

end

/-! ## Items -/

theorem gives_procedureBody (finish : Location) (tokens : List Token) :
    (procedureBody finish tokens).Gives fun nodes => ∀ node ∈ nodes, node.Command := by
  refine Gives.weaken ((gives_trivial _).bind fun _ rest _ _ => ?_)
  refine (gives_statements finish rest).bind fun body rest _ all => ?_
  exact (gives_trivial _).bind fun _ rest _ _ => (gives_trivial _).map fun _ _ => all

theorem gives_procedure (finish : Location) (tokens : List Token) :
    (procedure finish tokens).Gives Node.Item := by
  refine Gives.weaken ((gives_trivial _).bind fun heading rest _ _ => ?_)
  refine (gives_trivial _).bind fun declared rest _ _ => ?_
  refine (gives_procedureBody finish rest).bind fun body rest _ all => ?_
  refine (gives_check fun node checked => ?_).bind fun node rest _ item => gives_report _ item
  unfold checkReach at checked
  split at checked
  next extent reach =>
    cases checked
    exact Node.Item.procedure heading declared (by rw [reach]; rfl) (.block all)
  next => cases checked

theorem gives_item (finish : Location) (tokens : List Token) :
    (item finish tokens).Gives Node.Item := by
  unfold item
  split
  next span rest =>
    exact Gives.weaken (((gives_trivial _).map fun declared _ => .declarations declared).after _)
  next => exact gives_procedure finish _
  next => exact gives_fail _

theorem gives_items (finish : Location) (tokens : List Token) :
    (items finish tokens).Gives fun nodes => ∀ node ∈ nodes, node.Item := by
  rw [items]
  split
  next => exact gives_pure nofun
  next =>
    refine Gives.weaken ((gives_item finish tokens).bind fun first rest fewer item => ?_)
    refine (gives_items finish rest).map fun nodes all => ?_
    exact List.forall_mem_cons.mpr ⟨item, all⟩
termination_by tokens.length

end Grammar

/-- **A source text is read as a program of declarations and procedures**, with
statements and expressions where they belong. -/
theorem parse_shape {source : String} {root : Node} {events : List Event}
    (parsed : parse source = (.ok root, events)) :
    ∃ items, root = .program items ∧ ∀ item ∈ items, item.Item := by
  unfold parse at parsed
  split at parsed
  next => cases parsed
  next tokens _ =>
    have gives : (Grammar.program (TokenStream.ofTokens tokens).finish
        (TokenStream.ofTokens tokens).tokens).Gives fun root =>
          ∃ items, root = .program items ∧ ∀ item ∈ items, item.Item :=
      (Grammar.gives_items _ _).bind fun read _ _ all => Reading.gives_report _ ⟨read, rfl, all⟩
    cases outcome : ((TokenStream.ofTokens tokens).read Grammar.program).outcome with
    | ok tree =>
        simp only [outcome, Prod.mk.injEq, Except.ok.injEq] at parsed
        exact parsed.1 ▸ gives tree outcome
    | error fault => simp [outcome] at parsed

end ProcLang
