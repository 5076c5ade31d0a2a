import ProcLang.Proofs.Assembly.Listing
import ProcLang.Proofs.Grammar.HandedOver

/-!
# Lowered code is legible

A program that was read from a source text is lowered to instructions that can be read
off their lines (`legible_lowerProgram`). Scratch registers are counted from the first one on, every
label is made of a name of the tree or of the number of a choice or loop, and a remark
holds a name of the tree and numbers.
-/

set_option autoImplicit false

namespace ProcLang

/-- Code of which every instruction can be read off its line. -/
def Legible (code : List Instruction) : Prop :=
  ∀ instruction ∈ code, instruction.IsLegible

section Code

variable {first second code : List Instruction} {instruction : Instruction}

@[simp] theorem legible_nil : Legible [] :=
  List.forall_mem_nil _

@[simp] theorem legible_cons :
    Legible (instruction :: code) ↔ instruction.IsLegible ∧ Legible code :=
  List.forall_mem_cons

@[simp] theorem legible_append : Legible (first ++ second) ↔ Legible first ∧ Legible second :=
  List.forall_mem_append

@[simp] theorem legible_flatMap {α : Type} {items : List α} {f : α → List Instruction} :
    Legible (items.flatMap f) ↔ ∀ item ∈ items, Legible (f item) := by
  simp only [Legible, List.mem_flatMap]
  constructor
  · exact fun all item listed one member => all one ⟨item, listed, member⟩
  · rintro all one ⟨item, listed, member⟩
    exact all item listed one member

@[simp] theorem legible_pushCode {registers : List Register} :
    Legible (pushCode registers) ↔ ∀ register ∈ registers, register.IsProper := by
  simp [pushCode]

@[simp] theorem legible_popCode {registers : List Register} :
    Legible (popCode registers) ↔ ∀ register ∈ registers, register.IsProper := by
  simp [popCode]

@[simp] theorem legible_dropCode (words : Nat) : Legible (dropCode words) := by
  unfold dropCode
  split <;> simp

@[simp] theorem legible_frameCode (words : Nat) : Legible (frameCode words) := by
  unfold frameCode
  split <;> simp

theorem isProper_of_mem_scratchBelow {cursor : Nat} :
    ∀ register ∈ Emitter.scratchBelow cursor, register.IsProper := by
  intro register member
  obtain ⟨index, listed, rfl⟩ := List.mem_map.mp member
  exact (List.mem_range'_1.mp listed).1

end Code

/-! ## Plans -/

/-- All code of a plan is legible, if the cursor is at a scratch register. -/
structure Plan.IsLegible (plan : Plan) : Prop where
  value : ∀ cursor pushed label, Register.scratchBase ≤ cursor →
    Legible (plan.value cursor pushed label).code
  address : ∀ cursor pushed label, Register.scratchBase ≤ cursor →
    Legible (plan.address cursor pushed label).code
  effect : ∀ pushed label, Legible (plan.effect pushed label).code

/-- A name that lives outside of the frame keeps its name. -/
def KeepsNames (resolve : String → Address) : Prop :=
  ∀ name other size, resolve name = .global other size → other = name

namespace Plan

variable {plans : List Plan} {value address : Nat → Nat → Nat → Output}
  {effect : Nat → Nat → Output} {choices : Nat} {resolve : String → Address} {name : String}

theorem isLegible_ofValue (legible : ∀ cursor pushed label, Register.scratchBase ≤ cursor →
    Legible (value cursor pushed label).code) : (ofValue value choices).IsLegible := by
  refine ⟨legible, fun cursor pushed label scratch => ?_, fun pushed label => ?_⟩
  · simpa [ofValue] using legible cursor pushed label scratch
  · exact legible _ pushed label le_rfl

theorem isLegible_ofPlace
    (legible : ∀ cursor pushed label, Register.scratchBase ≤ cursor →
      Legible (value cursor pushed label).code)
    (legible' : ∀ cursor pushed label, Register.scratchBase ≤ cursor →
      Legible (address cursor pushed label).code) :
    (ofPlace value address choices).IsLegible :=
  ⟨legible, legible', fun pushed label => legible _ pushed label le_rfl⟩

theorem isLegible_ofEffect (legible : ∀ pushed label, Legible (effect pushed label).code) :
    (ofEffect effect choices).IsLegible := by
  have kept := @isProper_of_mem_scratchBelow
  have parked : ∀ cursor pushed label, Register.scratchBase ≤ cursor →
      Legible (parked effect cursor pushed label).code := by
    intro cursor pushed label scratch
    simpa [Plan.parked, legible, scratch] using kept
  refine ⟨parked, fun cursor pushed label scratch => ?_, legible⟩
  simpa [ofEffect] using parked cursor pushed label scratch

theorem legible_addressOf (keeps : KeepsNames resolve) (named : isIdentifier name) {cursor : Nat}
    (scratch : Register.scratchBase ≤ cursor) (pushed : Nat) :
    Legible (addressOf resolve name (.general cursor) pushed).code := by
  unfold addressOf
  cases lives : resolve name with
  | frameLocal shift size => simp [frameAddress, scratch]
  | parameter shift => simp [frameAddress, scratch]
  | global other size =>
      obtain rfl := keeps name other size lives
      simp [scratch, named]

theorem legible_reference (keeps : KeepsNames resolve) (named : isIdentifier name) {cursor : Nat}
    (scratch : Register.scratchBase ≤ cursor) (pushed : Nat) :
    Legible (reference resolve name cursor pushed).code := by
  have located := legible_addressOf keeps named scratch pushed
  unfold reference
  split <;> simp [located, scratch]

theorem legible_remark (annotate : Bool) {text : String} (whole : '\n' ∉ text.toList) :
    Legible (remark annotate text).code := by
  cases annotate <;> simp [remark, whole]

theorem legible_unaryCode (op : UnaryOperator) {cursor : Nat}
    (scratch : Register.scratchBase ≤ cursor) : Legible (unaryCode op (.general cursor)) := by
  cases op <;> simp [unaryCode, scratch]

theorem legible_combine (op : BinaryOperator) {left right : Nat}
    (scratch : Register.scratchBase ≤ left) (scratch' : Register.scratchBase ≤ right) :
    Legible [Emitter.combine op (.general left) (.general right)] := by
  cases op <;> simp [Emitter.combine, scratch, scratch']

theorem legible_sequence (legible : ∀ plan ∈ plans, plan.IsLegible) (pushed label : Nat) :
    Legible (sequence plans pushed label).code := by
  induction plans generalizing label with
  | nil => exact legible_nil
  | cons plan rest ih =>
      obtain ⟨first, others⟩ := List.forall_mem_cons.mp legible
      simp [sequence, first.effect, ih others]

theorem legible_pushArguments (legible : ∀ plan ∈ plans, plan.IsLegible) (pushed label : Nat) :
    Legible (pushArguments plans pushed label).code := by
  induction plans generalizing pushed label with
  | nil => exact legible_nil
  | cons plan rest ih =>
      obtain ⟨first, others⟩ := List.forall_mem_cons.mp legible
      simp [pushArguments, first.value, ih others]

theorem legible_call (annotate : Bool) (named : isIdentifier name)
    (legible : ∀ plan ∈ plans, plan.IsLegible) (pushed label : Nat) :
    Legible (call annotate name plans pushed label).code := by
  have pushes := legible_pushArguments
    (fun plan member => legible plan (List.mem_reverse.mp member)) (pushed + 1) label
  have whole := newline_not_mem_of_isNameChar (isNameChar_of_isIdentifier named)
  rcases general_or_intrinsic name plans with general | ⟨intrinsic, first, rest, known, rfl⟩
  · have remarked := @legible_remark annotate ("call " ++ name ++ " (" ++
      Decimal.text plans.length ++ " args)") (by simp [Decimal.text, whole])
    simp [call_general annotate general, callProcedure, remarked, pushes, named]
  · have inner := legible first List.mem_cons_self
    cases intrinsic with
    | read => simp [call_read annotate first rest known, read, inner.address]
    | write => simp [call_write annotate first rest known, write, inner.value]

end Plan

/-! ## Trees -/

namespace Node

variable {annotate : Bool} {resolve : String → Address} {node : Node}

theorem isLegible_of_mem_planAll {nodes : List Node}
    (legible : ∀ node ∈ nodes, (node.plan annotate resolve).IsLegible) :
    ∀ plan ∈ planAll annotate resolve nodes, plan.IsLegible := by
  rw [planAll_eq_map]
  exact List.forall_mem_map.mpr legible

/-- **The code of an expression is legible.** -/
theorem isLegible_of_isExpression (keeps : KeepsNames resolve) (proper : node.isExpression) :
    (node.plan annotate resolve).IsLegible := by
  induction node with
  | constant value => exact Plan.isLegible_ofValue fun _ _ _ scratch => by simp [scratch]
  | reference name =>
      have named := isIdentifier_of_isName proper
      exact Plan.isLegible_ofPlace
        (fun _ pushed _ scratch => Plan.legible_reference keeps named scratch pushed)
        fun _ pushed _ scratch => Plan.legible_addressOf keeps named scratch pushed
  | unary op operand ih =>
      have inner := ih proper
      have operation : ∀ cursor pushed label, Register.scratchBase ≤ cursor →
          Legible (Plan.unary op (operand.plan annotate resolve) cursor pushed label).code := by
        intro cursor pushed label scratch
        simp [Plan.unary, inner.value _ _ _ scratch,
          Plan.legible_unaryCode op scratch]
      cases op with
      | dereference => exact Plan.isLegible_ofPlace operation inner.value
      | plus => exact Plan.isLegible_ofValue operation
      | minus => exact Plan.isLegible_ofValue operation
      | not => exact Plan.isLegible_ofValue operation
  | binary op left right ihLeft ihRight =>
      rw [isExpression, Bool.and_eq_true] at proper
      refine Plan.isLegible_ofValue fun cursor pushed label scratch => ?_
      have above : Register.scratchBase ≤ cursor + 1 := Nat.le_succ_of_le scratch
      have first := (ihLeft proper.1).value cursor pushed label scratch
      have second := (ihRight proper.2).value (cursor + 1) pushed
        (label + (left.plan annotate resolve).choices) above
      have combined := Plan.legible_combine op scratch above
      simp only [Plan.binary, Output.code_append, Output.code_ofCode, legible_append]
      exact ⟨⟨first, second⟩, combined⟩
  | call name arguments ih =>
      simp only [isExpression, Bool.and_eq_true, isExpressionAll_iff] at proper
      obtain ⟨⟨named, -⟩, all⟩ := proper
      exact Plan.isLegible_ofEffect (Plan.legible_call annotate (isIdentifier_of_isName named)
        (isLegible_of_mem_planAll fun argument member => ih argument member (all argument member)))
  | _ => cases proper

/-- **The code of a statement is legible.** -/
theorem isLegible_of_isStatement (keeps : KeepsNames resolve) (proper : node.isStatement) :
    (node.plan annotate resolve).IsLegible := by
  have expression := @isLegible_of_isExpression annotate resolve
  induction node with
  | assign target value =>
      simp only [isStatement, Bool.and_eq_true] at proper
      obtain ⟨⟨-, place⟩, term⟩ := proper
      have place := expression keeps place
      have term := expression keeps term
      exact Plan.isLegible_ofEffect fun _ _ => by
        simp [Plan.assign, place.address, term.value]
  | call name arguments => exact expression keeps proper
  | block statements ih =>
      rw [isStatement, isStatementAll_iff] at proper
      exact Plan.isLegible_ofEffect (Plan.legible_sequence (isLegible_of_mem_planAll
        fun statement member => ih statement member (proper statement member)))
  | branch condition consequent _ ih =>
      simp only [isStatement, Bool.and_eq_true] at proper
      obtain ⟨⟨test, -⟩, taken⟩ := proper
      have test := expression keeps test
      exact Plan.isLegible_ofEffect fun _ _ => by
        simp [Plan.branch, test.value, (ih taken).effect]
  | branchElse condition consequent alternative _ ih ih' =>
      simp only [isStatement, Bool.and_eq_true] at proper
      obtain ⟨⟨test, -, taken⟩, -, skipped⟩ := proper
      have test := expression keeps test
      exact Plan.isLegible_ofEffect fun _ _ => by
        simp [Plan.branchElse, test.value, (ih taken).effect, (ih' skipped).effect]
  | loop condition body _ ih =>
      simp only [isStatement, Bool.and_eq_true] at proper
      obtain ⟨⟨test, -⟩, repeated⟩ := proper
      have test := expression keeps test
      exact Plan.isLegible_ofEffect fun _ _ => by
        simp [Plan.loop, test.value, (ih repeated).effect]
  | _ => cases proper

end Node

/-! ## Programs -/

namespace Scope

theorem findParameter_ne_global (name other : String) (size : Option UInt32) (shift : Nat)
    (parameters : List String) :
    findParameter name shift parameters ≠ some (.global other size) := by
  fun_induction findParameter name shift parameters <;> simp_all

/-- What a scope finds is in the frame. -/
theorem find_ne_global (scope : Scope) (name other : String) (size : Option UInt32) :
    scope.find name ≠ some (.global other size) := by
  unfold find
  fun_induction findLocal name scope.parameters 0 scope.locals with
  | case1 shift => exact findParameter_ne_global name other size shift scope.parameters
  | case2 => simp
  | case3 _ _ _ _ ih => exact ih

theorem keepsNames (scope : Scope) (globals : List Declaration) :
    KeepsNames (scope.resolve globals) := by
  intro name other size lives
  unfold resolve at lives
  cases found : scope.find name with
  | none =>
      rw [found] at lives
      injection lives with same
      exact same.symm
  | some address =>
      rw [found] at lives
      obtain rfl : address = .global other size := lives
      exact absurd found (scope.find_ne_global name other size)

end Scope

theorem legible_reserve {declared : List Declaration} (proper : declared.all Declaration.isProper) :
    Legible (Plan.reserve declared).data := by
  rw [Plan.reserve, legible_flatMap]
  intro entry member
  have sized := List.all_eq_true.mp proper entry member
  simp only [Declaration.isProper, Bool.and_eq_true] at sized
  simp [isIdentifier_of_isName sized.1.1]

theorem legible_prologue (annotate : Bool) {heading : Header} (named : isIdentifier heading.name)
    (words : Nat) : Legible (prologue annotate heading words) := by
  have remarked : Legible (Plan.remark annotate ("frame " ++ Decimal.text words ++ " words, " ++
      Decimal.text heading.parameters.length ++ " args")).code :=
    Plan.legible_remark annotate (by simp [Decimal.text])
  simp [prologue, named, remarked]

namespace Node

/-- The code of an item is legible. -/
theorem legible_itemOutput (annotate : Bool) (globals : List Declaration) {item : Node}
    (proper : item.isItem) (label : Nat) :
    Legible (item.itemOutput annotate globals label).code := by
  cases item with
  | declarations declared => exact legible_nil
  | procedure heading locals body =>
      simp only [isItem, Bool.and_eq_true] at proper
      obtain ⟨⟨⟨⟨⟨named, -⟩, -⟩, -⟩, -⟩, command⟩ := proper
      have keeps := Scope.keepsNames ⟨locals, heading.parameters⟩ globals
      have inner := (isLegible_of_isStatement keeps command : (body.plan annotate _).IsLegible)
      have opened := legible_prologue annotate (isIdentifier_of_isName named)
        (Scope.frameSize ⟨locals, heading.parameters⟩)
      rw [itemOutput, Plan.code_procedure]
      simp [opened, inner.effect, epilogue]
  | _ => cases proper

theorem legible_itemsOutput (annotate : Bool) (globals : List Declaration) {items : List Node}
    (proper : items.all isItem) (label : Nat) :
    Legible (itemsOutput annotate globals items label).code := by
  induction items generalizing label with
  | nil => exact legible_nil
  | cons item rest ih =>
      rw [List.all_cons, Bool.and_eq_true] at proper
      exact legible_append.mpr ⟨legible_itemOutput annotate globals proper.1 label, ih proper.2 _⟩

/-- The globals of well-formed items can be written. -/
theorem isProper_globalDeclarationsAll {items : List Node} (proper : items.all isItem) :
    (globalDeclarationsAll items).all Declaration.isProper := by
  induction items with
  | nil => rfl
  | cons item rest ih =>
      rw [List.all_cons, Bool.and_eq_true] at proper
      rw [globalDeclarationsAll, List.all_append, ih proper.2, Bool.and_true]
      cases item with
      | declarations declared => exact (Bool.and_eq_true _ _ ▸ proper.1).2
      | procedure heading locals body => rfl
      | _ => cases proper.1

end Node

/-- **The instructions of a program that was read from a source text are legible.** -/
theorem legible_lowerProgram {source : String} {tree : Node} {events : List Event}
    {options : LoweringOptions} {program : LoweredProgram}
    (parsed : parse source = (.ok tree, events)) (named : isIdentifier options.entry)
    (lowered : lowerProgram options tree = .ok program) : Legible program.instructions := by
  have proper := isWellFormed_of_parse parsed
  obtain ⟨items, rfl, shape⟩ := parse_shape parsed
  have code := Node.legible_itemsOutput options.annotate
    (Node.globalDeclarationsAll items).reverse proper 0
  have data := legible_reserve (Node.isProper_globalDeclarationsAll proper)
  rw [(lowerProgram_eq shape lowered).1]
  simp [Node.listing, startCode, Node.programOutput, code, Node.data_itemsOutput shape, data, named]

end ProcLang
