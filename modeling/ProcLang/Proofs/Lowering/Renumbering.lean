import ProcLang.Proofs.Lowering.ProgramPlan

/-!
# Renumbering choices and loops

The numbers of choices and loops show in code as part of four spellings of labels.
`Instruction.renumber` adds an amount to each of them; every other instruction, and
every other label, stays as it is (`Label.renumberText_text`).

Code that is lowered from a later number on is the code from an earlier one,
renumbered (`Node.renumbers_plan`).
-/

set_option autoImplicit false

namespace ProcLang

namespace Label

/-- Add to the number of a choice or loop. -/
def renumber (amount : Nat) : Label → Label
  | branchFalse id => branchFalse (id + amount)
  | branchEnd id => branchEnd (id + amount)
  | loopBegin id => loopBegin (id + amount)
  | loopEnd id => loopEnd (id + amount)
  | other => other

/-- The label of a choice or loop with a given spelling. Its digits can only be those
of the number. -/
def numbered? (name : String) : Option Label :=
  let id := Decimal.value (name.toList.filter Decimal.isDigit)
  [branchFalse id, branchEnd id, loopBegin id, loopEnd id].find? fun label => label.text == name

/-- Add to the number in the spelling of a label, if it is that of a choice or loop. -/
def renumberText (amount : Nat) (name : String) : String :=
  match numbered? name with
  | some label => (label.renumber amount).text
  | none => name

theorem eq_of_numbered? {label found : Label} (read : numbered? label.text = some found) :
    found = label := by
  have same := List.find?_some read
  exact text_injective (beq_iff_eq.mp same)

theorem value_filter_text {label : Label} {id : Nat} (choice : label.choice? = some id) :
    Decimal.value (label.text.toList.filter Decimal.isDigit) = id := by
  have digits : (Decimal.digits id).filter Decimal.isDigit = Decimal.digits id :=
    List.filter_eq_self.mpr fun _ member => Decimal.isDigit_of_mem_digits member
  cases label <;> cases choice <;>
    simp [text, Decimal.text, String.toList_append, digits, Decimal.value_digits, Decimal.isDigit]

/-- The label of a choice or loop is found by its spelling. -/
theorem numbered?_text {label : Label} {id : Nat} (choice : label.choice? = some id) :
    numbered? label.text = some label := by
  cases read : numbered? label.text with
  | some found => rw [eq_of_numbered? read]
  | none =>
      rw [numbered?, value_filter_text choice] at read
      have tried : label ∈ [branchFalse id, branchEnd id, loopBegin id, loopEnd id] := by
        cases label <;> cases choice <;> simp
      have rejected := List.find?_eq_none.mp read label tried
      simp at rejected

theorem renumber_of_choice? {label : Label} (fixed : label.choice? = none) (amount : Nat) :
    label.renumber amount = label := by
  cases label with
  | branchFalse id => cases fixed
  | branchEnd id => cases fixed
  | loopBegin id => cases fixed
  | loopEnd id => cases fixed
  | _ => rfl

/-- **The spelling of a label is renumbered as the label is.** -/
@[simp] theorem renumberText_text (amount : Nat) (label : Label) :
    renumberText amount label.text = (label.renumber amount).text := by
  unfold renumberText
  split
  next found read => rw [eq_of_numbered? read]
  next unread =>
    have fixed : label.choice? = none := by
      cases choice : label.choice? with
      | none => rfl
      | some id =>
          rw [numbered?_text choice] at unread
          cases unread
    rw [renumber_of_choice? fixed]

end Label

/-- Add to the numbers of choices and loops in an instruction. -/
def Instruction.renumber (amount : Nat) : Instruction → Instruction
  | .loadAddress target name => .loadAddress target (Label.renumberText amount name)
  | .jump name => .jump (Label.renumberText amount name)
  | .branchIfZero tested name => .branchIfZero tested (Label.renumberText amount name)
  | .call name => .call (Label.renumberText amount name)
  | .label name => .label (Label.renumberText amount name)
  | other => other

/-- Code with all its choices and loops renumbered. -/
def renumberCode (amount : Nat) (code : List Instruction) : List Instruction :=
  code.map (Instruction.renumber amount)

section Code

variable (amount : Nat)

@[simp] theorem renumberCode_nil : renumberCode amount [] = [] := rfl

@[simp] theorem renumberCode_cons (instruction : Instruction) (code : List Instruction) :
    renumberCode amount (instruction :: code) =
      instruction.renumber amount :: renumberCode amount code := rfl

@[simp] theorem renumberCode_append (first second : List Instruction) :
    renumberCode amount (first ++ second) =
      renumberCode amount first ++ renumberCode amount second :=
  List.map_append

@[simp] theorem renumberCode_pushCode (registers : List Register) :
    renumberCode amount (pushCode registers) = pushCode registers := by
  simp [renumberCode, pushCode, List.map_flatMap, Instruction.renumber]

@[simp] theorem renumberCode_popCode (registers : List Register) :
    renumberCode amount (popCode registers) = popCode registers := by
  simp [renumberCode, popCode, List.map_flatMap, Instruction.renumber]

@[simp] theorem renumberCode_dropCode (words : Nat) :
    renumberCode amount (dropCode words) = dropCode words := by
  unfold dropCode
  split <;> rfl

@[simp] theorem renumberCode_frameCode (words : Nat) :
    renumberCode amount (frameCode words) = frameCode words := by
  unfold frameCode
  split <;> rfl

@[simp] theorem renumberCode_remark (annotate : Bool) (text : String) :
    renumberCode amount (Plan.remark annotate text).code = (Plan.remark annotate text).code := by
  cases annotate <;> rfl

theorem renumberCode_addressOf (resolve : String → Address) (name : String) (target : Register)
    (pushed : Nat) :
    renumberCode amount (Plan.addressOf resolve name target pushed).code =
      (Plan.addressOf resolve name target pushed).code := by
  unfold Plan.addressOf
  cases resolve name <;> simp [Plan.frameAddress, Instruction.renumber, Label.renumber]

theorem renumberCode_reference (resolve : String → Address) (name : String)
    (cursor pushed : Nat) :
    renumberCode amount (Plan.reference resolve name cursor pushed).code =
      (Plan.reference resolve name cursor pushed).code := by
  rw [Plan.reference, Output.code_append, renumberCode_append, renumberCode_addressOf]
  split <;> rfl

theorem renumber_combine (op : BinaryOperator) (left right : Register) :
    (Emitter.combine op left right).renumber amount = Emitter.combine op left right := by
  cases op <;> rfl

@[simp] theorem renumberCode_unaryCode (op : UnaryOperator) (target : Register) :
    renumberCode amount (Plan.unaryCode op target) = Plan.unaryCode op target := by
  cases op <;> rfl

end Code

/-! ## Plans -/

namespace Plan

/-- From a later number on, the code of each way to lower a node is renumbered. -/
structure Renumbers (amount : Nat) (plan : Plan) : Prop where
  value : ∀ cursor pushed label, (plan.value cursor pushed (label + amount)).code =
    renumberCode amount (plan.value cursor pushed label).code
  address : ∀ cursor pushed label, (plan.address cursor pushed (label + amount)).code =
    renumberCode amount (plan.address cursor pushed label).code
  effect : ∀ pushed label, (plan.effect pushed (label + amount)).code =
    renumberCode amount (plan.effect pushed label).code

section Renumbers

variable {amount : Nat} {value address : Nat → Nat → Nat → Output} {effect : Nat → Nat → Output}
  {choices : Nat} {plans : List Plan}

theorem renumbers_ofPlace
    (renumbers : ∀ cursor pushed label, (value cursor pushed (label + amount)).code =
      renumberCode amount (value cursor pushed label).code)
    (renumbers' : ∀ cursor pushed label, (address cursor pushed (label + amount)).code =
      renumberCode amount (address cursor pushed label).code) :
    (ofPlace value address choices).Renumbers amount :=
  ⟨renumbers, renumbers', renumbers _⟩

theorem renumbers_ofValue
    (renumbers : ∀ cursor pushed label, (value cursor pushed (label + amount)).code =
      renumberCode amount (value cursor pushed label).code) :
    (ofValue value choices).Renumbers amount :=
  ⟨renumbers, renumbers, renumbers _⟩

theorem renumbers_ofEffect
    (renumbers : ∀ pushed label, (effect pushed (label + amount)).code =
      renumberCode amount (effect pushed label).code) :
    (ofEffect effect choices).Renumbers amount := by
  have parked : ∀ cursor pushed label, (parked effect cursor pushed (label + amount)).code =
      renumberCode amount (parked effect cursor pushed label).code := by
    intro cursor pushed label
    simp [Plan.parked, renumbers, Instruction.renumber]
  exact ⟨parked, parked, renumbers⟩

theorem renumbers_sequence (renumbers : ∀ plan ∈ plans, plan.Renumbers amount)
    (pushed label : Nat) :
    (sequence plans pushed (label + amount)).code =
      renumberCode amount (sequence plans pushed label).code := by
  induction plans generalizing label with
  | nil => rfl
  | cons plan rest ih =>
      rw [sequence, sequence, Nat.add_right_comm, Output.code_append, Output.code_append,
        renumberCode_append, (renumbers plan List.mem_cons_self).effect,
        ih fun other member => renumbers other (.tail _ member)]

theorem renumbers_pushArguments (renumbers : ∀ plan ∈ plans, plan.Renumbers amount)
    (pushed label : Nat) :
    (pushArguments plans pushed (label + amount)).code =
      renumberCode amount (pushArguments plans pushed label).code := by
  induction plans generalizing pushed label with
  | nil => rfl
  | cons plan rest ih =>
      have later := ih (fun other member => renumbers other (.tail _ member)) (pushed + 1)
        (label + plan.choices)
      simp [pushArguments, Nat.add_right_comm label amount, later,
        (renumbers plan List.mem_cons_self).value]

theorem renumbers_call (annotate : Bool) (name : String)
    (renumbers : ∀ plan ∈ plans, plan.Renumbers amount) (pushed label : Nat) :
    (call annotate name plans pushed (label + amount)).code =
      renumberCode amount (call annotate name plans pushed label).code := by
  rcases general_or_intrinsic name plans with general | ⟨intrinsic, first, rest, known, rfl⟩
  · have pushes := renumbers_pushArguments
      (fun plan member => renumbers plan (List.mem_reverse.mp member)) (pushed + 1) label
    simp [call_general annotate general, callProcedure, pushes, Instruction.renumber,
      Label.renumber]
  · have inner := renumbers first List.mem_cons_self
    cases intrinsic with
    | read => simp [call_read annotate first rest known, read, inner.address, Instruction.renumber]
    | write => simp [call_write annotate first rest known, write, inner.value, Instruction.renumber]

theorem renumbers_procedure (annotate : Bool) (heading : Header) (locals : List Declaration)
    {body : Plan} (renumbers : body.Renumbers amount) (label : Nat) :
    (procedure annotate heading locals body (label + amount)).code =
      renumberCode amount (procedure annotate heading locals body label).code := by
  simp [code_procedure, prologue, epilogue, renumbers.effect, Instruction.renumber, Label.renumber]

end Renumbers

end Plan

namespace Node

variable {annotate : Bool} {resolve : String → Address} {amount : Nat}

theorem renumbers_of_mem_planAll {nodes : List Node}
    (renumbers : ∀ node ∈ nodes, (node.plan annotate resolve).Renumbers amount) :
    ∀ plan ∈ planAll annotate resolve nodes, plan.Renumbers amount := by
  rw [planAll_eq_map]
  intro plan member
  obtain ⟨node, listed, rfl⟩ := List.mem_map.mp member
  exact renumbers node listed

/-- **Code that starts from a later number is renumbered.** -/
theorem renumbers_plan (node : Node) : (node.plan annotate resolve).Renumbers amount := by
  induction node with
  | program items ih =>
      exact Plan.renumbers_ofEffect (Plan.renumbers_sequence (renumbers_of_mem_planAll ih))
  | procedure heading locals body => exact Plan.renumbers_ofEffect fun _ _ => rfl
  | header heading => exact Plan.renumbers_ofEffect fun _ _ => rfl
  | declarations declared => exact Plan.renumbers_ofEffect fun _ _ => rfl
  | declaration declared => exact Plan.renumbers_ofEffect fun _ _ => rfl
  | block statements ih =>
      exact Plan.renumbers_ofEffect (Plan.renumbers_sequence (renumbers_of_mem_planAll ih))
  | call name arguments ih =>
      exact Plan.renumbers_ofEffect (Plan.renumbers_call _ _ (renumbers_of_mem_planAll ih))
  | assign target value ihTarget ihValue =>
      refine Plan.renumbers_ofEffect fun pushed label => ?_
      simp [Plan.assign, Nat.add_right_comm label amount, ihTarget.address, ihValue.value,
        Instruction.renumber]
  | branch condition consequent ihCondition ihConsequent =>
      refine Plan.renumbers_ofEffect fun pushed label => ?_
      simp [Plan.branch, Nat.add_right_comm _ amount, ihCondition.value, ihConsequent.effect,
        Instruction.renumber, Label.renumber]
  | branchElse condition consequent alternative ihCondition ihConsequent ihAlternative =>
      refine Plan.renumbers_ofEffect fun pushed label => ?_
      simp [Plan.branchElse, Nat.add_right_comm _ amount, ihCondition.value, ihConsequent.effect,
        ihAlternative.effect, Instruction.renumber, Label.renumber]
  | loop condition body ihCondition ihBody =>
      refine Plan.renumbers_ofEffect fun pushed label => ?_
      simp [Plan.loop, Nat.add_right_comm _ amount, ihCondition.value, ihBody.effect,
        Instruction.renumber, Label.renumber]
  | binary op left right ihLeft ihRight =>
      refine Plan.renumbers_ofValue fun cursor pushed label => ?_
      simp [Plan.binary, Nat.add_right_comm label amount, ihLeft.value, ihRight.value,
        renumber_combine]
  | unary op operand ih =>
      have operation : ∀ cursor pushed label,
          (Plan.unary op (operand.plan annotate resolve) cursor pushed (label + amount)).code =
            renumberCode amount
              (Plan.unary op (operand.plan annotate resolve) cursor pushed label).code := by
        intro cursor pushed label
        simp [Plan.unary, ih.value]
      cases op with
      | dereference => exact Plan.renumbers_ofPlace operation ih.value
      | plus => exact Plan.renumbers_ofValue operation
      | minus => exact Plan.renumbers_ofValue operation
      | not => exact Plan.renumbers_ofValue operation
  | constant value => exact Plan.renumbers_ofValue fun _ _ _ => rfl
  | reference name =>
      exact Plan.renumbers_ofPlace (fun _ _ _ => (renumberCode_reference _ _ _ _ _).symm)
        fun _ _ _ => (renumberCode_addressOf _ _ _ _ _).symm

end Node

end ProcLang
