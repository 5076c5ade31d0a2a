import ProcLang.Proofs.Assembly.Label
import ProcLang.Proofs.Lowering.Plan
import ProcLang.Proofs.Syntax.Induction

/-!
# Labels of lowered code

The labels that the code of a node defines belong to the choices and loops that
were numbered while the node was lowered, and no label is defined twice
(`Node.plan_numbers`).
-/

set_option autoImplicit false

namespace ProcLang

/-- Labels of choices and loops numbered from `low` to before `high`, each of
them once. -/
structure Numbered (low high : Nat) (names : List String) : Prop where
  nodup : names.Nodup
  range : ∀ name ∈ names, ∃ place : Label, ∃ id,
    place.choice? = some id ∧ place.text = name ∧ low ≤ id ∧ id < high

section Numbered

variable {low middle middle' high : Nat} {names names' : List String}

theorem numbered_nil : Numbered low high [] :=
  ⟨.nil, nofun⟩

/-- Where nothing was numbered, there are no labels. -/
theorem Numbered.eq_nil (numbered : Numbered low low names) : names = [] := by
  rw [List.eq_nil_iff_forall_not_mem]
  intro name member
  obtain ⟨-, id, -, -, above, below⟩ := numbered.range name member
  omega

theorem Numbered.append (first : Numbered low middle names) (second : Numbered middle' high names')
    (apart : middle ≤ middle') (lowest : low ≤ middle') (highest : middle ≤ high) :
    Numbered low high (names ++ names') := by
  refine ⟨List.nodup_append.mpr ⟨first.nodup, second.nodup, ?_⟩, ?_⟩
  · rintro name member name' member' rfl
    obtain ⟨place, id, choice, spelled, -, below⟩ := first.range name member
    obtain ⟨place', id', choice', spelled', above, -⟩ := second.range name member'
    obtain rfl := Label.text_injective (spelled.trans spelled'.symm)
    obtain rfl : id = id' := Option.some.inj (choice.symm.trans choice')
    omega
  · intro name member
    rcases List.mem_append.mp member with member | member
    · obtain ⟨place, id, choice, spelled, above, below⟩ := first.range name member
      exact ⟨place, id, choice, spelled, above, Nat.lt_of_lt_of_le below highest⟩
    · obtain ⟨place, id, choice, spelled, above, below⟩ := second.range name member
      exact ⟨place, id, choice, spelled, Nat.le_trans lowest above, below⟩

theorem Numbered.perm (numbered : Numbered low high names) (perm : names'.Perm names) :
    Numbered low high names' :=
  ⟨perm.nodup_iff.mpr numbered.nodup,
    fun name member => numbered.range name (perm.mem_iff.mp member)⟩

/-- Two labels of one choice or loop. -/
theorem numbered_pair (first second : Label) {id : Nat} (choice : first.choice? = some id)
    (choice' : second.choice? = some id) (different : first ≠ second) :
    Numbered id (id + 1) [first.text, second.text] := by
  refine ⟨?_, ?_⟩
  · simpa using fun same => different (Label.text_injective same)
  · simp only [List.forall_mem_cons]
    exact ⟨⟨first, id, choice, rfl, Nat.le_refl _, Nat.lt_succ_self _⟩,
      ⟨second, id, choice', rfl, Nat.le_refl _, Nat.lt_succ_self _⟩, nofun⟩

/-- The labels of a choice or loop among those of its parts. -/
theorem Numbered.around {id : Nat} {own : List String} (before : Numbered low id names)
    (pair : Numbered id (id + 1) own) (after : Numbered (id + 1) high names') (order : low ≤ id)
    (order' : id + 1 ≤ high) : Numbered low high (names ++ (own ++ names')) :=
  before.append (pair.append after (Nat.le_refl _) (Nat.le_succ _) order') (Nat.le_refl _) order
    (Nat.le_of_succ_le order')

end Numbered

/-! ## Code without labels -/

@[simp] theorem definedLabels_pushCode (registers : List Register) :
    definedLabels (pushCode registers) = [] := by
  induction registers with
  | nil => rfl
  | cons register rest ih =>
      rw [pushCode, List.flatMap_cons, ← pushCode, definedLabels_append, ih]
      rfl

@[simp] theorem definedLabels_popCode (registers : List Register) :
    definedLabels (popCode registers) = [] := by
  induction registers with
  | nil => rfl
  | cons register rest ih =>
      rw [popCode, List.flatMap_cons, ← popCode, definedLabels_append, ih]
      rfl

@[simp] theorem definedLabels_dropCode (words : Nat) : definedLabels (dropCode words) = [] := by
  unfold dropCode
  split <;> rfl

namespace Plan

@[simp] theorem definedLabels_remark (annotate : Bool) (text : String) :
    definedLabels (remark annotate text).code = [] := by
  cases annotate <;> rfl

@[simp] theorem definedLabels_addressOf (resolve : String → Address) (name : String)
    (target : Register) (pushed : Nat) :
    definedLabels (addressOf resolve name target pushed).code = [] := by
  unfold addressOf
  cases resolve name <;> rfl

@[simp] theorem definedLabels_reference (resolve : String → Address) (name : String)
    (cursor pushed : Nat) : definedLabels (reference resolve name cursor pushed).code = [] := by
  unfold reference
  split
  · simp
  · rw [Output.code_append, definedLabels_append, definedLabels_addressOf]
    rfl

@[simp] theorem definedLabels_unaryCode (op : UnaryOperator) (target : Register) :
    definedLabels (unaryCode op target) = [] := by
  cases op <;> rfl

@[simp] theorem definedLabels_combine (op : BinaryOperator) (left right : Register) :
    definedLabels [Emitter.combine op left right] = [] := by
  cases op <;> rfl

/-! ## Plans -/

/-- The labels in all code of a plan are those of its choices and loops. -/
structure Numbers (plan : Plan) : Prop where
  value : ∀ cursor pushed label,
    Numbered label (label + plan.choices) (definedLabels (plan.value cursor pushed label).code)
  address : ∀ cursor pushed label,
    Numbered label (label + plan.choices) (definedLabels (plan.address cursor pushed label).code)
  effect : ∀ pushed label,
    Numbered label (label + plan.choices) (definedLabels (plan.effect pushed label).code)

section Kinds

variable {value address : Nat → Nat → Nat → Output} {effect : Nat → Nat → Output} {choices : Nat}

theorem numbers_ofValue (numbered : ∀ cursor pushed label,
    Numbered label (label + choices) (definedLabels (value cursor pushed label).code)) :
    (ofValue value choices).Numbers :=
  ⟨numbered, numbered, numbered Register.scratchBase⟩

theorem numbers_ofPlace (numbered : ∀ cursor pushed label,
      Numbered label (label + choices) (definedLabels (value cursor pushed label).code))
    (numbered' : ∀ cursor pushed label,
      Numbered label (label + choices) (definedLabels (address cursor pushed label).code)) :
    (ofPlace value address choices).Numbers :=
  ⟨numbered, numbered', numbered Register.scratchBase⟩

theorem numbers_ofEffect (numbered : ∀ pushed label,
    Numbered label (label + choices) (definedLabels (effect pushed label).code)) :
    (ofEffect effect choices).Numbers := by
  have parked : ∀ cursor pushed label, Numbered label (label + choices)
      (definedLabels (parked effect cursor pushed label).code) := by
    intro cursor pushed label
    have load : definedLabels [.loadImmediate (.general cursor) 0] = [] := rfl
    simpa [Plan.parked, load] using
      numbered (pushed + (Emitter.scratchBelow cursor).length) label
  exact ⟨parked, parked, numbered⟩

end Kinds

section Constructs

variable {left right operand target condition consequent alternative body : Plan}
  {plans : List Plan}

theorem numbered_binary (op : BinaryOperator) (numbers : left.Numbers) (numbers' : right.Numbers)
    (cursor pushed label : Nat) :
    Numbered label (label + (left.choices + right.choices))
      (definedLabels (binary op left right cursor pushed label).code) := by
  have both := (numbers.value cursor pushed label).append
    (numbers'.value (cursor + 1) pushed (label + left.choices)) (Nat.le_refl _) (by omega)
    (by omega)
  simpa [binary, Nat.add_assoc] using both

theorem numbered_unary (op : UnaryOperator) (numbers : operand.Numbers)
    (cursor pushed label : Nat) :
    Numbered label (label + operand.choices)
      (definedLabels (unary op operand cursor pushed label).code) := by
  simpa [unary] using numbers.value cursor pushed label

theorem numbered_sequence (numbers : ∀ plan ∈ plans, plan.Numbers) (pushed label : Nat) :
    Numbered label (label + choicesOf plans)
      (definedLabels (sequence plans pushed label).code) := by
  induction plans generalizing label with
  | nil => exact numbered_nil
  | cons plan rest ih =>
      have both := ((numbers plan List.mem_cons_self).effect pushed label).append
        (ih (fun other member => numbers other (.tail _ member)) (label + plan.choices))
        (Nat.le_refl _) (by omega) (by omega)
      simpa [sequence, Nat.add_assoc] using both

theorem numbered_pushArguments (numbers : ∀ plan ∈ plans, plan.Numbers) (pushed label : Nat) :
    Numbered label (label + choicesOf plans)
      (definedLabels (pushArguments plans pushed label).code) := by
  induction plans generalizing pushed label with
  | nil => exact numbered_nil
  | cons plan rest ih =>
      have both :=
        ((numbers plan List.mem_cons_self).value Register.scratchBase pushed label).append
          (ih (fun other member => numbers other (.tail _ member)) (pushed + 1)
            (label + plan.choices))
        (Nat.le_refl _) (by omega) (by omega)
      simpa [pushArguments, Nat.add_assoc] using both

theorem numbered_callProcedure (annotate : Bool) (name : String)
    (numbers : ∀ plan ∈ plans, plan.Numbers) (pushed label : Nat) :
    Numbered label (label + choicesOf plans)
      (definedLabels (callProcedure annotate name plans pushed label).code) := by
  have arguments := numbered_pushArguments
    (fun plan member => numbers plan (List.mem_reverse.mp member)) (pushed + 1) label
  have enter : definedLabels [.call (Label.procedure name).text] = [] := rfl
  simpa only [callProcedure, Output.code_append, Output.code_ofCode, Output.code_ofEvent,
    definedLabels_append, definedLabels_nil, definedLabels_remark, definedLabels_pushCode,
    definedLabels_popCode, definedLabels_dropCode, enter, List.nil_append, List.append_nil,
    choicesOf_reverse] using arguments

theorem numbered_call (annotate : Bool) (name : String) (numbers : ∀ plan ∈ plans, plan.Numbers)
    (pushed label : Nat) :
    Numbered label (label + callChoices name plans)
      (definedLabels (call annotate name plans pushed label).code) := by
  rcases general_or_intrinsic name plans with general | ⟨intrinsic, first, rest, known, rfl⟩
  · rw [call_general annotate general, callChoices_general general]
    exact numbered_callProcedure annotate name numbers pushed label
  · have numbers := numbers first List.mem_cons_self
    rw [callChoices_intrinsic first rest known]
    cases intrinsic with
    | read =>
        have last : definedLabels [.read (.general (Register.scratchBase + 1)),
          .store (.general (Register.scratchBase + 1)) (.general Register.scratchBase) 0] = [] :=
        rfl
        rw [call_read annotate first rest known]
        simpa [read, last] using numbers.address Register.scratchBase pushed label
    | write =>
        have last : definedLabels [.write (.general Register.scratchBase)] = [] := rfl
        rw [call_write annotate first rest known]
        simpa [write, last] using numbers.value Register.scratchBase pushed label

theorem numbered_assign (numbers : target.Numbers) (numbers' : operand.Numbers)
    (pushed label : Nat) :
    Numbered label (label + (target.choices + operand.choices))
      (definedLabels (assign target operand pushed label).code) := by
  have both := (numbers.address Register.scratchBase pushed label).append
    (numbers'.value (Register.scratchBase + 1) pushed (label + target.choices)) (Nat.le_refl _)
    (by omega) (by omega)
  have last : definedLabels
      [.store (.general (Register.scratchBase + 1)) (.general Register.scratchBase) 0] = [] := rfl
  simpa [assign, last, Nat.add_assoc] using both

theorem numbered_branch (numbers : condition.Numbers) (numbers' : consequent.Numbers)
    (pushed label : Nat) :
    Numbered label (label + (condition.choices + 1 + consequent.choices))
      (definedLabels (branch condition consequent pushed label).code) := by
  have parts := (numbers.value Register.scratchBase pushed label).around
    (numbered_pair (.branchFalse _) (.branchEnd _) rfl rfl nofun)
    (numbers'.effect pushed (label + condition.choices + 1)) (by omega) (by omega)
  rw [Nat.add_assoc condition.choices, ← Nat.add_assoc label, ← Nat.add_assoc]
  refine parts.perm ?_
  simp only [branch, Output.code_append, Output.code_ofCode, Output.code_ofEvent,
    definedLabels_append, definedLabels_label, definedLabels_branchIfZero, List.append_nil]
  simp only [List.perm_iff_count, List.count_append, List.count_cons, List.count_nil]
  intro name
  omega

theorem numbered_branchElse (numbers : condition.Numbers) (numbers' : consequent.Numbers)
    (numbers'' : alternative.Numbers) (pushed label : Nat) :
    Numbered label
      (label + (condition.choices + 1 + consequent.choices + alternative.choices))
      (definedLabels (branchElse condition consequent alternative pushed label).code) := by
  have both := (numbers'.effect pushed (label + condition.choices + 1)).append
    (numbers''.effect pushed (label + condition.choices + 1 + consequent.choices)) (Nat.le_refl _)
    (by omega) (by omega)
  have parts := (numbers.value Register.scratchBase pushed label).around
    (numbered_pair (.branchFalse _) (.branchEnd _) rfl rfl nofun) both (by omega)
    (by omega)
  rw [← Nat.add_assoc, ← Nat.add_assoc, ← Nat.add_assoc]
  refine parts.perm ?_
  simp only [branchElse, Output.code_append, Output.code_ofCode, Output.code_ofEvent,
    definedLabels_append, definedLabels_label, definedLabels_branchIfZero, definedLabels_jump,
    List.append_nil]
  simp only [List.perm_iff_count, List.count_append, List.count_cons, List.count_nil]
  intro name
  omega

theorem numbered_loop (numbers : condition.Numbers) (numbers' : body.Numbers)
    (pushed label : Nat) :
    Numbered label (label + (1 + condition.choices + body.choices))
      (definedLabels (loop condition body pushed label).code) := by
  have both := (numbers.value Register.scratchBase pushed (label + 1)).append
    (numbers'.effect pushed (label + 1 + condition.choices)) (Nat.le_refl _) (by omega) (by omega)
  have parts := (numbered_nil : Numbered label label []).around
    (numbered_pair (.loopBegin _) (.loopEnd _) rfl rfl nofun) both (by omega)
    (by omega)
  rw [← Nat.add_assoc, ← Nat.add_assoc]
  refine parts.perm ?_
  simp only [loop, Output.code_append, Output.code_ofCode, Output.code_ofEvent,
    definedLabels_append, definedLabels_label, definedLabels_branchIfZero, definedLabels_jump,
    List.append_nil, List.nil_append]
  simp only [List.perm_iff_count, List.count_append, List.count_cons, List.count_nil]
  intro name
  omega

end Constructs

end Plan

theorem Node.numbers_of_mem_planAll {annotate : Bool} {resolve : String → Address}
    {nodes : List Node} (numbers : ∀ node ∈ nodes, (node.plan annotate resolve).Numbers) :
    ∀ plan ∈ planAll annotate resolve nodes, plan.Numbers := by
  rw [planAll_eq_map]
  intro plan member
  obtain ⟨node, listed, rfl⟩ := List.mem_map.mp member
  exact numbers node listed

/-- **The labels of lowered code are those of the choices and loops in it, each
defined once.** -/
theorem Node.plan_numbers (annotate : Bool) (resolve : String → Address) (node : Node) :
    (node.plan annotate resolve).Numbers := by
  induction node with
  | program items ih =>
      exact Plan.numbers_ofEffect (Plan.numbered_sequence (numbers_of_mem_planAll ih))
  | procedure heading locals body _ => exact Plan.numbers_ofEffect fun _ _ => numbered_nil
  | header heading => exact Plan.numbers_ofEffect fun _ _ => numbered_nil
  | declarations declared => exact Plan.numbers_ofEffect fun _ _ => numbered_nil
  | declaration declared => exact Plan.numbers_ofEffect fun _ _ => numbered_nil
  | block statements ih =>
      exact Plan.numbers_ofEffect (Plan.numbered_sequence (numbers_of_mem_planAll ih))
  | call name arguments ih =>
      exact Plan.numbers_ofEffect
        (Plan.numbered_call annotate name (numbers_of_mem_planAll ih))
  | assign target value ihTarget ihValue =>
      exact Plan.numbers_ofEffect (Plan.numbered_assign ihTarget ihValue)
  | branch condition consequent ihCondition ihConsequent =>
      exact Plan.numbers_ofEffect (Plan.numbered_branch ihCondition ihConsequent)
  | branchElse condition consequent alternative ihCondition ihConsequent ihAlternative =>
      exact Plan.numbers_ofEffect
        (Plan.numbered_branchElse ihCondition ihConsequent ihAlternative)
  | loop condition body ihCondition ihBody =>
      exact Plan.numbers_ofEffect (Plan.numbered_loop ihCondition ihBody)
  | binary op left right ihLeft ihRight =>
      exact Plan.numbers_ofValue (Plan.numbered_binary op ihLeft ihRight)
  | unary op operand ih =>
      have operation := Plan.numbered_unary op ih
      cases op with
      | dereference => exact Plan.numbers_ofPlace operation ih.value
      | plus => exact Plan.numbers_ofValue operation
      | minus => exact Plan.numbers_ofValue operation
      | not => exact Plan.numbers_ofValue operation
  | constant value => exact Plan.numbers_ofValue fun _ _ _ => numbered_nil
  | reference name =>
      refine Plan.numbers_ofPlace (fun cursor pushed label => ?_) fun cursor pushed label => ?_
      · rw [Plan.definedLabels_reference]
        exact numbered_nil
      · rw [Plan.definedLabels_addressOf]
        exact numbered_nil

end ProcLang
