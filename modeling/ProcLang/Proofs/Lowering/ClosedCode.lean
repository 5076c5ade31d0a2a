import ProcLang.Proofs.Assembly.Label
import ProcLang.Proofs.Lowering.Following

/-!
# Code that keeps to itself

Code that is lowered from a tree never returns, never stops the machine and
reserves no storage. It leaves only by calling a procedure, and it names nothing
outside but procedures and globals: wherever it jumps, the label is its own
(`Node.plan_isClosed`).

Parts of a choice or a loop jump to labels that the whole defines, so `Closed` is
said of code together with the labels that are still open.
-/

set_option autoImplicit false

namespace ProcLang

/-- What may stand in the code of a tree: a call names a procedure, an address is
that of a global, and there is no return, no stop and no storage. -/
def Instruction.Inner : Instruction → Prop
  | .call target => ∃ name, target = (Label.procedure name).text
  | .loadAddress _ target => ∃ name, target = (Label.global name).text
  | .ret | .halt | .reserve _ => False
  | _ => True

/-- Code of a tree that jumps to its own labels, or to those that are still open. -/
structure Closed (opened : List String) (code : List Instruction) : Prop where
  inner : ∀ instruction ∈ code, instruction.Inner
  used : ∀ name ∈ usedLabels code, name ∈ definedLabels code ∨ name ∈ opened

section Closed

variable {opened : List String} {code first second : List Instruction}

theorem closed_nil : Closed opened [] :=
  ⟨nofun, nofun⟩

theorem Closed.append (closed : Closed opened first) (closed' : Closed opened second) :
    Closed opened (first ++ second) := by
  constructor
  · intro instruction member
    rcases List.mem_append.mp member with member | member
    · exact closed.inner instruction member
    · exact closed'.inner instruction member
  · intro name used
    rw [usedLabels_append] at used
    rw [definedLabels_append, List.mem_append]
    rcases List.mem_append.mp used with used | used
    · exact (closed.used name used).imp_left .inl
    · exact (closed'.used name used).imp_left .inr

theorem Closed.mono (closed : Closed [] code) : Closed opened code :=
  ⟨closed.inner, fun name used => .inl ((closed.used name used).resolve_right List.not_mem_nil)⟩

/-- Open labels that the code defines need not be open. -/
theorem Closed.close (closed : Closed opened code)
    (defined : ∀ name ∈ opened, .label name ∈ code) : Closed [] code := by
  refine ⟨closed.inner, fun name used => .inl ?_⟩
  rcases closed.used name used with own | listed
  · exact own
  · exact mem_definedLabels.mpr (defined name listed)

theorem closed_plain {instruction : Instruction} (inner : instruction.Inner)
    (unused : instruction.usedLabel? = none) : Closed opened [instruction] := by
  constructor
  · exact List.forall_mem_singleton.mpr inner
  · intro name used
    simp [usedLabels, unused] at used

theorem closed_jump {name : String} (listed : name ∈ opened) : Closed opened [.jump name] := by
  constructor
  · exact List.forall_mem_singleton.mpr trivial
  · intro other used
    rw [usedLabels_jump] at used
    exact .inr (List.mem_singleton.mp used ▸ listed)

theorem closed_branchIfZero (register : Register) {name : String} (listed : name ∈ opened) :
    Closed opened [.branchIfZero register name] := by
  constructor
  · exact List.forall_mem_singleton.mpr trivial
  · intro other used
    rw [usedLabels_branchIfZero] at used
    exact .inr (List.mem_singleton.mp used ▸ listed)

theorem closed_label (name : String) : Closed opened [.label name] :=
  closed_plain trivial rfl

theorem closed_flatMap {α : Type} {items : List α} {f : α → List Instruction}
    (closed : ∀ item, Closed opened (f item)) : Closed opened (items.flatMap f) := by
  induction items with
  | nil => exact closed_nil
  | cons item rest ih =>
      rw [List.flatMap_cons]
      exact (closed item).append ih

theorem closed_pushCode (registers : List Register) : Closed opened (pushCode registers) := by
  apply closed_flatMap
  intro register
  apply Closed.append (closed_plain trivial rfl : Closed opened [.store register .stack 0])
  exact closed_plain trivial rfl

theorem closed_popCode (registers : List Register) : Closed opened (popCode registers) := by
  apply closed_flatMap
  intro register
  apply Closed.append (closed_plain trivial rfl : Closed opened [.addImmediate .stack .stack (-1)])
  exact closed_plain trivial rfl

theorem closed_dropCode (words : Nat) : Closed opened (dropCode words) := by
  unfold dropCode
  split
  · exact closed_plain trivial rfl
  · exact closed_nil

theorem closed_remark (annotate : Bool) (text : String) :
    Closed opened (Plan.remark annotate text).code := by
  unfold Plan.remark
  split
  · exact closed_plain trivial rfl
  · exact closed_nil

end Closed

/-! ## Plans -/

/-- All code of a plan keeps to itself. -/
structure Plan.IsClosed (plan : Plan) : Prop where
  value : ∀ cursor pushed label, Closed [] (plan.value cursor pushed label).code
  address : ∀ cursor pushed label, Closed [] (plan.address cursor pushed label).code
  effect : ∀ pushed label, Closed [] (plan.effect pushed label).code

namespace Plan

variable {choices : Nat}

theorem isClosed_ofPlace {value address : Nat → Nat → Nat → Output}
    (closed : ∀ cursor pushed label, Closed [] (value cursor pushed label).code)
    (closed' : ∀ cursor pushed label, Closed [] (address cursor pushed label).code) :
    (ofPlace value address choices).IsClosed :=
  ⟨closed, closed', closed Register.scratchBase⟩

theorem isClosed_ofValue {value : Nat → Nat → Nat → Output}
    (closed : ∀ cursor pushed label, Closed [] (value cursor pushed label).code) :
    (ofValue value choices).IsClosed :=
  ⟨closed, closed, closed Register.scratchBase⟩

theorem isClosed_ofEffect {effect : Nat → Nat → Output}
    (closed : ∀ pushed label, Closed [] (effect pushed label).code) :
    (ofEffect effect choices).IsClosed := by
  have parked : ∀ cursor pushed label, Closed [] (parked effect cursor pushed label).code := by
    intro cursor pushed label
    exact (((closed_pushCode _).append (closed _ _)).append (closed_popCode _)).append
      (closed_plain trivial rfl)
  exact ⟨parked, parked, closed⟩

theorem closed_addressOf (resolve : String → Address) (name : String) (target : Register)
    (pushed : Nat) : Closed [] (addressOf resolve name target pushed).code := by
  unfold addressOf
  cases resolve name with
  | frameLocal shift size => exact closed_plain trivial rfl
  | parameter shift => exact closed_plain trivial rfl
  | global name size => exact closed_plain ⟨name, rfl⟩ rfl

theorem closed_reference (resolve : String → Address) (name : String) (cursor pushed : Nat) :
    Closed [] (reference resolve name cursor pushed).code := by
  apply (closed_addressOf resolve name _ pushed).append
  split
  · exact closed_nil
  · exact closed_plain trivial rfl

section Constructs

variable {left right operand target value condition consequent alternative body : Plan}
  {plans : List Plan}

theorem closed_binary (op : BinaryOperator) (closed : left.IsClosed) (closed' : right.IsClosed)
    (cursor pushed label : Nat) : Closed [] (binary op left right cursor pushed label).code := by
  apply ((closed.value _ _ _).append (closed'.value _ _ _)).append
  cases op <;> exact closed_plain trivial rfl

theorem closed_unary (op : UnaryOperator) (closed : operand.IsClosed) (cursor pushed label : Nat) :
    Closed [] (unary op operand cursor pushed label).code := by
  apply (closed.value _ _ _).append
  cases op with
  | plus => exact closed_nil
  | minus => exact closed_plain trivial rfl
  | not => exact closed_plain trivial rfl
  | dereference => exact closed_plain trivial rfl

theorem closed_assign (closed : target.IsClosed) (closed' : value.IsClosed) (pushed label : Nat) :
    Closed [] (assign target value pushed label).code :=
  ((closed.address _ _ _).append (closed'.value _ _ _)).append (closed_plain trivial rfl)

theorem closed_branch (closed : condition.IsClosed) (closed' : consequent.IsClosed)
    (pushed label : Nat) : Closed [] (branch condition consequent pushed label).code := by
  let opened := [(Label.branchFalse (label + condition.choices)).text]
  have whole : Closed opened (branch condition consequent pushed label).code :=
    (((((closed.value _ _ _).mono.append closed_nil).append
      (closed_branchIfZero _ List.mem_cons_self)).append (closed'.effect _ _).mono).append
        (closed_label _)).append (closed_label _)
  apply whole.close
  simp [opened, branch]

theorem closed_branchElse (closed : condition.IsClosed) (closed' : consequent.IsClosed)
    (closed'' : alternative.IsClosed) (pushed label : Nat) :
    Closed [] (branchElse condition consequent alternative pushed label).code := by
  let opened := [(Label.branchFalse (label + condition.choices)).text,
    (Label.branchEnd (label + condition.choices)).text]
  have whole : Closed opened (branchElse condition consequent alternative pushed label).code :=
    (((((((closed.value _ _ _).mono.append closed_nil).append
      (closed_branchIfZero _ List.mem_cons_self)).append (closed'.effect _ _).mono).append
        (closed_jump (.tail _ List.mem_cons_self))).append (closed_label _)).append
          (closed''.effect _ _).mono).append (closed_label _)
  apply whole.close
  simp [opened, branchElse]

theorem closed_loop (closed : condition.IsClosed) (closed' : body.IsClosed) (pushed label : Nat) :
    Closed [] (loop condition body pushed label).code := by
  let opened := [(Label.loopBegin label).text, (Label.loopEnd label).text]
  have whole : Closed opened (loop condition body pushed label).code :=
    ((((((closed_nil.append (closed_label _)).append (closed.value _ _ _).mono).append
      (closed_branchIfZero _ (.tail _ List.mem_cons_self))).append (closed'.effect _ _).mono).append
        (closed_jump List.mem_cons_self)).append (closed_label _))
  apply whole.close
  simp [opened, loop]

theorem closed_sequence (closed : ∀ plan ∈ plans, plan.IsClosed) (pushed label : Nat) :
    Closed [] (sequence plans pushed label).code := by
  induction plans generalizing label with
  | nil => exact closed_nil
  | cons plan rest ih =>
      exact ((closed plan List.mem_cons_self).effect _ _).append
        (ih (fun other member => closed other (.tail _ member)) _)

theorem closed_pushArguments (closed : ∀ plan ∈ plans, plan.IsClosed) (pushed label : Nat) :
    Closed [] (pushArguments plans pushed label).code := by
  induction plans generalizing pushed label with
  | nil => exact closed_nil
  | cons plan rest ih =>
      exact (((closed plan List.mem_cons_self).value _ _ _).append (closed_pushCode _)).append
        (ih (fun other member => closed other (.tail _ member)) _ _)

theorem closed_callProcedure (annotate : Bool) (name : String)
    (closed : ∀ plan ∈ plans, plan.IsClosed) (pushed label : Nat) :
    Closed [] (callProcedure annotate name plans pushed label).code := by
  have arguments := closed_pushArguments
    (fun plan member => closed plan (List.mem_reverse.mp member)) (pushed + 1) label
  have enter : Closed [] [.call (Label.procedure name).text] := closed_plain ⟨name, rfl⟩ rfl
  exact (((((closed_nil.append (closed_remark _ _)).append (closed_pushCode _)).append
    arguments).append enter).append (closed_dropCode _)).append (closed_popCode _)

theorem closed_call (annotate : Bool) (name : String) (closed : ∀ plan ∈ plans, plan.IsClosed)
    (pushed label : Nat) : Closed [] (call annotate name plans pushed label).code := by
  rcases general_or_intrinsic name plans with general | ⟨intrinsic, first, rest, known, rfl⟩
  · rw [call_general annotate general]
    exact closed_callProcedure annotate name closed pushed label
  · have argument := closed first List.mem_cons_self
    cases intrinsic with
    | read =>
        rw [call_read annotate first rest known, Output.code_append, code_extra, List.nil_append]
        apply (closed_nil.append (argument.address _ _ _)).append
        apply Closed.append (closed_plain trivial rfl :
          Closed [] [.read (.general (Register.scratchBase + 1))])
        exact closed_plain trivial rfl
    | write =>
        rw [call_write annotate first rest known, Output.code_append, code_extra, List.nil_append]
        exact (closed_nil.append (argument.value _ _ _)).append (closed_plain trivial rfl)

end Constructs

end Plan

namespace Node

variable (annotate : Bool) (resolve : String → Address)

theorem isClosed_of_mem_planAll {nodes : List Node}
    (closed : ∀ node ∈ nodes, (node.plan annotate resolve).IsClosed) :
    ∀ plan ∈ planAll annotate resolve nodes, plan.IsClosed := by
  intro plan member
  rw [planAll_eq_map] at member
  obtain ⟨node, listed, rfl⟩ := List.mem_map.mp member
  exact closed node listed

/-- **All code of a node keeps to itself.** -/
theorem plan_isClosed (node : Node) : (node.plan annotate resolve).IsClosed := by
  induction node with
  | program items ih =>
      exact Plan.isClosed_ofEffect (Plan.closed_sequence (isClosed_of_mem_planAll _ _ ih))
  | procedure heading locals body _ => exact Plan.isClosed_ofEffect fun _ _ => closed_nil
  | header heading => exact Plan.isClosed_ofEffect fun _ _ => closed_nil
  | declarations declared => exact Plan.isClosed_ofEffect fun _ _ => closed_nil
  | declaration declared => exact Plan.isClosed_ofEffect fun _ _ => closed_nil
  | block statements ih =>
      exact Plan.isClosed_ofEffect (Plan.closed_sequence (isClosed_of_mem_planAll _ _ ih))
  | call name arguments ih =>
      exact Plan.isClosed_ofEffect (Plan.closed_call annotate name (isClosed_of_mem_planAll _ _ ih))
  | assign target value ihTarget ihValue =>
      exact Plan.isClosed_ofEffect (Plan.closed_assign ihTarget ihValue)
  | branch condition consequent ihCondition ihConsequent =>
      exact Plan.isClosed_ofEffect (Plan.closed_branch ihCondition ihConsequent)
  | branchElse condition consequent alternative ihCondition ihConsequent ihAlternative =>
      exact Plan.isClosed_ofEffect (Plan.closed_branchElse ihCondition ihConsequent ihAlternative)
  | loop condition body ihCondition ihBody =>
      exact Plan.isClosed_ofEffect (Plan.closed_loop ihCondition ihBody)
  | binary op left right ihLeft ihRight =>
      exact Plan.isClosed_ofValue (Plan.closed_binary op ihLeft ihRight)
  | unary op operand ih =>
      have value := Plan.closed_unary op ih
      cases op with
      | dereference => exact Plan.isClosed_ofPlace value ih.value
      | plus => exact Plan.isClosed_ofValue value
      | minus => exact Plan.isClosed_ofValue value
      | not => exact Plan.isClosed_ofValue value
  | constant value => exact Plan.isClosed_ofValue fun _ _ _ => closed_plain trivial rfl
  | reference name =>
      exact Plan.isClosed_ofPlace (fun _ _ _ => Plan.closed_reference resolve name _ _)
        fun _ _ _ => Plan.closed_addressOf resolve name _ _

end Node

end ProcLang
