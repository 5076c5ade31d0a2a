import ProcLang.Proofs.Grammar.Shape
import ProcLang.Proofs.Lowering.Plan

/-!
# What expressions and statements do not emit

For an expression or a statement that the grammar reads, lowering emits code and
ordinary log entries. The storage of globals and the warnings of the log are both parts
of the output in which neither of these shows (`Output.Aside`), and every such part is
empty (`Node.Term.lacks`, `Node.Command.lacks`).

The grammar matters for warnings: an intrinsic with more than one argument, or a
procedure where a statement belongs, would give one.
-/

set_option autoImplicit false

namespace ProcLang

/-- A part of the output in which neither code nor ordinary log entries show. -/
structure Output.Aside {β : Type} (part : Output → List β) : Prop where
  append : ∀ first second, part (first ++ second) = part first ++ part second
  code : ∀ code, part (ofCode code) = []
  event : ∀ event : Event, (event.level == .warn) = false → part (ofEvent event) = []

/-- Nothing that is planned has a given part. -/
structure Plan.Lacks {β : Type} (part : Output → List β) (plan : Plan) : Prop where
  value : ∀ cursor pushed label, part (plan.value cursor pushed label) = []
  address : ∀ cursor pushed label, part (plan.address cursor pushed label) = []
  effect : ∀ pushed label, part (plan.effect pushed label) = []

section Lacks

variable {β : Type} {part : Output → List β} (aside : Output.Aside part)

include aside

theorem Output.Aside.empty : part .empty = [] :=
  aside.code []

namespace Plan

variable {plans : List Plan} {value address : Nat → Nat → Nat → Output}
  {effect : Nat → Nat → Output} {choices : Nat}

theorem lacks_ofValue (none : ∀ cursor pushed label, part (value cursor pushed label) = []) :
    (ofValue value choices).Lacks part := by
  refine ⟨none, fun cursor pushed label => ?_, none _⟩
  simp [ofValue, aside.append, aside.event .addressOfValue rfl, none]

omit aside in
theorem lacks_ofPlace (none : ∀ cursor pushed label, part (value cursor pushed label) = [])
    (none' : ∀ cursor pushed label, part (address cursor pushed label) = []) :
    (ofPlace value address choices).Lacks part :=
  ⟨none, none', none _⟩

theorem lacks_ofEffect (none : ∀ pushed label, part (effect pushed label) = []) :
    (ofEffect effect choices).Lacks part := by
  have parked : ∀ cursor pushed label, part (parked effect cursor pushed label) = [] := by
    intro cursor pushed label
    simp [Plan.parked, aside.append, aside.code, aside.event (.parked cursor) rfl, none]
  refine ⟨parked, fun cursor pushed label => ?_, none⟩
  simp [ofEffect, aside.append, aside.event .addressOfValue rfl, parked]

theorem part_addressOf (resolve : String → Address) (name : String) (target : Register)
    (pushed : Nat) : part (addressOf resolve name target pushed) = [] := by
  have slot : ∀ shift, part (frameAddress name shift target pushed) = [] := by
    intro shift
    simp [frameAddress, aside.append, aside.code, aside.event (.frameSlot name shift pushed) rfl]
  unfold addressOf
  cases resolve name with
  | frameLocal shift size => exact slot shift
  | parameter shift => exact slot shift
  | global name size =>
      simp [aside.append, aside.code, fun label => aside.event (.globalLabel name label) rfl]

theorem part_reference (resolve : String → Address) (name : String) (cursor pushed : Nat) :
    part (reference resolve name cursor pushed) = [] := by
  rw [reference, aside.append, part_addressOf aside]
  split
  next => exact aside.empty
  next => exact aside.code _

theorem part_remark (annotate : Bool) (text : String) : part (remark annotate text) = [] := by
  cases annotate with
  | true => exact aside.code _
  | false => exact aside.empty

theorem part_sequence (lacks : ∀ plan ∈ plans, plan.Lacks part) (pushed label : Nat) :
    part (sequence plans pushed label) = [] := by
  induction plans generalizing label with
  | nil => exact aside.empty
  | cons plan rest ih =>
      rw [sequence, aside.append, (lacks plan List.mem_cons_self).effect,
        ih fun plan member => lacks plan (.tail _ member)]
      rfl

theorem part_pushArguments (lacks : ∀ plan ∈ plans, plan.Lacks part) (pushed label : Nat) :
    part (pushArguments plans pushed label) = [] := by
  induction plans generalizing pushed label with
  | nil => exact aside.empty
  | cons plan rest ih =>
      simp [pushArguments, aside.append, aside.code, (lacks plan List.mem_cons_self).value,
        ih fun plan member => lacks plan (.tail _ member)]

/-- A call shows nothing aside if no argument does and an intrinsic has only one. -/
theorem part_call (annotate : Bool) {name : String}
    (single : (Intrinsic.ofName? name).isSome → plans.length = 1)
    (lacks : ∀ plan ∈ plans, plan.Lacks part) (pushed label : Nat) :
    part (call annotate name plans pushed label) = [] := by
  have arguments := part_pushArguments aside
    (fun plan member => lacks plan (List.mem_reverse.mp member)) (pushed + 1) label
  rcases general_or_intrinsic name plans with general | ⟨intrinsic, first, rest, known, rfl⟩
  · simp [call_general annotate general, callProcedure, aside.append, aside.code,
      aside.event (.call name plans.length) rfl, part_remark aside, arguments]
  · have inner := lacks first List.mem_cons_self
    obtain rfl : rest = [] := by simpa using single (by rw [known]; rfl)
    cases intrinsic with
    | read =>
        simp [call_read annotate first [] known, read, extra, aside.append, aside.code,
          aside.event .intrinsicRead rfl, inner.address]
    | write =>
        simp [call_write annotate first [] known, write, extra, aside.append, aside.code,
          aside.event .intrinsicWrite rfl, inner.value]

end Plan

namespace Node

variable {annotate : Bool} {resolve : String → Address} {node : Node}

omit aside in
theorem lacks_of_mem_planAll {nodes : List Node}
    (lacks : ∀ node ∈ nodes, (node.plan annotate resolve).Lacks part) :
    ∀ plan ∈ planAll annotate resolve nodes, plan.Lacks part := by
  rw [planAll_eq_map]
  intro plan member
  obtain ⟨node, listed, rfl⟩ := List.mem_map.mp member
  exact lacks node listed

omit aside in
/-- An intrinsic that the grammar allows has one argument. -/
theorem Callable.length_eq {name : String} {arguments : List Node}
    (callable : Callable name arguments) (known : (Intrinsic.ofName? name).isSome) :
    arguments.length = 1 := by
  unfold Callable at callable
  split at callable
  next unknown =>
    rw [unknown] at known
    cases known
  next =>
    obtain ⟨value, rfl⟩ := callable
    rfl
  next =>
    obtain ⟨target, rfl, -⟩ := callable
    rfl

/-- **An expression shows nothing aside.** -/
theorem Term.lacks (term : node.Term) : (node.plan annotate resolve).Lacks part := by
  induction term with
  | constant value => exact Plan.lacks_ofValue aside fun _ _ _ => aside.code _
  | reference name =>
      exact Plan.lacks_ofPlace (fun _ _ _ => Plan.part_reference aside _ _ _ _)
        fun _ _ _ => Plan.part_addressOf aside _ _ _ _
  | @unary op operand inner ih =>
      have operation : ∀ cursor pushed label,
          part (Plan.unary op (operand.plan annotate resolve) cursor pushed label) = [] :=
        fun cursor pushed label => by simp [Plan.unary, aside.append, aside.code, ih.value]
      cases op with
      | dereference => exact Plan.lacks_ofPlace operation ih.value
      | plus => exact Plan.lacks_ofValue aside operation
      | minus => exact Plan.lacks_ofValue aside operation
      | not => exact Plan.lacks_ofValue aside operation
  | binary op first second ihFirst ihSecond =>
      exact Plan.lacks_ofValue aside fun _ _ _ => by
        simp [Plan.binary, aside.append, aside.code, ihFirst.value, ihSecond.value]
  | call callable all ih =>
      refine Plan.lacks_ofEffect aside (Plan.part_call aside _ (fun known => ?_)
        (lacks_of_mem_planAll ih))
      rw [planAll_eq_map, List.length_map]
      exact callable.length_eq known

/-- **A statement shows nothing aside.** -/
theorem Command.lacks (command : node.Command) : (node.plan annotate resolve).Lacks part := by
  induction command with
  | block all ih =>
      exact Plan.lacks_ofEffect aside (Plan.part_sequence aside (lacks_of_mem_planAll ih))
  | call term => exact term.lacks aside
  | assign assignable place term =>
      exact Plan.lacks_ofEffect aside fun _ _ => by
        simp [Plan.assign, aside.append, aside.code, (place.lacks aside).address,
          (term.lacks aside).value]
  | branch test taken ih =>
      exact Plan.lacks_ofEffect aside fun _ _ => by
        simp [Plan.branch, aside.append, aside.code, fun id => aside.event (.branch id false) rfl,
          (test.lacks aside).value, ih.effect]
  | branchElse test taken skipped ih ih' =>
      exact Plan.lacks_ofEffect aside fun _ _ => by
        simp [Plan.branchElse, aside.append, aside.code,
          fun id => aside.event (.branch id true) rfl,
          (test.lacks aside).value, ih.effect, ih'.effect]
  | loop test taken ih =>
      exact Plan.lacks_ofEffect aside fun _ _ => by
        simp [Plan.loop, aside.append, aside.code, fun id => aside.event (.loop id) rfl,
          (test.lacks aside).value, ih.effect]

end Node

end Lacks

end ProcLang
