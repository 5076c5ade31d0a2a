import ProcLang.Proofs.Lowering.ProgramPlan

/-!
# Nodes that are lowered

Lowering does not go over every node of a tree: a procedure inside a statement is
left out with its body, and an intrinsic uses its first argument only.
`Node.reached` are the nodes that lowering does go over, in the order in which it
comes to them; the arguments of a call come last to first.

A number is taken for each choice and each loop among them (`Node.choices_plan`),
and storage is reserved for each declaration among them, in whichever of the three
ways the node is lowered (`Node.stores_plan`).
-/

set_option autoImplicit false

namespace ProcLang

namespace Node

/-- The nodes below a call that are lowered, given those of each argument. -/
def callReached (name : String) (arguments : List (List Node)) : List Node :=
  match Intrinsic.ofName? name, arguments with
  | some _, first :: _ => first
  | _, arguments => arguments.reverse.flatten

mutual
/-- The nodes that are lowered with a node, itself first. -/
def reached : Node → List Node
  | .program items => .program items :: (reachedEach items).flatten
  | .procedure heading locals body => [.procedure heading locals body]
  | .header heading => [.header heading]
  | .declarations declared => [.declarations declared]
  | .declaration declared => [.declaration declared]
  | .block statements => .block statements :: (reachedEach statements).flatten
  | .call name arguments => .call name arguments :: callReached name (reachedEach arguments)
  | .assign target value => .assign target value :: (reached target ++ reached value)
  | .branch condition consequent none =>
      .branch condition consequent none :: (reached condition ++ reached consequent)
  | .branch condition consequent (some alternative) =>
      .branch condition consequent (some alternative) ::
        (reached condition ++ reached consequent ++ reached alternative)
  | .loop condition body => .loop condition body :: (reached condition ++ reached body)
  | .binary op left right => .binary op left right :: (reached left ++ reached right)
  | .unary op operand => .unary op operand :: reached operand
  | .constant value => [.constant value]
  | .reference name => [.reference name]

/-- The nodes that are lowered with each of several nodes. -/
def reachedEach : List Node → List (List Node)
  | [] => []
  | node :: rest => reached node :: reachedEach rest
end

theorem reachedEach_eq_map (nodes : List Node) : reachedEach nodes = nodes.map reached := by
  induction nodes with
  | nil => rfl
  | cons node rest ih => rw [reachedEach, ih, List.map_cons]

section Call

variable {name : String} {arguments : List (List Node)}

theorem callReached_general (general : Intrinsic.ofName? name = none ∨ arguments = []) :
    callReached name arguments = arguments.reverse.flatten := by
  rcases general with unknown | rfl
  · simp [callReached, unknown]
  · simp [callReached]

theorem callReached_intrinsic {intrinsic : Intrinsic} (first : List Node)
    (rest : List (List Node)) (known : Intrinsic.ofName? name = some intrinsic) :
    callReached name (first :: rest) = first := by
  simp [callReached, known]

end Call

/-! ## Choices and loops -/

/-- Whether a node is a choice or a loop. -/
def isChoice : Node → Bool
  | .branch _ _ _ | .loop _ _ => true
  | _ => false

/-- How many choices and loops are lowered with a node. -/
def choices (node : Node) : Nat :=
  node.reached.countP isChoice

section Choices

variable {annotate : Bool} {resolve : String → Address}

theorem choicesOf_planAll {nodes : List Node}
    (each : ∀ node ∈ nodes, (node.plan annotate resolve).choices = node.choices) :
    Plan.choicesOf (planAll annotate resolve nodes) =
      (reachedEach nodes).flatten.countP isChoice := by
  rw [planAll_eq_map, reachedEach_eq_map, Plan.choicesOf, List.countP_flatten, List.map_map,
    List.map_map]
  exact congrArg List.sum (List.map_congr_left each)

/-- **A plan takes a number for each choice and each loop that is lowered.** -/
theorem choices_plan (node : Node) : (node.plan annotate resolve).choices = node.choices := by
  induction node with
  | program items ih =>
      simp [plan, Plan.ofEffect, choices, reached, isChoice, choicesOf_planAll ih]
  | procedure heading locals body => rfl
  | header heading => rfl
  | declarations declared => rfl
  | declaration declared => rfl
  | block statements ih =>
      simp [plan, Plan.ofEffect, choices, reached, isChoice, choicesOf_planAll ih]
  | call name arguments ih =>
      have all := choicesOf_planAll ih
      simp only [plan, Plan.ofEffect, choices, reached, List.countP_cons, isChoice]
      rcases Plan.general_or_intrinsic name arguments with
        general | ⟨intrinsic, first, rest, known, rfl⟩
      · rw [Plan.callChoices_general (general.imp_right (by rintro rfl; rfl)),
          callReached_general (general.imp_right (by rintro rfl; rfl)), all]
        simp [List.countP_flatten, List.sum_reverse]
      · rw [planAll, Plan.callChoices_intrinsic _ _ known, reachedEach,
          callReached_intrinsic _ _ known, ih first List.mem_cons_self]
        rfl
  | assign target value ihTarget ihValue =>
      simp [plan, Plan.ofEffect, ihTarget, ihValue, choices, reached, isChoice]
  | branch condition consequent ihCondition ihConsequent =>
      simp only [plan, Plan.ofEffect, ihCondition, ihConsequent, choices, reached, List.countP_cons,
        List.countP_append, isChoice, if_true]
      omega
  | branchElse condition consequent alternative ihCondition ihConsequent ihAlternative =>
      simp only [plan, Plan.ofEffect, ihCondition, ihConsequent, ihAlternative, choices, reached,
        List.countP_cons, List.countP_append, isChoice, if_true]
      omega
  | loop condition body ihCondition ihBody =>
      simp only [plan, Plan.ofEffect, ihCondition, ihBody, choices, reached, List.countP_cons,
        List.countP_append, isChoice, if_true]
      omega
  | binary op left right ihLeft ihRight =>
      simp [plan, Plan.ofValue, ihLeft, ihRight, choices, reached, isChoice]
  | unary op operand ih =>
      cases op <;> simp [plan, Plan.ofValue, Plan.ofPlace, ih, choices, reached, isChoice]
  | constant value => rfl
  | reference name => rfl

end Choices

/-! ## Declarations -/

/-- What a node declares itself. -/
def declared : Node → List Declaration
  | .declarations declared => declared
  | .declaration declared => [declared]
  | _ => []

/-- What is declared by the nodes that are lowered with a node, in order. -/
def storage (node : Node) : List Declaration :=
  node.reached.flatMap declared

end Node

namespace Plan

/-- Storage is reserved for given declarations, in whichever way the node is
lowered. -/
structure Stores (plan : Plan) (storage : List Declaration) : Prop where
  value : ∀ cursor pushed label, (plan.value cursor pushed label).data = (reserve storage).data
  address : ∀ cursor pushed label, (plan.address cursor pushed label).data = (reserve storage).data
  effect : ∀ pushed label, (plan.effect pushed label).data = (reserve storage).data

theorem data_reserve_append (first second : List Declaration) :
    (reserve (first ++ second)).data = (reserve first).data ++ (reserve second).data :=
  List.flatMap_append

@[simp] theorem data_reserve_nil : (reserve []).data = [] := rfl

@[simp] theorem data_extra (name : String) (count : Nat) : (extra name count).data = [] := by
  unfold extra
  split <;> rfl

section Stores

variable {value address : Nat → Nat → Nat → Output} {effect : Nat → Nat → Output} {choices : Nat}
  {storage : List Declaration}

theorem stores_ofValue
    (stores : ∀ cursor pushed label, (value cursor pushed label).data = (reserve storage).data) :
    (ofValue value choices).Stores storage :=
  ⟨stores, stores, stores _⟩

theorem stores_ofPlace
    (stores : ∀ cursor pushed label, (value cursor pushed label).data = (reserve storage).data)
    (stores' : ∀ cursor pushed label,
      (address cursor pushed label).data = (reserve storage).data) :
    (ofPlace value address choices).Stores storage :=
  ⟨stores, stores', stores _⟩

theorem stores_ofEffect
    (stores : ∀ pushed label, (effect pushed label).data = (reserve storage).data) :
    (ofEffect effect choices).Stores storage := by
  have parked : ∀ cursor pushed label,
      (parked effect cursor pushed label).data = (reserve storage).data := by
    intro cursor pushed label
    simp [Plan.parked, stores]
  exact ⟨parked, parked, stores⟩

end Stores

end Plan

namespace Node

section Storage

variable {annotate : Bool} {resolve : String → Address} {nodes : List Node}

/-- The storage of nodes, one after the other. -/
def storageOf (nodes : List Node) : List Declaration :=
  nodes.flatMap storage

theorem flatMap_declared_reachedEach (nodes : List Node) :
    (reachedEach nodes).flatten.flatMap declared = storageOf nodes := by
  rw [reachedEach_eq_map, ← List.flatMap_def, List.flatMap_assoc]
  rfl

theorem data_sequence (stores : ∀ node ∈ nodes, (node.plan annotate resolve).Stores node.storage)
    (pushed label : Nat) :
    (Plan.sequence (planAll annotate resolve nodes) pushed label).data =
      (Plan.reserve (storageOf nodes)).data := by
  induction nodes generalizing label with
  | nil => rfl
  | cons node rest ih =>
      rw [planAll, Plan.sequence, Output.data_append, (stores node List.mem_cons_self).effect,
        ih fun other member => stores other (.tail _ member)]
      exact (Plan.data_reserve_append _ _).symm

theorem data_pushArguments
    (stores : ∀ node ∈ nodes, (node.plan annotate resolve).Stores node.storage)
    (pushed label : Nat) :
    (Plan.pushArguments (nodes.map (plan annotate resolve)) pushed label).data =
      (Plan.reserve (storageOf nodes)).data := by
  induction nodes generalizing pushed label with
  | nil => rfl
  | cons node rest ih =>
      rw [List.map_cons, Plan.pushArguments, Output.data_append, Output.data_append,
        (stores node List.mem_cons_self).value,
        ih fun other member => stores other (.tail _ member)]
      simp only [Output.data_ofCode, List.append_nil]
      exact (Plan.data_reserve_append _ _).symm

theorem storage_call (name : String) (arguments : List Node) :
    (Node.call name arguments).storage =
      (callReached name (reachedEach arguments)).flatMap declared := rfl

theorem data_call {name : String} {arguments : List Node}
    (stores : ∀ node ∈ arguments, (node.plan annotate resolve).Stores node.storage)
    (pushed label : Nat) :
    (Plan.call annotate name (planAll annotate resolve arguments) pushed label).data =
      (Plan.reserve (Node.call name arguments).storage).data := by
  rw [storage_call]
  rcases Plan.general_or_intrinsic name arguments with
    general | ⟨intrinsic, first, rest, known, rfl⟩
  · have order : (reachedEach arguments).reverse = reachedEach arguments.reverse := by
      rw [reachedEach_eq_map, reachedEach_eq_map, List.map_reverse]
    rw [Plan.call_general _ (general.imp_right (by rintro rfl; rfl)),
      callReached_general (general.imp_right (by rintro rfl; rfl)), order,
      flatMap_declared_reachedEach]
    have pushes := @data_pushArguments annotate resolve arguments.reverse
      (fun node member => stores node (List.mem_reverse.mp member)) (pushed + 1) label
    rw [List.map_reverse, ← planAll_eq_map] at pushes
    simp [Plan.callProcedure, pushes]
  · rw [planAll, reachedEach, callReached_intrinsic _ _ known]
    have inner := stores first List.mem_cons_self
    cases intrinsic with
    | read => simp [Plan.call_read _ _ _ known, Plan.read, inner.address, storage]
    | write => simp [Plan.call_write _ _ _ known, Plan.write, inner.value, storage]

/-- **Storage is reserved for what the lowered nodes declare**, in order. -/
theorem stores_plan (node : Node) : (node.plan annotate resolve).Stores node.storage := by
  induction node with
  | program items ih =>
      refine Plan.stores_ofEffect fun pushed label => ?_
      rw [data_sequence ih, ← flatMap_declared_reachedEach]
      rfl
  | procedure heading locals body => exact Plan.stores_ofEffect fun _ _ => rfl
  | header heading => exact Plan.stores_ofEffect fun _ _ => rfl
  | declarations declared =>
      refine Plan.stores_ofEffect fun _ _ => ?_
      simp [storage, reached, Node.declared]
  | declaration declared => exact Plan.stores_ofEffect fun _ _ => rfl
  | block statements ih =>
      refine Plan.stores_ofEffect fun pushed label => ?_
      rw [data_sequence ih, ← flatMap_declared_reachedEach]
      rfl
  | call name arguments ih => exact Plan.stores_ofEffect (data_call ih)
  | assign target value ihTarget ihValue =>
      refine Plan.stores_ofEffect fun pushed label => ?_
      simp [Plan.assign, ihTarget.address, ihValue.value, storage, reached, Node.declared,
        Plan.data_reserve_append]
  | branch condition consequent ihCondition ihConsequent =>
      refine Plan.stores_ofEffect fun pushed label => ?_
      simp [Plan.branch, ihCondition.value, ihConsequent.effect, storage, reached, Node.declared,
        Plan.data_reserve_append]
  | branchElse condition consequent alternative ihCondition ihConsequent ihAlternative =>
      refine Plan.stores_ofEffect fun pushed label => ?_
      simp [Plan.branchElse, ihCondition.value, ihConsequent.effect, ihAlternative.effect, storage,
        reached, Node.declared, Plan.data_reserve_append]
  | loop condition body ihCondition ihBody =>
      refine Plan.stores_ofEffect fun pushed label => ?_
      simp [Plan.loop, ihCondition.value, ihBody.effect, storage, reached, Node.declared,
        Plan.data_reserve_append]
  | binary op left right ihLeft ihRight =>
      refine Plan.stores_ofValue fun cursor pushed label => ?_
      simp [Plan.binary, ihLeft.value, ihRight.value, storage, reached, Node.declared,
        Plan.data_reserve_append]
  | unary op operand ih =>
      have operation : ∀ cursor pushed label,
          (Plan.unary op (operand.plan annotate resolve) cursor pushed label).data =
            (Plan.reserve operand.storage).data := fun cursor pushed label => by
        simp [Plan.unary, ih.value]
      cases op with
      | dereference => exact Plan.stores_ofPlace operation ih.value
      | plus => exact Plan.stores_ofValue operation
      | minus => exact Plan.stores_ofValue operation
      | not => exact Plan.stores_ofValue operation
  | constant value => exact Plan.stores_ofValue fun _ _ _ => rfl
  | reference name =>
      exact Plan.stores_ofPlace (fun _ _ _ => Plan.part_reference Output.aside_data _ _ _ _)
        fun _ _ _ => Plan.part_addressOf Output.aside_data _ _ _ _

end Storage

end Node

end ProcLang
