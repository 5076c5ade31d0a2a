import ProcLang.Proofs.Lowering.Completion
import ProcLang.Proofs.Lowering.Reached

/-!
# The items of a program, one by one

A program of any shape is lowered item by item; the items of a program inside it
stand in its place (`Node.leaves`). An item sets the frame, the stack, the arguments
and the cursor before it looks at them (`Emitter.forgets_item`). So each item is
lowered as it is from a fresh context, which knows the globals and from which number
on choices and loops are counted (`Itemized`).

A lowered program is its start, the code of its items, their storage, and the label
of the stack (`lowerProgram_itemized`).
-/

set_option autoImplicit false

namespace ProcLang

/-! ## Items -/

namespace Node

/-- Whether a node is a list of items. -/
def isProgram : Node → Bool
  | .program _ => true
  | _ => false

mutual
/-- The items of a program, with those of a program inside it in its place. -/
def leaves : Node → List Node
  | .program items => leavesAll items
  | node => [node]

/-- The items of programs, in order. -/
def leavesAll : List Node → List Node
  | [] => []
  | node :: rest => leaves node ++ leavesAll rest
end

/-- How many choices and loops are lowered with an item. -/
def itemCount : Node → Nat
  | .procedure _ _ body => body.choices
  | node => node.choices

/-- What is declared by the nodes that are lowered with an item. -/
def itemStorage : Node → List Declaration
  | .procedure _ _ body => body.storage
  | node => node.storage

theorem leavesAll_eq_flatMap (items : List Node) : leavesAll items = items.flatMap leaves := by
  induction items with
  | nil => rfl
  | cons item rest ih => rw [leavesAll, ih, List.flatMap_cons]

theorem isProgram_of_mem_leaves (root : Node) : ∀ leaf ∈ root.leaves, leaf.isProgram = false := by
  induction root with
  | program items ih =>
      intro leaf member
      rw [leaves, leavesAll_eq_flatMap] at member
      obtain ⟨item, listed, inner⟩ := List.mem_flatMap.mp member
      exact ih item listed leaf inner
  | _ =>
      intro leaf member
      rw [List.mem_singleton.mp member]
      rfl

end Node

namespace Emitter

theorem itemAll_eq_forM {items : List Node}
    (each : ∀ node ∈ items, item node = node.leaves.forM item) :
    itemAll items = (Node.leavesAll items).forM item := by
  induction items with
  | nil => rfl
  | cons node rest ih =>
      rw [itemAll, each node List.mem_cons_self,
        ih fun other member => each other (.tail _ member)]
      exact List.forM_append.symm

/-- The items of a program are lowered in order. -/
theorem item_eq_forM (root : Node) : item root = root.leaves.forM item := by
  induction root with
  | program items ih => exact itemAll_eq_forM ih
  | _ => exact (bind_pure_unit (m := Emitter)).symm

/-! ## What an item forgets -/

end Emitter

/-- A context in which nothing has been lowered: it knows some globals, the latest
first, and the number of the next choice or loop. -/
def Context.fresh (annotate : Bool) (globals : List Declaration) (label : Nat) : Context :=
  { Context.initial annotate with globals := globals, nextLabel := label }

/-- What an item sees of a context. -/
def Context.refreshed (context : Context) : Context :=
  .fresh context.annotate context.globals context.nextLabel

namespace Emitter

variable {α β : Type}

/-- A walk sees no more of its context than is left in a fresh one. -/
def Forgets (walk : Emitter α) : Prop :=
  ∀ before : Context, walk.run before = walk.run before.refreshed

/-- Starting on a procedure sets everything else. -/
theorem forgets_enter (scope : Scope) (next : Unit → Emitter β) :
    (enter scope >>= next).Forgets :=
  fun _ => rfl

/-- What comes first leaves the context as it is, and emits the same from a fresh
one. -/
theorem Forgets.after {first : Emitter α} {second : α → Emitter β} {value : α}
    (same : ∀ before, ∃ output, first.Yields before value before output ∧
      first.Yields before.refreshed value before.refreshed output)
    (forgets : (second value).Forgets) : (first >>= second).Forgets := by
  intro before
  obtain ⟨output, passes, passes'⟩ := same before
  rw [run_bind, run_bind, passes, passes']
  simp only [forgets before]

theorem forgets_procedure (heading : Header) (locals : List Declaration) (body : Emitter Unit) :
    (procedure heading locals body).Forgets :=
  .after (fun _ => ⟨_, yields_note _ _, yields_note _ _⟩)
    (.after (fun _ => ⟨_, yields_noteReach _ _ _, yields_noteReach _ _ _⟩)
      (.after (fun _ => ⟨_, yields_emit _ _, yields_emit _ _⟩)
        (.after (fun _ => ⟨_, yields_annotate _, yields_annotate _⟩) (forgets_enter _ _))))

/-- **An item forgets what was lowered before it.** -/
theorem forgets_item {node : Node} (leaf : node.isProgram = false) : (item node).Forgets := by
  cases node with
  | program items => cases leaf
  | procedure heading locals body => exact forgets_procedure heading locals _
  | _ => exact forgets_enter _ _

/-! ## One item after another -/

/-- What is known of the end of a walk over an item. -/
def Places (walk : Emitter Unit) (count : Nat) (storage : List Declaration) : Prop :=
  ∀ before : Context, ∃ after output, walk.Ends before () after output ∧
    after.annotate = before.annotate ∧ after.globals = before.globals ∧
    after.nextLabel = before.nextLabel + count ∧ output.data = (Plan.reserve storage).data

theorem places_procedure (heading : Header) (locals : List Declaration) (body : Node) :
    (procedure heading locals body.lower.effect).Places body.choices body.storage := by
  intro before
  obtain ⟨cursor, ends⟩ := ends_procedure heading locals body before
  refine ⟨_, _, ends, rfl, rfl, congrArg (before.nextLabel + ·) body.choices_plan, ?_⟩
  simp [Plan.procedure, body.stores_plan.effect]

theorem places_statement (node : Node) :
    (enter .empty >>= fun _ => node.lower.effect).Places node.choices node.storage := by
  intro before
  obtain ⟨cursor, ends⟩ := (Node.lower_follows node).effect
    { before with
      scope := .empty
      pushed := 0
      pendingArguments := 0
      cursor := Register.scratchBase } ⟨rfl, rfl⟩
  exact ⟨_, _, .bind (ends_enter .empty before) ends, rfl, rfl,
    congrArg (before.nextLabel + ·) node.choices_plan, node.stores_plan.effect _ _⟩

theorem places_item {node : Node} (leaf : node.isProgram = false) :
    (item node).Places node.itemCount node.itemStorage := by
  cases node with
  | program items => cases leaf
  | procedure heading locals body => exact places_procedure heading locals body
  | _ => exact places_statement _

/-- A sequence that finishes does so after its first part. -/
theorem exists_of_run_bind {first : Emitter α} {second : α → Emitter β} {before : Context}
    {emitted : Emitted β} (ran : (first >>= second).run before = .ok emitted) :
    ∃ middle last, first.run before = .ok middle ∧
      (second middle.value).run middle.context = .ok last ∧
      emitted.output = middle.output ++ last.output := by
  rw [run_bind] at ran
  cases started : first.run before with
  | error overflow => simp [started] at ran
  | ok middle =>
      simp only [started] at ran
      cases ended : (second middle.value).run middle.context with
      | error overflow => simp [ended] at ran
      | ok last =>
          simp only [ended] at ran
          cases ran
          exact ⟨middle, last, rfl, ended, rfl⟩

end Emitter

/-- Each of several items emits an output from a fresh context, in which the choices
and loops of the items before it have been counted. -/
inductive Itemized (annotate : Bool) (globals : List Declaration) :
    Nat → List Node → List Output → Prop
  | nil {label : Nat} : Itemized annotate globals label [] []
  | cons {label : Nat} {node : Node} {rest : List Node} {final : Emitted Unit}
      {outputs : List Output}
      (ran : (Emitter.item node).run (.fresh annotate globals label) = .ok final)
      (later : Itemized annotate globals (label + node.itemCount) rest outputs) :
      Itemized annotate globals label (node :: rest) (final.output :: outputs)

namespace Itemized

variable {annotate : Bool} {globals : List Declaration} {label : Nat} {items : List Node}
  {outputs : List Output}

theorem length_eq (itemized : Itemized annotate globals label items outputs) :
    outputs.length = items.length := by
  induction itemized with
  | nil => rfl
  | cons _ _ ih => rw [List.length_cons, List.length_cons, ih]

/-- The output of an item, by its place. -/
theorem exists_output (itemized : Itemized annotate globals label items outputs)
    {earlier later : List Node} {node : Node} (listed : items = earlier ++ node :: later) :
    ∃ final, (Emitter.item node).run
        (.fresh annotate globals (label + (earlier.map Node.itemCount).sum)) = .ok final ∧
      outputs[earlier.length]? = some final.output := by
  induction itemized generalizing earlier with
  | nil => simp at listed
  | @cons label first rest final outputs ran _ ih =>
      cases earlier with
      | nil =>
          obtain ⟨rfl, -⟩ := List.cons.inj listed
          exact ⟨final, ran, rfl⟩
      | cons head earlier =>
          obtain ⟨rfl, tail⟩ := List.cons.inj listed
          obtain ⟨final', ran', found⟩ := ih tail
          refine ⟨final', ?_, found⟩
          rw [List.map_cons, List.sum_cons, ← Nat.add_assoc]
          exact ran'

theorem data_eq (itemized : Itemized annotate globals label items outputs)
    (leaves : ∀ node ∈ items, node.isProgram = false) :
    outputs.flatMap Output.data = (Plan.reserve (items.flatMap Node.itemStorage)).data := by
  induction itemized with
  | nil => rfl
  | @cons label first rest final outputs ran _ ih =>
      obtain ⟨after, output, ends, -, -, -, data⟩ :=
        Emitter.places_item (leaves first List.mem_cons_self) (.fresh annotate globals label)
      obtain rfl := ends final ran
      rw [List.flatMap_cons, List.flatMap_cons, Plan.data_reserve_append, data,
        ih fun other member => leaves other (.tail _ member)]

end Itemized

namespace Emitter

/-- **Items that are lowered one after the other emit what each emits from a fresh
context.** -/
theorem exists_itemized {items : List Node} (leaves : ∀ node ∈ items, node.isProgram = false)
    {before : Context} {emitted : Emitted Unit} (ran : (items.forM item).run before = .ok emitted) :
    ∃ outputs, Itemized before.annotate before.globals before.nextLabel items outputs ∧
      emitted.output.code = outputs.flatMap Output.code ∧
      emitted.output.data = outputs.flatMap Output.data := by
  induction items generalizing before emitted with
  | nil =>
      cases ran
      exact ⟨[], .nil, rfl, rfl⟩
  | cons node rest ih =>
      obtain ⟨middle, last, first, second, whole⟩ := exists_of_run_bind ran
      have leaf := leaves node List.mem_cons_self
      obtain ⟨after, output, ends, annotate, globals, count, -⟩ := places_item leaf before
      obtain rfl := ends middle first
      obtain ⟨outputs, itemized, code, data⟩ :=
        ih (fun other member => leaves other (.tail _ member)) second
      rw [annotate, globals, count] at itemized
      rw [forgets_item leaf before] at first
      refine ⟨output :: outputs, .cons first itemized, ?_, ?_⟩
      · rw [whole, Output.code_append, code, List.flatMap_cons]
      · rw [whole, Output.data_append, data, List.flatMap_cons]

end Emitter

/-- **A lowered program is its start, its items, their storage and the label of the
stack.** Each item is lowered as from a fresh context. -/
theorem lowerProgram_itemized {options : LoweringOptions} {root : Node} {program : LoweredProgram}
    (lowered : lowerProgram options root = .ok program) :
    ∃ outputs, Itemized options.annotate root.globalDeclarations.reverse 0 root.leaves outputs ∧
      program.instructions = startCode options.entry ++ outputs.flatMap Output.code ++
        outputs.flatMap Output.data ++ [.label Label.stackBegin.text] := by
  unfold lowerProgram at lowered
  split at lowered
  next => cases lowered
  next emitted ran =>
    cases lowered
    rw [Emitter.program_eq, Emitter.item_eq_forM] at ran
    obtain ⟨middle, last, first, second, whole⟩ := Emitter.exists_of_run_bind ran
    obtain rfl := Emitter.ends_opening options.entry root options.annotate middle first
    obtain ⟨outputs, itemized, code, data⟩ :=
      Emitter.exists_itemized root.isProgram_of_mem_leaves second
    refine ⟨outputs, itemized, ?_⟩
    simp [whole, code, data]

end ProcLang
