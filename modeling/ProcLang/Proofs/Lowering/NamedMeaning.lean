import ProcLang.Proofs.Grammar.Shape
import ProcLang.Proofs.Lowering.Activation
import ProcLang.Proofs.Machine.Behaviour

/-!
# Lowered code and its meaning over named variables

In an activation of a procedure, the code of an expression or a statement
realizes what it means over named variables, and the memory holds the store at
every point (`Node.Term.tracks`, `Node.Command.tracks`). What a call of another
procedure does is assumed here (`Layout.Invokes`); the activation is left alone
by it, because it has its own part of the stack.
-/

set_option autoImplicit false

namespace ProcLang

section Faults

variable {machine : Machine} {fuel cursor : Nat} {code : List Instruction} {core : Core}
  {σ : Type} {P : σ → World → Prop}

theorem Machine.yields_fault : machine.everywhere.Yields fuel cursor code core .fault P :=
  fun _ _ _ => machine.realizes_fault

theorem Machine.does_fault : machine.everywhere.Does fuel code core .fault P :=
  fun _ _ _ => machine.realizes_fault

end Faults

variable {machine : Machine} {layout : Layout machine}

namespace Activation

variable (activation : Activation layout)

/-- Code for a value realizes a meaning. -/
def ValueTracks (fuel : Nat) (planned : Nat → Nat → Nat → Output)
    (value : Nat → Nat → Store → Outcome (Word × Store)) : Prop :=
  ∀ cursor pushed label core start store, Register.scratchBase ≤ cursor →
    activation.setting.Stands pushed core → activation.top + pushed ≤ layout.room →
    Unclamped (planned cursor pushed label).events →
    activation.Follows pushed start store core.world →
    machine.everywhere.Yields fuel cursor (planned cursor pushed label).code core
      (value (cursor - Register.scratchBase) (activation.top + pushed) store)
      (activation.Follows pushed start)

/-- The address of a word. -/
def cellAddress (cell : Cell) : Word :=
  activation.setting.address cell.name + cell.index

/-- Code for an address realizes the meaning of a word that is designated. -/
def CellTracks (fuel : Nat) (planned : Nat → Nat → Nat → Output)
    (cell : Nat → Nat → Store → Outcome (Cell × Store)) : Prop :=
  ∀ cursor pushed label core start store, Register.scratchBase ≤ cursor →
    activation.setting.Stands pushed core → activation.top + pushed ≤ layout.room →
    Unclamped (planned cursor pushed label).events →
    activation.Follows pushed start store core.world →
    machine.everywhere.Yields fuel cursor (planned cursor pushed label).code core
      (cell (cursor - Register.scratchBase) (activation.top + pushed) store >>= fun result =>
        .done (activation.cellAddress result.1, result))
      fun result => activation.Follows pushed start result.2

/-- Code for an effect realizes a meaning. -/
def EffectTracks (fuel : Nat) (planned : Nat → Nat → Output)
    (effect : Nat → Store → Outcome Store) : Prop :=
  ∀ pushed label core start store, activation.setting.Stands pushed core →
    activation.top + pushed ≤ layout.room → Unclamped (planned pushed label).events →
    activation.Follows pushed start store core.world →
    machine.everywhere.Does fuel (planned pushed label).code core
      (effect (activation.top + pushed) store) (activation.Follows pushed start)

/-- What the code of the procedure refers to. -/
def around (fuel : Nat) (invoke : String → List Word → Nat → Shared → Outcome Shared) :
    Surroundings :=
  ⟨activation.scope.lookup? layout.globals, machine.arithmetic, layout.room, fuel, invoke⟩

variable {activation} {fuel : Nat}

theorem succ_sub_scratchBase {cursor : Nat} (scratch : Register.scratchBase ≤ cursor) :
    cursor + 1 - Register.scratchBase = cursor - Register.scratchBase + 1 :=
  Nat.succ_sub scratch

/-! ## Values -/

theorem valueTracks_constant (value : Int32) :
    activation.ValueTracks fuel (fun cursor _ _ => .ofCode [.loadImmediate (.general cursor) value])
      fun _ _ store => .done (value.toBitVec, store) :=
  fun _ _ _ _ _ _ scratch _ _ _ follows => Watch.yields_set scratch rfl follows

theorem valueTracks_binary {op : BinaryOperator} {left right : Plan} {sense sense' : Sense}
    (tracks : activation.ValueTracks fuel left.value sense.value)
    (tracks' : activation.ValueTracks fuel right.value sense'.value) :
    activation.ValueTracks fuel (Plan.binary op left right)
      (Sense.binary machine.arithmetic op sense sense') := by
  intro cursor pushed label core start store scratch stands enough unclamped follows
  simp only [Plan.binary, Output.events_append, Output.events_ofCode, List.append_nil,
    unclamped_append] at unclamped
  have yields := tracks cursor pushed label core start store scratch stands enough unclamped.1
    follows
  refine Watch.yields_binary scratch yields ?_
  intro value store' after same _ follows'
  rw [← succ_sub_scratchBase scratch]
  exact tracks' (cursor + 1) pushed _ after start store' (Nat.le_succ_of_le scratch)
    (stands.of_same same scratch) enough unclamped.2 follows'

theorem valueTracks_unary {op : UnaryOperator} {operand : Plan} {sense : Sense}
    (pure : op ≠ .dereference) (tracks : activation.ValueTracks fuel operand.value sense.value) :
    activation.ValueTracks fuel (Plan.unary op operand) (Sense.unary op sense) := by
  intro cursor pushed label core start store scratch stands enough unclamped follows
  simp only [Plan.unary, Output.events_append, Output.events_ofCode, List.append_nil] at unclamped
  exact Watch.yields_unary scratch pure
    (tracks cursor pushed label core start store scratch stands enough unclamped follows)

/-- The value of a word that is designated is loaded from its address. -/
theorem yields_load {cursor pushed : Nat} {code : List Instruction} {core : Core} {start : World}
    {designated : Outcome (Cell × Store)} (scratch : Register.scratchBase ≤ cursor)
    (yields : machine.everywhere.Yields fuel cursor code core
      (designated >>= fun result => .done (activation.cellAddress result.1, result))
      fun result => activation.Follows pushed start result.2) :
    machine.everywhere.Yields fuel cursor
      (code ++ [.load (.general cursor) (.general cursor) 0]) core
      (designated >>= fun result =>
        .ofOption (result.2.load? (activation.scope.lookup? layout.globals) result.1) >>=
          fun value =>
          .done (value, result.2))
      (activation.Follows pushed start) := by
  rw [Outcome.bind_tag designated fun result => activation.cellAddress result.1]
  refine Watch.yields_concat yields ?_
  rintro address ⟨cell, store⟩ after known _ found follows
  obtain ⟨_, -, same⟩ := Outcome.bind_eq_done known
  cases same
  cases loaded : store.load? (activation.scope.lookup? layout.globals) cell with
  | none => exact machine.yields_fault
  | some value =>
      refine Watch.yields_set scratch ?_ follows
      have held : after.world.memory (activation.cellAddress cell) = value := follows.load loaded
      simp [Machine.effect?, found, held]

/-- The code of a name without an index. -/
theorem cellTracks_reference {name : String} :
    activation.CellTracks fuel
      (fun cursor pushed _ =>
        Plan.addressOf (activation.scope.resolve layout.globals) name (.general cursor) pushed)
      fun _ _ store => .done (⟨name, 0⟩, store) := by
  intro cursor pushed label core start store scratch stands enough unclamped follows
  have yields := @Plan.yields_addressOf machine.everywhere _ _ _ fuel (Cell × Store)
    (fun result => activation.Follows pushed start result.2) (⟨name, 0⟩, store) cursor pushed core
    name scratch stands unclamped follows
  have same : activation.cellAddress ⟨name, 0⟩ = activation.setting.address name :=
    BitVec.add_zero _
  simp only [Outcome.done_bind, same]
  exact yields

theorem valueTracks_reference {name : String} {found : Variable}
    (listed : activation.scope.lookup? layout.globals name = some found)
    (single : found.words ≤ 1) :
    activation.ValueTracks fuel
      (fun cursor pushed _ =>
        Plan.reference (activation.scope.resolve layout.globals) name cursor pushed)
      (Sense.ofCell (activation.scope.lookup? layout.globals)
        fun _ _ store => .done (⟨name, 0⟩, store)).value := by
  intro cursor pushed label core start store scratch stands enough unclamped follows
  have scalar : (activation.scope.resolve layout.globals name).isArray = false := by
    rw [Scope.isArray_resolve activation.reach listed]
    exact decide_eq_false (Nat.not_lt.mpr single)
  simp only [Plan.reference, scalar, Output.events_append, unclamped_append] at unclamped
  simp only [Plan.reference, scalar, Output.code_append]
  exact yields_load scratch (cellTracks_reference cursor pushed label core start store scratch
    stands enough unclamped.1 follows)

/-- The address of an element is the address of its array plus the index. -/
theorem cellTracks_element {name : String} {found : Variable} {array index : Plan} {sense : Sense}
    (listed : activation.scope.lookup? layout.globals name = some found)
    (several : 1 < found.words) (tracks : activation.ValueTracks fuel index.value sense.value)
    (refers : array.value = fun cursor pushed _ =>
      Plan.reference (activation.scope.resolve layout.globals) name cursor pushed) :
    activation.CellTracks fuel (Plan.binary .add array index) (Sense.element name sense) := by
  intro cursor pushed label core start store scratch stands enough unclamped follows
  have isArray : (activation.scope.resolve layout.globals name).isArray = true := by
    rw [Scope.isArray_resolve activation.reach listed]
    exact decide_eq_true several
  simp only [Plan.binary, Output.events_append, Output.events_ofCode, List.append_nil,
    unclamped_append, refers, Plan.reference, isArray, if_true, Output.events_empty] at unclamped
  have base : machine.everywhere.Yields fuel cursor (array.value cursor pushed label).code core
      (.done (activation.setting.address name, store)) (activation.Follows pushed start) := by
    simp only [refers, Plan.reference, isArray, if_true, Output.append_empty]
    exact Plan.yields_addressOf name scratch stands unclamped.1 follows
  have outcome : (Sense.element name sense (cursor - Register.scratchBase)
        (activation.top + pushed) store >>= fun result =>
          .done (activation.cellAddress result.1, result)) =
      (.done (activation.setting.address name, store) >>= fun result =>
        (sense.value (cursor - Register.scratchBase + 1) (activation.top + pushed) result.2 >>=
          fun result' => .done (result'.1, (⟨name, result'.1⟩, result'.2))) >>=
        fun result' => .done (machine.arithmetic.binary .add result.1 result'.1, result'.2)) := by
    simp only [Sense.element, Outcome.bind_assoc, Outcome.done_bind]
    rfl
  rw [outcome]
  refine Watch.yields_binary scratch base ?_
  intro value store' after same _ follows'
  rw [← succ_sub_scratchBase scratch]
  exact (tracks (cursor + 1) pushed _ after start store' (Nat.le_succ_of_le scratch)
    (stands.of_same same scratch) enough unclamped.2 follows').map fun _ _ follows => follows

/-- While a statement runs where a value is needed, the operands that wait are
on the stack. -/
theorem valueTracks_parked {planned : Nat → Nat → Output} {effect : Nat → Store → Outcome Store}
    (tracks : activation.EffectTracks fuel planned effect) :
    activation.ValueTracks fuel (Plan.parked planned)
      (Sense.ofEffect layout.room effect).value := by
  intro cursor pushed label core start store scratch stands enough unclamped follows
  simp only [Plan.parked, Output.events_append, Output.events_ofEvent, Output.events_ofCode,
    List.append_nil, unclamped_append] at unclamped
  have counted : (core.pending cursor).length = (Emitter.scratchBelow cursor).length := by
    rw [Core.length_pending, Core.length_scratchBelow]
  have waiting : cursor - Register.scratchBase = (Emitter.scratchBelow cursor).length :=
    (Core.length_scratchBelow cursor).symm
  simp only [Sense.ofEffect, waiting, Nat.add_assoc]
  split
  next fits =>
    have world : (core.pushAll (Emitter.scratchBelow cursor)).world =
        core.world.storeAll (above layout.bottom (activation.top + pushed))
          (core.pending cursor) := by
      rw [Core.world_pushAll_scratchBelow, stack_of_stands stands]
    have follows' : activation.Follows pushed start store
        (core.pushAll (Emitter.scratchBelow cursor)).world := by
      rw [world]
      exact follows.storeAll_stack _ (Nat.le_refl _) (by omega)
    have inner := tracks (pushed + (Emitter.scratchBelow cursor).length) label _ _ store
      (stands.pushAll _) fits unclamped.2 (follows'.refl _)
    refine (Watch.yields_parked scratch inner ?_).imp ?_
    · intro store' world' after
      have row := World.hasRow_storeAll core.world (core.get .stack) (core.pending cursor)
        (by have := layout.small; omega)
      rw [← Core.world_pushAll_scratchBelow, stands.stack] at row
      rw [stands.stack]
      exact row.of_keeps (by rw [counted]; exact after.keeps)
    · intro store' world' after
      exact follows'.trans (after.mono (Nat.le_add_right _ _))
  next => exact machine.yields_fault

/-! ## Effects -/

theorem does_assign {core : Core} {pushed : Nat} {start : World} {store : Store} {cell : Cell}
    {value : Word} (enough : activation.top + pushed ≤ layout.room)
    (follows : activation.Follows pushed start store core.world)
    (address : core.get (.general Register.scratchBase) = activation.cellAddress cell)
    (found : core.get (.general (Register.scratchBase + 1)) = value) :
    machine.everywhere.Does fuel
      [.store (.general (Register.scratchBase + 1)) (.general Register.scratchBase) 0] core
      (.ofOption (store.assign? (activation.scope.lookup? layout.globals) cell value))
      (activation.Follows pushed start) := by
  cases assigned : store.assign? (activation.scope.lookup? layout.globals) cell value with
  | none => exact machine.does_fault
  | some store' =>
      refine Watch.does_store ?_
      rw [address, found]
      exact follows.assign enough assigned

theorem effectTracks_assign {target value : Plan} {sense sense' : Sense}
    (tracks : activation.CellTracks fuel target.address sense.cell)
    (tracks' : activation.ValueTracks fuel value.value sense'.value) :
    activation.EffectTracks fuel (Plan.assign target value)
      (Sense.assign (activation.scope.lookup? layout.globals) sense sense') := by
  intro pushed label core start store stands enough unclamped follows
  simp only [Plan.assign, Output.events_append, Output.events_ofCode, List.append_nil,
    unclamped_append] at unclamped
  have yields := tracks Register.scratchBase pushed label core start store (Nat.le_refl _) stands
    enough unclamped.1 follows
  have yields' : ∀ (place : Word) (result : Cell × Store) (after : Core),
      core.Same Register.scratchBase after → after.get (.general Register.scratchBase) = place →
      activation.Follows pushed start result.2 after.world →
      machine.everywhere.Yields fuel (Register.scratchBase + 1)
        (value.value (Register.scratchBase + 1) pushed (label + target.choices)).code after
        (sense'.value 1 (activation.top + pushed) result.2) (activation.Follows pushed start) :=
    fun place result after same _ follows' =>
      tracks' (Register.scratchBase + 1) pushed _ after start result.2 (Nat.le_succ _)
        (stands.of_same same (Nat.le_refl _)) enough unclamped.2 follows'
  rw [Sense.assign, Outcome.bind_tag (sense.cell 0 (activation.top + pushed) store)
    fun result => activation.cellAddress result.1]
  refine Watch.does_assign yields yields' ?_
  rintro place ⟨cell, store'⟩ word store'' after known same placed found follows'
  obtain ⟨_, -, known⟩ := Outcome.bind_eq_done known
  cases known
  exact does_assign enough follows' placed found

section ControlFlow

variable {condition consequent alternative body : Plan} {test act other : Sense}

theorem effectTracks_branch
    (tracks : activation.ValueTracks fuel condition.value test.value)
    (tracks' : activation.EffectTracks fuel consequent.effect act.effect) :
    activation.EffectTracks fuel (Plan.branch condition consequent)
      (Sense.branch test act .done) := by
  intro pushed label core start store stands enough unclamped follows
  simp only [Plan.branch, Output.events_append, Output.events_ofCode, Output.events_ofEvent,
    List.append_nil, unclamped_append] at unclamped
  have yields := tracks Register.scratchBase pushed label core start store (Nat.le_refl _) stands
    enough unclamped.1.1 follows
  refine Watch.does_branch yields ?_ fun _ _ follows => follows
  intro store' after same follows'
  exact tracks' pushed _ after start store' (stands.of_same same (Nat.le_refl _)) enough
    unclamped.2 follows'

theorem effectTracks_branchElse
    (tracks : activation.ValueTracks fuel condition.value test.value)
    (tracks' : activation.EffectTracks fuel consequent.effect act.effect)
    (tracks'' : activation.EffectTracks fuel alternative.effect other.effect) :
    activation.EffectTracks fuel (Plan.branchElse condition consequent alternative)
      fun height => Sense.branch test act (other.effect height) height := by
  intro pushed label core start store stands enough unclamped follows
  simp only [Plan.branchElse, Output.events_append, Output.events_ofCode, Output.events_ofEvent,
    List.append_nil, unclamped_append] at unclamped
  have yields := tracks Register.scratchBase pushed label core start store (Nat.le_refl _) stands
    enough unclamped.1.1.1 follows
  refine Watch.does_branchElse yields ?_ ?_
  · intro store' after same follows'
    exact tracks' pushed _ after start store' (stands.of_same same (Nat.le_refl _)) enough
      unclamped.1.2 follows'
  · intro store' after same follows'
    exact tracks'' pushed _ after start store' (stands.of_same same (Nat.le_refl _)) enough
      unclamped.2 follows'

theorem effectTracks_loop
    (tracks : activation.ValueTracks fuel condition.value test.value)
    (tracks' : activation.EffectTracks fuel body.effect act.effect) :
    activation.EffectTracks fuel (Plan.loop condition body) (Sense.loop fuel test act) := by
  intro pushed label core start store stands enough unclamped follows
  simp only [Plan.loop, Output.events_append, Output.events_ofCode, Output.events_ofEvent,
    List.append_nil, unclamped_append] at unclamped
  refine Watch.does_loop ?_ ?_ (fun _ _ follows => follows.shared.channel) follows
  · intro store' after same follows'
    exact tracks Register.scratchBase pushed _ after start store' (Nat.le_refl _)
      (stands.of_same same (Nat.le_refl _)) enough unclamped.1.2 follows'
  · intro store' after same follows'
    exact tracks' pushed _ after start store' (stands.of_same same (Nat.le_refl _)) enough
      unclamped.2 follows'

end ControlFlow

/-- What is read or written is shared; the stack stays as it is. -/
theorem Follows.withShared {pushed : Nat} {start world world' : World} {store : Store}
    {shared : Shared} (follows : activation.Follows pushed start store world)
    (memory : world'.memory = world.memory) (holds : layout.Holds shared world') :
    activation.Follows pushed start { store with shared := shared } world' :=
  ⟨fun lives cell given => by rw [memory]; exact follows.own lives cell given, holds,
    fun height other inside => by rw [memory]; exact follows.kept height other inside⟩

theorem effectTracks_read {target : Plan} {sense : Sense}
    (tracks : activation.CellTracks fuel target.address sense.cell) :
    activation.EffectTracks fuel (Plan.read target)
      (Sense.read (activation.scope.lookup? layout.globals) sense) := by
  intro pushed label core start store stands enough unclamped follows
  simp only [Plan.read, Output.events_append, Output.events_ofCode, Output.events_ofEvent,
    List.append_nil, unclamped_append] at unclamped
  have yields := tracks Register.scratchBase pushed label core start store (Nat.le_refl _) stands
    enough unclamped.2 follows
  simp only [Plan.read, Output.code_append, Output.code_ofCode, Output.code_ofEvent,
    List.nil_append]
  rw [Sense.read, Outcome.bind_tag (sense.cell 0 (activation.top + pushed) store)
    fun result => activation.cellAddress result.1]
  refine yields.does_append ?_
  rintro place ⟨cell, store'⟩ after known same placed follows'
  obtain ⟨_, -, known⟩ := Outcome.bind_eq_done known
  cases known
  obtain ⟨empty, filled⟩ := follows'.shared.read?
  cases taken : store'.shared.read? with
  | none =>
      refine Watch.does_read (fun _ => ?_) fun word world some => ?_
      · simp only [follows'.shared.channel]
      · rw [empty taken] at some
        cases some
  | some result =>
      obtain ⟨word, shared⟩ := result
      obtain ⟨world, took, holds⟩ := filled word shared taken
      refine Watch.does_read (fun none => ?_) fun word' world' took' after' same' found here => ?_
      · rw [took] at none
        cases none
      · cases took.symm.trans took'
        subst here
        refine does_assign enough (follows'.withShared (World.memory_of_read? took) holds) ?_ found
        rw [same' (.general Register.scratchBase) (Nat.lt_succ_self _), placed]

theorem effectTracks_write {value : Plan} {sense : Sense}
    (tracks : activation.ValueTracks fuel value.value sense.value) :
    activation.EffectTracks fuel (Plan.write value) (Sense.write sense) := by
  intro pushed label core start store stands enough unclamped follows
  simp only [Plan.write, Output.events_append, Output.events_ofCode, Output.events_ofEvent,
    List.append_nil, unclamped_append] at unclamped
  have yields := tracks Register.scratchBase pushed label core start store (Nat.le_refl _) stands
    enough unclamped.2 follows
  simp only [Plan.write, Output.code_append, Output.code_ofCode, Output.code_ofEvent,
    List.nil_append]
  refine yields.does_append ?_
  rintro word store' after - same rfl follows' first last spans
  exact Watch.Realizes.run_done spans rfl
    ⟨Core.same_withWorld _ _, follows'.withShared rfl (follows'.shared.write _)⟩

end Activation

/-! ## Calls -/

/-- What a call of a procedure is assumed to realize, if the arguments are in a
row at the top of the stack: it leaves the stack below them alone. -/
def Layout.Invokes (layout : Layout machine) (fuel : Nat) (defined : String → Nat → Bool)
    (invoke : String → List Word → Nat → Shared → Outcome Shared) : Prop :=
  ∀ (name : String) (arguments : List Word) (low : Nat) (shared : Shared) (core : Core)
    (start finish : Nat), defined name arguments.length →
    core.get .stack = above layout.bottom (low + arguments.length) →
    low + arguments.length ≤ layout.room →
    core.world.HasRow (above layout.bottom low) arguments.reverse →
    layout.Holds shared core.world →
    machine.everywhere.Spans start [.call (Label.procedure name).text] finish →
    machine.everywhere.Realizes fuel start finish core
      (invoke name arguments (low + arguments.length) shared) fun shared' after =>
        after.get .stack = core.get .stack ∧ layout.Holds shared' after.world ∧
          World.Keeps layout.bottom low core.world after.world

namespace Activation

section Lists

variable {activation : Activation layout} {fuel : Nat} {around : Surroundings} {annotate : Bool}
  {resolve : String → Address} {nodes : List Node}

theorem effectTracks_sequence
    (tracks : ∀ node ∈ nodes, activation.EffectTracks fuel (node.plan annotate resolve).effect
      (node.sense around).effect) :
    activation.EffectTracks fuel (Plan.sequence (Node.planAll annotate resolve nodes))
      (Sense.sequence (Node.senseAll around nodes)) := by
  intro pushed label core start store stands enough unclamped follows
  induction nodes generalizing label core store with
  | nil => exact Watch.does_nil follows
  | cons node rest ih =>
      simp only [Node.planAll, Plan.sequence, Output.events_append, unclamped_append] at unclamped
      refine Watch.does_append (tracks node List.mem_cons_self pushed label core start store stands
        enough unclamped.1 follows) ?_
      intro store' after same follows'
      exact ih (fun node member => tracks node (.tail _ member)) _ after store'
        (stands.of_same same (Nat.le_refl _)) unclamped.2 follows'

/-- What is known when arguments have been pushed: they stand in a row, the first
one at the top. -/
structure Pushed (activation : Activation layout) (pushed count : Nat) (start : World)
    (result : List Word × Store) (world : World) : Prop where
  follows : activation.Follows pushed start result.2 world
  length : result.1.length = count
  row : world.HasRow (above layout.bottom (activation.top + pushed)) result.1.reverse

theorem realizes_pushArguments
    (tracks : ∀ node ∈ nodes, activation.ValueTracks fuel (node.plan annotate resolve).value
      (node.sense around).value) {pushed label : Nat} {core : Core} {start : World} {store : Store}
    (stands : activation.setting.Stands pushed core)
    (enough : activation.top + pushed + nodes.length ≤ layout.room)
    (unclamped : Unclamped
      (Plan.pushArguments (Node.planAll annotate resolve nodes).reverse pushed label).events)
    (follows : activation.Follows pushed start store core.world) {first last : Nat}
    (spans : machine.everywhere.Spans first
      (Plan.pushArguments (Node.planAll annotate resolve nodes).reverse pushed label).code last) :
    machine.everywhere.Realizes fuel first last core
      (Sense.arguments (Node.senseAll around nodes) (activation.top + pushed) store)
      fun result after => activation.setting.Stands (pushed + nodes.length) after ∧
        activation.Pushed pushed nodes.length start result after.world := by
  induction nodes generalizing last with
  | nil =>
      obtain rfl : first = last := spans
      exact .done ⟨stands, follows, rfl, nofun⟩
  | cons node rest ih =>
      simp only [Node.planAll, List.reverse_cons, Plan.pushArguments_append, Plan.pushArguments,
        List.length_reverse, Output.events_append, Output.code_append, Output.code_empty,
        List.append_nil, Output.code_ofCode, unclamped_append] at spans unclamped
      rw [List.length_cons] at enough
      obtain ⟨middle, spans, spans'⟩ := Watch.spans_append.mp spans
      have length : (Node.planAll annotate resolve rest).length = rest.length := by
        simp [Node.planAll_eq_map]
      refine (ih (fun node member => tracks node (.tail _ member)) (by omega) unclamped.1
        spans).bind ?_
      rintro ⟨values, store'⟩ after - ⟨stands', follows', counted, row⟩
      rw [Node.length_senseAll]
      rw [length] at spans' unclamped
      -- The argument is evaluated above those that are already in the row.
      have inner := tracks node List.mem_cons_self Register.scratchBase (pushed + rest.length) _
        after after.world store' (Nat.le_refl _) stands' (by omega) unclamped.2.1.1
        (follows'.refl _)
      rw [← Nat.add_assoc] at inner
      refine (inner.push spans').bind ?_
      rintro ⟨value, store''⟩ after' - ⟨stack, link, world, within, stored⟩
      rw [stack_of_stands stands', ← Nat.add_assoc] at stored
      have next : activation.Follows (pushed + rest.length) after.world store'' after'.world := by
        rw [stored]
        exact within.store_stack value (by omega) (by omega)
      refine .done ⟨⟨?_, link.trans stands'.link⟩,
        follows'.trans (next.mono (Nat.le_add_right _ _)), congrArg (· + 1) counted, ?_⟩
      · rw [stack, stands'.stack, ← above_one, above_above, List.length_cons, Nat.add_assoc]
      · rw [List.reverse_cons]
        rw [← above_above] at row ⊢
        refine (row.of_keeps (by rw [List.length_reverse, counted]; exact next.keeps)).concat ?_
        rw [List.length_reverse, counted, above_above, above_above, ← Nat.add_assoc, stored,
          World.memory_store_self]

/-- A call leaves the words of its caller alone, and those that the caller has
pushed. -/
theorem Follows.afterCall {pushed : Nat} {start world world' : World} {store : Store}
    {shared : Shared} (follows : activation.Follows pushed start store world)
    (holds : layout.Holds shared world')
    (keeps : World.Keeps layout.bottom (activation.top + pushed) world world') :
    activation.Follows pushed start { store with shared := shared } world' := by
  refine ⟨fun lives cell given => ?_, holds, fun height other inside => ?_⟩
  · obtain ⟨-, below, -, -⟩ := Follows.height_own lives cell
    rw [keeps _ (by omega)]
    exact follows.own lives cell given
  · rw [keeps _ inside]
    exact follows.kept height other inside

variable {name : String} {defined : String → Nat → Bool}
  {invoke : String → List Word → Nat → Shared → Outcome Shared}

theorem effectTracks_callProcedure (few : nodes.length ≤ maxOffset)
    (invokes : layout.Invokes fuel defined invoke) (known : defined name nodes.length)
    (tracks : ∀ node ∈ nodes, activation.ValueTracks fuel (node.plan annotate resolve).value
      (node.sense around).value) :
    activation.EffectTracks fuel
      (Plan.callProcedure annotate name (Node.planAll annotate resolve nodes))
      (Sense.callProcedure layout.room (invoke name) (Node.senseAll around nodes)) := by
  intro pushed label core start store stands enough unclamped follows
  simp only [Plan.callProcedure, Output.events_append, Output.events_ofCode, Output.events_ofEvent,
    List.append_nil, unclamped_append] at unclamped
  have length : (Node.planAll annotate resolve nodes).length = nodes.length := by
    simp [Node.planAll_eq_map]
  unfold Sense.callProcedure
  rw [Node.length_senseAll]
  split
  next fits =>
    have height := stack_of_stands stands
    have saved : activation.Follows pushed start store (core.push .link).world := by
      rw [Core.world_push, height]
      exact follows.store_stack _ (Nat.le_refl _) (by omega)
    have link : (core.push .link).world.memory (above layout.bottom (activation.top + pushed)) =
        core.get .link := by
      rw [Core.world_push, height, World.memory_store_self]
    have pushes : ∀ first last, machine.everywhere.Spans first
        (Plan.pushArguments (Node.planAll annotate resolve nodes).reverse (pushed + 1) label).code
        last →
        machine.everywhere.Realizes fuel first last (core.push .link)
          (Sense.arguments (Node.senseAll around nodes) (activation.top + pushed + 1) store)
          fun result after =>
            after.get .stack =
              above (core.get .stack) (1 + (Node.planAll annotate resolve nodes).length) ∧
            activation.Pushed (pushed + 1) nodes.length (core.push .link).world result
              after.world := by
      intro first last spans
      refine (realizes_pushArguments tracks stands.push (by omega) unclamped.2 (saved.refl _)
        spans).imp ?_
      rintro result after - ⟨stands', pushes⟩
      refine ⟨?_, pushes⟩
      rw [stack_of_stands stands', height, length, above_above]
      exact congrArg _ (by omega)
    have enters : ∀ (result : List Word × Store) (after : Core),
        after.get .stack =
          above (core.get .stack) (1 + (Node.planAll annotate resolve nodes).length) →
        activation.Pushed (pushed + 1) nodes.length (core.push .link).world result after.world →
        ∀ first last, machine.everywhere.Spans first [.call (Label.procedure name).text] last →
        machine.everywhere.Realizes fuel first last after
          (invoke name result.1 (activation.top + pushed + 1 + nodes.length) result.2.shared >>=
            fun shared => .done { result.2 with shared := shared })
          fun store' after' => after'.get .stack = after.get .stack ∧
            activation.Follows (pushed + 1) (core.push .link).world store' after'.world := by
      rintro ⟨values, store'⟩ after stack ⟨follows', counted, row⟩ first last spans
      replace counted : values.length = nodes.length := counted
      rw [height, length, above_above, ← Nat.add_assoc, ← counted] at stack
      rw [← counted] at known fits ⊢
      refine (invokes name values _ store'.shared after first last known stack fits row
        follows'.shared spans).bind ?_
      rintro shared after' - ⟨same, holds, keeps⟩
      exact .done ⟨same, follows'.afterCall holds keeps⟩
    refine (Watch.does_callProcedure (by rwa [length]) pushes enters ?_).imp ?_
    · intro store' world after
      rw [height, after.kept _ (.inr (Nat.le_add_right _ _)) (Nat.lt_succ_self _), link]
    · intro store' world after
      exact saved.trans (after.mono (Nat.le_succ _))
  next => exact machine.does_fault

theorem effectTracks_call (callable : Node.Callable name nodes)
    (known : (Intrinsic.ofName? name).isSome || defined name nodes.length)
    (few : ∀ name count, defined name count → count ≤ maxOffset)
    (invokes : layout.Invokes fuel defined invoke)
    (tracks : ∀ node ∈ nodes, activation.ValueTracks fuel (node.plan annotate resolve).value
      (node.sense around).value)
    (designates : ∀ node ∈ nodes, node.isAssignable →
      activation.CellTracks fuel (node.plan annotate resolve).address (node.sense around).cell) :
    activation.EffectTracks fuel (Plan.call annotate name (Node.planAll annotate resolve nodes))
      (Sense.call (activation.scope.lookup? layout.globals) layout.room invoke name
        (Node.senseAll around nodes)) := by
  unfold Node.Callable at callable
  cases intrinsic : Intrinsic.ofName? name with
  | none =>
      have general : Sense.call (activation.scope.lookup? layout.globals) layout.room invoke name
          (Node.senseAll around nodes) =
          Sense.callProcedure layout.room (invoke name) (Node.senseAll around nodes) := by
        funext height store
        simp [Sense.call, intrinsic]
      have known : defined name nodes.length := by simpa [intrinsic] using known
      rw [Plan.call_general annotate (.inl intrinsic), general]
      exact effectTracks_callProcedure (few name _ known) invokes known tracks
  | some known =>
      intro pushed label core start store stands enough unclamped follows
      cases known with
      | read =>
          obtain ⟨target, rfl, assignable⟩ : ∃ target, nodes = [target] ∧ target.isAssignable := by
            simpa [intrinsic] using callable
          simp only [Node.planAll, Node.senseAll, Sense.call, intrinsic,
            Plan.call_read _ _ _ intrinsic, Output.events_append, unclamped_append,
            Output.code_append, Plan.code_extra, List.nil_append] at unclamped ⊢
          exact effectTracks_read (designates target List.mem_cons_self assignable) pushed label
            core start store stands enough unclamped.2 follows
      | write =>
          obtain ⟨value, rfl⟩ : ∃ value, nodes = [value] := by simpa [intrinsic] using callable
          simp only [Node.planAll, Node.senseAll, Sense.call, intrinsic,
            Plan.call_write _ _ _ intrinsic, Output.events_append, unclamped_append,
            Output.code_append, Plan.code_extra, List.nil_append] at unclamped ⊢
          exact effectTracks_write (tracks value List.mem_cons_self) pushed label core start store
            stands enough unclamped.2 follows

end Lists

/-! ## Nodes -/

/-- The code of a term realizes what the term means. -/
structure TermTracks (activation : Activation layout) (fuel : Nat) (annotate : Bool)
    (invoke : String → List Word → Nat → Shared → Outcome Shared) (node : Node) : Prop where
  value : activation.ValueTracks fuel
    (node.plan annotate (activation.scope.resolve layout.globals)).value
    (node.sense (activation.around fuel invoke)).value
  cell : node.isAssignable → activation.CellTracks fuel
    (node.plan annotate (activation.scope.resolve layout.globals)).address
    (node.sense (activation.around fuel invoke)).cell

section Nodes

variable {activation : Activation layout} {fuel : Nat} {annotate : Bool} {name : String}
  {defined : String → Nat → Bool}
  {invoke : String → List Word → Nat → Shared → Outcome Shared}

theorem termTracks_reference {found : Variable}
    (listed : activation.scope.lookup? layout.globals name = some found)
    (single : found.words ≤ 1) : activation.TermTracks fuel annotate invoke (.reference name) :=
  ⟨valueTracks_reference listed single, fun _ => cellTracks_reference⟩

theorem termTracks_element {found : Variable} {index : Node}
    (listed : activation.scope.lookup? layout.globals name = some found)
    (several : 1 < found.words) (tracks : activation.TermTracks fuel annotate invoke index) :
    activation.TermTracks fuel annotate invoke (.element name index) := by
  have cells : activation.CellTracks fuel
      (Plan.binary .add ((Node.reference name).plan annotate _) (index.plan annotate _))
      (Sense.element name (index.sense (activation.around fuel invoke))) :=
    cellTracks_element listed several tracks.value rfl
  refine ⟨?_, fun _ => cells⟩
  intro cursor pushed label core start store scratch stands enough unclamped follows
  exact yields_load scratch (cells cursor pushed label core start store scratch stands enough
    (unclamped_append.mp unclamped).1 follows)

theorem termTracks_call {arguments : List Node} (callable : Node.Callable name arguments)
    (known : (Intrinsic.ofName? name).isSome || defined name arguments.length)
    (few : ∀ name count, defined name count → count ≤ maxOffset)
    (invokes : layout.Invokes fuel defined invoke)
    (tracks : ∀ argument ∈ arguments, activation.TermTracks fuel annotate invoke argument) :
    activation.TermTracks fuel annotate invoke (.call name arguments) :=
  ⟨valueTracks_parked (effectTracks_call callable known few invokes
    (fun argument member => (tracks argument member).value)
    fun argument member => (tracks argument member).cell), nofun⟩

end Nodes

end Activation

section Tracks

variable {activation : Activation layout} {fuel : Nat} {annotate : Bool}
  {defined : String → Nat → Bool}
  {invoke : String → List Word → Nat → Shared → Outcome Shared} {node : Node}

/-- **The code of an expression realizes what it means.** -/
theorem Node.Term.tracks (few : ∀ name count, defined name count → count ≤ maxOffset)
    (invokes : layout.Invokes fuel defined invoke) (term : node.Term)
    (resolved : node.resolves (activation.scope.lookup? layout.globals) defined) :
    activation.TermTracks fuel annotate invoke node := by
  -- An element is recognized at its outermost operator, two levels above its index, so the
  -- right operand of a sum has to be known in advance.
  suffices both : (node.resolves (activation.scope.lookup? layout.globals) defined →
      activation.TermTracks fuel annotate invoke node) ∧
      ∀ op left right, node = .binary op left right →
        right.resolves (activation.scope.lookup? layout.globals) defined →
        activation.TermTracks fuel annotate invoke right from both.1 resolved
  clear resolved
  induction term with
  | constant value =>
      exact ⟨fun _ => ⟨Activation.valueTracks_constant value, by rintro ⟨⟩⟩, by rintro _ _ _ ⟨⟩⟩
  | reference name =>
      refine ⟨fun resolved => ?_, by rintro _ _ _ ⟨⟩⟩
      obtain ⟨found, listed, single⟩ := (Option.any_eq_true _ _).mp resolved
      exact Activation.termTracks_reference listed (of_decide_eq_true single)
  | binary op first second ihFirst ihSecond =>
      constructor
      · intro resolved
        rw [resolves, Bool.and_eq_true] at resolved
        exact ⟨Activation.valueTracks_binary (ihFirst.1 resolved.1).value
          (ihSecond.1 resolved.2).value, by rintro ⟨⟩⟩
      · rintro _ _ _ ⟨⟩
        exact ihSecond.1
  | @unary op operand inner ih =>
      refine ⟨fun resolved => ?_, by rintro _ _ _ ⟨⟩⟩
      cases op with
      | dereference =>
          obtain ⟨name, index, found, rfl, listed, several, within⟩ := resolves_dereference resolved
          exact Activation.termTracks_element listed several (ih.2 _ _ _ rfl within)
      | plus =>
          exact ⟨Activation.valueTracks_unary (by decide) (ih.1 resolved).value, by rintro ⟨⟩⟩
      | minus =>
          exact ⟨Activation.valueTracks_unary (by decide) (ih.1 resolved).value, by rintro ⟨⟩⟩
      | not =>
          exact ⟨Activation.valueTracks_unary (by decide) (ih.1 resolved).value, by rintro ⟨⟩⟩
  | @call name arguments callable all ih =>
      refine ⟨fun resolved => ?_, by rintro _ _ _ ⟨⟩⟩
      rw [resolves, Bool.and_eq_true, resolvesAll_eq_all, List.all_eq_true] at resolved
      exact Activation.termTracks_call callable resolved.1 few invokes fun argument member =>
        (ih argument member).1 (resolved.2 argument member)

/-- **The code of a statement realizes what it means.** -/
theorem Node.Command.tracks (few : ∀ name count, defined name count → count ≤ maxOffset)
    (invokes : layout.Invokes fuel defined invoke) (command : node.Command)
    (resolved : node.resolves (activation.scope.lookup? layout.globals) defined) :
    activation.EffectTracks fuel
      (node.plan annotate (activation.scope.resolve layout.globals)).effect
      (node.sense (activation.around fuel invoke)).effect := by
  have terms : ∀ {node : Node}, node.Term →
      node.resolves (activation.scope.lookup? layout.globals) defined →
      activation.TermTracks fuel annotate invoke node :=
    fun term resolved => term.tracks few invokes resolved
  induction command with
  | block all ih =>
      rw [resolves, resolvesAll_eq_all, List.all_eq_true] at resolved
      exact Activation.effectTracks_sequence fun statement member =>
        ih statement member (resolved statement member)
  | call term =>
      rw [resolves, Bool.and_eq_true, resolvesAll_eq_all, List.all_eq_true] at resolved
      cases term with
      | call callable all =>
          have arguments := fun argument member =>
            terms (all argument member) (resolved.2 argument member)
          exact Activation.effectTracks_call callable resolved.1 few invokes
            (fun argument member => (arguments argument member).value)
            fun argument member => (arguments argument member).cell
  | assign assignable place term =>
      rw [resolves, Bool.and_eq_true] at resolved
      exact Activation.effectTracks_assign ((terms place resolved.1).cell assignable)
        (terms term resolved.2).value
  | branch test taken ih =>
      rw [resolves, Bool.and_eq_true] at resolved
      exact Activation.effectTracks_branch (terms test resolved.1).value (ih resolved.2)
  | branchElse test taken skipped ih ih' =>
      rw [resolves, Bool.and_eq_true, Bool.and_eq_true] at resolved
      exact Activation.effectTracks_branchElse (terms test resolved.1.1).value (ih resolved.1.2)
        (ih' resolved.2)
  | loop test taken ih =>
      rw [resolves, Bool.and_eq_true] at resolved
      exact Activation.effectTracks_loop (terms test resolved.1).value (ih resolved.2)

end Tracks

end ProcLang
