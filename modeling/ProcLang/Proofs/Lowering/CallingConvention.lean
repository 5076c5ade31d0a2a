import ProcLang.Proofs.Lowering.FlatMeaning
import ProcLang.Proofs.Lowering.Frame
import ProcLang.Proofs.Lowering.Labels
import ProcLang.Proofs.Semantics.Expression

/-!
# The calling convention

A call pushes the link register and then the arguments, the last one first. When
the procedure is entered, the arguments stand below the stack register in their
order and the link below them (`Machine.Entered`), which is where the procedure
finds its parameters once it has made its frame (`Setting.address_parameter`).

This holds for calls nested to any depth in the arguments of a call, as long as
every procedure leaves the stack register and the words in use alone
(`Node.call_conforms`).
-/

set_option autoImplicit false

namespace ProcLang

/-- A parameter is found at its place below the stack register with which the
procedure was entered. -/
theorem Setting.address_parameter (machine : Machine) (scope : Scope) {extent index : Nat}
    {parameter : String} (globals : List Declaration) (entry link : Word)
    (reach : scope.frameExtent? = some extent)
    (listed : scope.parameters[index]? = some parameter)
    (first : parameter ∉ scope.parameters.take index)
    (absent : ∀ declared ∈ scope.locals, declared.name ≠ parameter) :
    (machine.setting (scope.resolve globals) (above entry scope.frameSize) link).address parameter =
      entry - BitVec.ofNat 32 (index + 1) := by
  have found := Scope.find_parameter reach listed first absent
  simp only [address, Machine.setting, Scope.resolve, found, Option.getD_some]
  rw [Nat.add_comm scope.frameSize index, Nat.add_right_comm]
  exact Plan.above_sub_add entry (index + 1) scope.frameSize

/-- A procedure is about to be entered. The stack register is above the link and
the arguments, which stand in order below it. -/
structure Machine.Entered (machine : Machine) (name : String) (arity : Nat) (base link : Word)
    (values : List Word) (state : State) : Prop where
  call : machine.program[state.position]? = some (.call (Label.procedure name).text)
  height : state.core.get .stack = above base (arity + 1)
  length : values.length = arity
  argument : ∀ (index : Nat) (value : Word), values[index]? = some value →
    state.core.world.memory (state.core.get .stack - BitVec.ofNat 32 (index + 1)) = value
  saved : state.core.world.memory (state.core.get .stack - BitVec.ofNat 32 (arity + 1)) = link

/-- What becomes of a call, given what happens up to the moment when the
procedure is entered: it is entered as the convention says, at the last call of
the code, and if it answers, the call arrives at its end; or the machine waits
before that. -/
def Machine.Conforms (machine : Machine) (inside : Nat → Prop) (start finish : Nat) (core : Core)
    (name : String) (arity : Nat) (base : Word) (prepared : Outcome (List Word × World))
    (post : Core → Prop) : Prop :=
  match prepared with
  | .done (values, world) =>
      (∃ count state, machine.Path inside count ⟨start, core⟩ state ∧
        machine.Entered name arity base (core.get .link) values state ∧ state.core.world = world ∧
        ∀ later callee, state.position < later → later < finish →
          machine.program[later]? ≠ some (.call callee)) ∧
      (world.answers = [] ∨
        ∃ count after, machine.Path inside count ⟨start, core⟩ ⟨finish, after⟩ ∧ post after)
  | .waits seen =>
      ∃ count state, machine.Path inside count ⟨start, core⟩ state ∧ machine.Waits state ∧
        state.core.world.channel = seen
  | .cut _ | .fault => False

namespace Plan

variable {watch : Watch} {resolve : String → Address} {top link : Word} {fuel : Nat}
  {annotate : Bool} {nodes : List Node} {core : Core}

/-- The arguments stand below the stack register in their order. -/
theorem entered_of_pushed {setting : Setting} {name : String} {pushed called : Nat} {start : World}
    {result : List Word × World} {after : Core}
    (found : watch.machine.program[called]? = some (.call (Label.procedure name).text))
    (arrived : Pushed setting (pushed + 1) nodes.length start result after)
    (saved : after.world.memory (above setting.top pushed) = setting.link) :
    watch.machine.Entered name nodes.length (above setting.top pushed) setting.link result.1
      ⟨called, after⟩ := by
  have height : after.get .stack = above (above setting.top pushed) (nodes.length + 1) := by
    rw [arrived.stands.stack, above_above]
    congr 1
    omega
  refine ⟨found, height, arrived.length, ?_, ?_⟩
  · intro index value listed
    have inside := (List.getElem?_eq_some_iff.mp listed).1
    rw [arrived.length] at inside
    have place : after.get .stack - BitVec.ofNat 32 (index + 1) =
        above (above setting.top (pushed + 1)) (nodes.length - 1 - index) := by
      rw [height, above_above, above_above,
        show pushed + (nodes.length + 1) =
          pushed + 1 + (nodes.length - 1 - index) + (index + 1) by omega, above_sub]
    rw [place]
    refine arrived.row (nodes.length - 1 - index) value ?_
    rw [List.getElem?_reverse (by rw [arrived.length]; omega), arrived.length, ← listed]
    congr 1
    omega
  · have place : after.get .stack - BitVec.ofNat 32 (nodes.length + 1) =
        above setting.top pushed := by
      rw [height]
      exact BitVec.add_sub_cancel _ _
    rw [place, saved]

/-- Where code without calls stands, there is no call. -/
theorem ne_call_of_spans {code : List Instruction} {start finish : Nat}
    (spans : watch.Spans start code finish) (none : ∀ callee, .call callee ∉ code) (later : Nat)
    (callee : String) (late : start ≤ later) (early : later < finish) :
    watch.machine.program[later]? ≠ some (.call callee) := by
  intro same
  obtain ⟨instruction, member, listed⟩ := spans.exists_mem late early
  obtain rfl := Option.some.inj (same.symm.trans listed)
  exact none callee member

theorem call_not_mem_popCode (registers : List Register) (callee : String) :
    .call callee ∉ popCode registers := by
  simp [popCode]

theorem call_not_mem_return (words : Nat) (callee : String) :
    .call callee ∉ dropCode words ++ popCode [.link] := by
  unfold dropCode
  split <;> simp [popCode]

/-- The code of a call, up to the moment when the procedure is entered. -/
theorem realizes_prepare {name : String} {pushed label start finish : Nat}
    (means : ∀ node ∈ nodes, (node.plan annotate resolve).Means watch
      (watch.machine.setting resolve top link) fuel node.depth
      (node.meaning (watch.machine.setting resolve top link) fuel))
    (stands : (watch.machine.setting resolve top link).Stands pushed core)
    (unclamped : Unclamped (callProcedure annotate name (Node.planAll annotate resolve nodes) pushed
      label).events)
    (fits : pushed + (1 + Depth.arguments (Node.depthAll nodes)) ≤ maxCount)
    (spans : watch.Spans start (callProcedure annotate name (Node.planAll annotate resolve nodes)
      pushed label).code finish) :
    ∃ called, watch.Realizes fuel start called core
        (Meaning.prepare (watch.machine.setting resolve top link)
          (Node.meaningAll (watch.machine.setting resolve top link) fuel nodes) pushed core.world)
        (fun result after => after.world = result.2 ∧
          watch.machine.Entered name nodes.length (core.get .stack) link result.1 ⟨called, after⟩) ∧
      ∀ later callee, called < later → later < finish →
        watch.machine.program[later]? ≠ some (.call callee) := by
  simp only [callProcedure, Output.events_append, Output.events_ofCode, Output.events_ofEvent,
    List.append_nil, unclamped_append] at unclamped
  simp only [callProcedure, Output.code_append, Output.code_ofCode, Output.code_ofEvent,
    List.nil_append, List.append_assoc] at spans
  obtain ⟨remarked, spansRemark, spans⟩ := Watch.spans_append.mp spans
  obtain ⟨entered, spansSave, spans⟩ := Watch.spans_append.mp spans
  obtain ⟨called, spansPush, spans⟩ := Watch.spans_append.mp spans
  obtain ⟨found, -, -, spansReturn⟩ := spans
  refine ⟨called, ?_, ?_⟩
  · have saves := stands.saves (by unfold maxCount at fits; omega)
    refine Watch.Realizes.run spansRemark (Watch.run?_remark _ _ _ _) ?_
    refine Watch.Realizes.run spansSave (Machine.run?_pushCode _ [.link] _) ?_
    rw [Meaning.prepare, ← stands.world_push]
    refine (realizes_pushArguments means stands.push unclamped.2 (by omega) spansPush).imp ?_
    intro result after _ arrived
    rw [stands.stack]
    exact ⟨arrived.follows.1.symm,
      entered_of_pushed found arrived (saves.trans arrived.follows).2⟩
  · exact ne_call_of_spans spansReturn (call_not_mem_return _)

end Plan

/-- A call conforms if what leads to the entry and the whole are realized. -/
theorem Watch.conforms_of_realizes {watch : Watch} {start called finish arity : Nat} {core : Core}
    {name : String} {base : Word} {prepared : Outcome (List Word × World)} {α : Type}
    {next : List Word × World → Outcome α} {whole : α → Core → Prop} {post : Core → Prop}
    (safe : ∀ count state, watch.machine.Path watch.allowed count ⟨start, core⟩ state →
      ¬watch.bad state)
    (settled : prepared.Settled)
    (answered : ∀ result, result.2.answers ≠ [] →
      next result = .fault ∨ ∃ value, next result = .done value)
    (enters : watch.Realizes 0 start called core prepared fun result after =>
      after.world = result.2 ∧
        watch.machine.Entered name arity base (core.get .link) result.1 ⟨called, after⟩)
    (last : ∀ later callee, called < later → later < finish →
      watch.machine.program[later]? ≠ some (.call callee))
    (returns : watch.Realizes 0 start finish core (prepared >>= next) whole)
    (kept : ∀ result value after, next result = .done value → whole value after → post after) :
    watch.machine.Conforms watch.allowed start finish core name arity base prepared post := by
  cases prepared with
  | done result =>
      obtain ⟨count, entry, path, same, entered⟩ := enters
      refine ⟨⟨count, ⟨called, entry⟩, path, entered, same, last⟩, ?_⟩
      by_cases none : result.2.answers = []
      · exact .inl none
      · refine .inr ?_
        rw [Outcome.done_bind] at returns
        rcases answered result none with fault | ⟨value, done⟩
        · rw [fault] at returns
          obtain ⟨count, state, path, bad⟩ := returns
          exact absurd bad (safe count state path)
        · rw [done] at returns
          obtain ⟨count, after, path, holds⟩ := returns
          exact ⟨count, after, path, kept result value after done holds⟩
  | waits seen =>
      obtain ⟨count, state, path, waits, -, same⟩ := enters
      exact ⟨count, state, path, waits, same⟩
  | cut seen => exact absurd rfl (settled seen)
  | fault =>
      obtain ⟨count, state, path, bad⟩ := enters
      exact absurd bad (safe count state path)

namespace Node

variable {node : Node} {annotate : Bool} {resolve : String → Address}

theorem choicesOf_planAll_eq_zero {nodes : List Node}
    (none : ∀ node ∈ nodes, (node.plan annotate resolve).choices = 0) :
    Plan.choicesOf (planAll annotate resolve nodes) = 0 := by
  induction nodes with
  | nil => rfl
  | cons node rest ih =>
      rw [planAll, Plan.choicesOf_cons, none node List.mem_cons_self,
        ih fun other member => none other (.tail _ member)]

theorem Expression.choices_eq (expression : node.Expression) :
    (node.plan annotate resolve).choices = 0 := by
  induction expression with
  | constant value => rfl
  | reference name => rfl
  | unary op _ ih => cases op <;> exact ih
  | binary op _ _ ih ih' =>
      change Plan.choices _ + Plan.choices _ = 0
      rw [ih, ih']
  | @call name arguments _ ih =>
      change Plan.callChoices name _ = 0
      rcases Plan.general_or_intrinsic name arguments with general | ⟨_, first, rest, known, rfl⟩
      · rw [Plan.callChoices_general (general.imp_right fun none => none ▸ rfl)]
        exact choicesOf_planAll_eq_zero ih
      · rw [planAll, Plan.callChoices_intrinsic _ _ known]
        exact ih first List.mem_cons_self

/-- The code of an expression has no labels. -/
theorem Expression.label_not_mem (expression : node.Expression) (pushed label : Nat)
    (name : String) : (∀ cursor, .label name ∉
        ((node.plan annotate resolve).value cursor pushed label).code) ∧
      .label name ∉ ((node.plan annotate resolve).effect pushed label).code := by
  have numbers := node.plan_numbers annotate resolve
  have value := fun cursor => (numbers.value cursor pushed label)
  have effect := numbers.effect pushed label
  simp only [expression.choices_eq, Nat.add_zero] at value effect
  refine ⟨fun cursor member => ?_, fun member => ?_⟩
  · have listed := mem_definedLabels.mpr member
    rw [(value cursor).eq_nil] at listed
    cases listed
  · have listed := mem_definedLabels.mpr member
    rw [effect.eq_nil] at listed
    cases listed

/-! ## Calls of procedures -/

section Call

variable {name : String} {arguments : List Node}

theorem plan_call_effect (general : Intrinsic.ofName? name = none ∨ arguments = []) :
    ((Node.call name arguments).plan annotate resolve).effect =
      Plan.callProcedure annotate name (planAll annotate resolve arguments) :=
  Plan.call_general annotate (general.imp_right (congrArg (planAll annotate resolve)))

theorem meaning_call_effect (general : Intrinsic.ofName? name = none ∨ arguments = [])
    (setting : Setting) (fuel : Nat) :
    ((Node.call name arguments).meaning setting fuel).effect =
      Meaning.callProcedure setting (meaningAll setting fuel arguments) :=
  Meaning.call_general setting (general.imp_right (congrArg (meaningAll setting fuel)))

theorem meaning_call_value (general : Intrinsic.ofName? name = none ∨ arguments = [])
    (setting : Setting) (fuel : Nat) (operands : List Word) (pushed : Nat) (world : World) :
    ((Node.call name arguments).meaning setting fuel).value operands pushed world =
      (Meaning.prepare setting (meaningAll setting fuel arguments) (pushed + operands.length)
        (world.storeAll (above setting.top pushed) operands) >>= fun results =>
          Meaning.answer setting
            (pushed + operands.length + 1 + (meaningAll setting fuel arguments).length)
            results.2 >>= fun world => .done (0, world)) := by
  change Meaning.parked _ ((Node.call name arguments).meaning _ _).effect _ _ _ = _
  rw [meaning_call_effect general, Meaning.parked, Meaning.callProcedure, Outcome.bind_assoc]

theorem depth_call_effect (general : Intrinsic.ofName? name = none ∨ arguments = []) :
    (Node.call name arguments).depth.effect = 1 + Depth.arguments (depthAll arguments) :=
  Depth.call_general (general.imp_right (congrArg depthAll))

theorem answer_settles (setting : Setting) (pushed : Nat) {world : World}
    (some : world.answers ≠ []) :
    Meaning.answer setting pushed world = .fault ∨
      ∃ world', Meaning.answer setting pushed world = .done world' := by
  unfold Meaning.answer
  split
  next none => exact absurd none some
  next =>
    split
    · exact .inr ⟨_, rfl⟩
    · exact .inl rfl

variable {watch : Watch} {top link : Word} {core : Core} {cursor pushed label start finish : Nat}

/-- The code of a call enters the procedure as the convention says. -/
theorem call_enters (general : Intrinsic.ofName? name = none ∨ arguments = [])
    (touch : ∀ state, watch.machine.Touches top state → watch.bad state)
    (outside : watch.machine.Outside (Node.call name arguments).generalCalls)
    (stands : (watch.machine.setting resolve top link).Stands pushed core)
    (unclamped : Unclamped (((Node.call name arguments).plan annotate resolve).effect pushed
      label).events)
    (fits : pushed + (Node.call name arguments).depth.effect ≤ maxCount)
    (spans : watch.Spans start (((Node.call name arguments).plan annotate resolve).effect pushed
      label).code finish) :
    ∃ called, watch.Realizes 0 start called core
        (Meaning.prepare (watch.machine.setting resolve top link)
          (meaningAll (watch.machine.setting resolve top link) 0 arguments) pushed core.world)
        (fun result after => after.world = result.2 ∧
          watch.machine.Entered name arguments.length (core.get .stack) (core.get .link) result.1
            ⟨called, after⟩) ∧
      ∀ later callee, called < later → later < finish →
        watch.machine.program[later]? ≠ some (.call callee) := by
  rw [plan_call_effect general] at unclamped spans
  rw [depth_call_effect general] at fits
  rw [generalCalls_call general, Machine.outside_append] at outside
  rw [stands.link]
  refine Plan.realizes_prepare (fun argument member => ?_) stands unclamped fits spans
  exact argument.plan_means touch fun call listed =>
    outside.1 call (mem_generalCallsBack.mpr ⟨argument, member, listed⟩)

variable (general : Intrinsic.ofName? name = none ∨ arguments = [])
  (expressions : ∀ argument ∈ arguments, argument.Expression)
  (touch : ∀ state, watch.machine.Touches top state → watch.bad state)
  (outside : watch.machine.Outside (Node.call name arguments).generalCalls)
  (stands : (watch.machine.setting resolve top link).Stands pushed core)
  (safe : ∀ count state, watch.machine.Path watch.allowed count ⟨start, core⟩ state →
    ¬watch.bad state)

include general expressions touch outside stands safe

theorem call_effect_conforms
    (unclamped : Unclamped (((Node.call name arguments).plan annotate resolve).effect pushed
      label).events)
    (fits : pushed + (Node.call name arguments).depth.effect ≤ maxCount)
    (spans : watch.Spans start (((Node.call name arguments).plan annotate resolve).effect pushed
      label).code finish) :
    watch.machine.Conforms watch.allowed start finish core name arguments.length
        (core.get .stack)
      (Meaning.prepare (watch.machine.setting resolve top link)
        (meaningAll (watch.machine.setting resolve top link) 0 arguments) pushed core.world)
      (fun after => after.get .stack = core.get .stack ∧ after.get .link = core.get .link) := by
  obtain ⟨called, enters, last⟩ := call_enters general touch outside stands unclamped fits spans
  have returns : watch.Realizes 0 start finish core _ _ :=
    ((Node.call name arguments).plan_means touch outside).effect pushed label core stands unclamped
      fits start finish spans
  rw [meaning_call_effect general] at returns
  exact Watch.conforms_of_realizes safe
    (Meaning.settled_arguments (settled_of_mem_meaningAll fun _ member =>
      (expressions _ member).settled) _ _)
    (fun _ some => answer_settles _ _ some) enters last returns
    fun _ _ _ _ holds => ⟨holds.1.stack (Nat.le_refl _), holds.1.link (Nat.le_refl _)⟩

theorem call_value_conforms (scratch : Register.scratchBase ≤ cursor)
    (unclamped : Unclamped (((Node.call name arguments).plan annotate resolve).value cursor pushed
      label).events)
    (fits : pushed + (Node.call name arguments).depth.value cursor ≤ maxCount)
    (spans : watch.Spans start (((Node.call name arguments).plan annotate resolve).value cursor
      pushed label).code finish) :
    watch.machine.Conforms watch.allowed start finish core name arguments.length
      (above (core.get .stack) (cursor - Register.scratchBase))
      (Meaning.prepare (watch.machine.setting resolve top link)
        (meaningAll (watch.machine.setting resolve top link) 0 arguments)
        (pushed + (cursor - Register.scratchBase))
        (core.world.storeAll (core.get .stack) (core.pending cursor)))
      (fun after => core.Same cursor after ∧ after.get (.general cursor) = 0) := by
  have returns : watch.Realizes 0 start finish core _ _ :=
    ((Node.call name arguments).plan_means touch outside).value cursor pushed label core scratch
      stands unclamped fits start finish spans
  rw [meaning_call_value general, Core.length_pending] at returns
  have parked : ((Node.call name arguments).plan annotate resolve).value cursor pushed label =
    Plan.parked ((Node.call name arguments).plan annotate resolve).effect cursor pushed label := rfl
  rw [parked] at unclamped spans
  simp only [Plan.parked, Output.events_append, Output.events_ofEvent, Output.events_ofCode,
    List.append_nil, unclamped_append, Output.code_append, Output.code_ofCode, Output.code_ofEvent,
    List.nil_append, Watch.spans_append] at unclamped spans
  obtain ⟨between, ⟨popped, ⟨entered, spansPush, spansInner⟩, spansPop⟩, spansLast⟩ := spans
  replace fits : pushed + ((Emitter.scratchBelow cursor).length +
    (Node.call name arguments).depth.effect) ≤ maxCount := fits
  obtain ⟨called, enters, last⟩ := call_enters general touch outside
    (stands.pushAll (Emitter.scratchBelow cursor)) unclamped.2 (by omega) spansInner
  rw [Core.world_pushAll_scratchBelow, Core.get_stack_pushAll, Core.get_pushAll _ _ (by decide),
    Core.length_scratchBelow, stands.stack] at enters
  rw [stands.stack]
  have tail : ∀ callee, Instruction.call callee ∉
      popCode (Emitter.scratchBelow cursor).reverse ++ [.loadImmediate (.general cursor) 0] := by
    simp [Plan.call_not_mem_popCode]
  refine Watch.conforms_of_realizes safe
    (Meaning.settled_arguments (settled_of_mem_meaningAll fun _ member =>
      (expressions _ member).settled) _ _) ?_
    (Watch.Realizes.run spansPush (Machine.run?_pushCode _ _ _) enters)
    (fun later callee late early => ?_) returns ?_
  · intro result some
    rcases answer_settles (watch.machine.setting resolve top link) _ some with fault | ⟨world, done⟩
    · exact .inl (by rw [fault, Outcome.fault_bind])
    · exact .inr ⟨(0, world), by rw [done, Outcome.done_bind]⟩
  · rcases Nat.lt_or_ge later popped with inner | outer
    · exact last later callee late inner
    · exact Plan.ne_call_of_spans (Watch.spans_append.mpr ⟨between, spansPop, spansLast⟩) tail later
        callee outer early
  · rintro result value after done ⟨same, found, -⟩
    obtain ⟨world, -, last⟩ := Outcome.bind_eq_done done
    cases last
    exact ⟨same, found⟩

end Call

/-- **The calling convention holds under arbitrary nesting.** Take a call of a
procedure, with any expressions as arguments, and a run of its code in which the
words from the top of the frame up to the stack register are changed by pushing
only. Then the procedure is entered with the link register and the values of the
arguments where the convention puts them, unless the machine waits before that.
If the procedure answers, the call ends with the stack and the link register as
they were; where a value is needed, with all registers below the cursor as they
were, and zero at the cursor. The parameters of a procedure are found where the
convention puts the arguments. -/
theorem call_conforms {name : String} {arguments : List Node}
    (general : Intrinsic.ofName? name = none ∨ arguments = [])
    (expressions : ∀ argument ∈ arguments, argument.Expression) {before : Context}
    (small : before.pushed ≤ maxCount) (scratch : Register.scratchBase ≤ before.cursor)
    {machine : Machine} (outside : machine.Outside (Node.call name arguments).generalCalls)
    {front code back : List Instruction} (placed : machine.program = front ++ code ++ back)
    (core : Core) :
    let start := front.length
    let finish := front.length + code.length
    let inside (position : Nat) := start ≤ position ∧ position < finish
    let top := core.get .stack - BitVec.ofNat 32 before.pushed
    let setting := machine.setting before.resolve top (core.get .link)
    let parked := before.cursor - Register.scratchBase
    (∀ count state, machine.Path inside count ⟨start, core⟩ state → ¬machine.Touches top state) →
    (∀ emitted, (Node.call name arguments).lower.effect.run before = .ok emitted →
      emitted.output.code = code → Unclamped emitted.output.events →
      machine.Conforms inside start finish core name arguments.length
        (core.get .stack)
        (Meaning.prepare setting (meaningAll setting 0 arguments) before.pushed core.world)
        fun after => after.get .stack = core.get .stack ∧ after.get .link = core.get .link) ∧
    (∀ emitted, (Node.call name arguments).lower.value.run before = .ok emitted →
      emitted.output.code = code → Unclamped emitted.output.events →
      machine.Conforms inside start finish core name arguments.length
        (above (core.get .stack) parked)
        (Meaning.prepare setting (meaningAll setting 0 arguments) (before.pushed + parked)
          (core.world.storeAll (core.get .stack) (core.pending before.cursor)))
        fun after => core.Same before.cursor after ∧ after.get (.general before.cursor) = 0) ∧
    ∀ (scope : Scope) (globals : List Declaration) (extent index : Nat) (parameter : String)
      (entry link : Word), scope.frameExtent? = some extent →
      scope.parameters[index]? = some parameter → parameter ∉ scope.parameters.take index →
      (∀ declared ∈ scope.locals, declared.name ≠ parameter) →
      (machine.setting (scope.resolve globals) (above entry scope.frameSize) link).address
        parameter = entry - BitVec.ofNat 32 (index + 1) := by
  intro start finish inside top setting parked safe
  let watch : Watch := ⟨machine, inside, machine.Touches top⟩
  have touch : ∀ state, watch.machine.Touches top state → watch.bad state :=
    fun _ touches => touches
  have expression : (Node.call name arguments).Expression := .call name expressions
  have stands : setting.Stands before.pushed core := ⟨(BitVec.sub_add_cancel _ _).symm, rfl⟩
  refine ⟨?_, ?_, ?_⟩
  · intro emitted lowered same unclamped
    have fits := (Node.call name arguments).lower_reaches.effect before ⟨rfl, rfl⟩ small emitted
      lowered
    obtain ⟨cursor, ends⟩ := (Node.call name arguments).lower_follows.effect before ⟨rfl, rfl⟩
    have output : emitted.output =
        ((Node.call name arguments).plan before.annotate before.resolve).effect before.pushed
          before.nextLabel := congrArg Emitted.output (ends emitted lowered)
    rw [output] at same unclamped
    obtain rfl := same
    have spans : watch.Spans start _ finish := Watch.spans_of_placed placed
      (fun position late early => ⟨late, early⟩)
      fun label member => absurd member (expression.label_not_mem _ _ label).2
    have conforms := call_effect_conforms general expressions touch outside stands safe unclamped
      fits spans
    exact conforms
  · intro emitted lowered same unclamped
    have fits := (Node.call name arguments).lower_reaches.value before ⟨rfl, rfl⟩ small emitted
      lowered
    have ends := (Node.call name arguments).lower_follows.value before ⟨rfl, rfl⟩
    have output : emitted.output =
        ((Node.call name arguments).plan before.annotate before.resolve).value before.cursor
          before.pushed before.nextLabel := congrArg Emitted.output (ends emitted lowered)
    rw [output] at same unclamped
    obtain rfl := same
    have spans : watch.Spans start _ finish := Watch.spans_of_placed placed
      (fun position late early => ⟨late, early⟩)
      fun label member => absurd member ((expression.label_not_mem _ _ label).1 _)
    have conforms := call_value_conforms general expressions touch outside stands safe scratch
      unclamped fits spans
    exact conforms
  · intro scope globals extent index parameter entry link reach listed first absent
    exact Setting.address_parameter machine scope globals entry link reach listed first absent

/-- `f(g(1), x)` -/
def nestedCall : Node :=
  .call "f" [.call "g" [.constant 1], .reference "x"]

/-- A procedure whose only local is `x`, where one operand waits. -/
def nestedContext : Context :=
  { Context.initial false with cursor := 4, scope := ⟨[⟨"x", 1⟩], []⟩ }

/-- The code of the call where a value is needed. -/
def nestedCode : List Instruction :=
  [.store (.general 3) .stack 0, .addImmediate .stack .stack 1,
    .store .link .stack 0, .addImmediate .stack .stack 1,
    .addImmediate (.general 3) .stack (-3), .load (.general 3) (.general 3) 0,
    .store (.general 3) .stack 0, .addImmediate .stack .stack 1,
    .store .link .stack 0, .addImmediate .stack .stack 1,
    .loadImmediate (.general 3) 1,
    .store (.general 3) .stack 0, .addImmediate .stack .stack 1,
    .call "p_g",
    .addImmediate .stack .stack (-1),
    .addImmediate .stack .stack (-1), .load .link .stack 0,
    .loadImmediate (.general 3) 0,
    .store (.general 3) .stack 0, .addImmediate .stack .stack 1,
    .call "p_f",
    .addImmediate .stack .stack (-2),
    .addImmediate .stack .stack (-1), .load .link .stack 0,
    .addImmediate .stack .stack (-1), .load (.general 3) .stack 0,
    .loadImmediate (.general 4) 0]

/-- A memory with the same word everywhere. -/
def sevens : World := ⟨fun _ => 7, ⟨[], []⟩, []⟩

/-- Two answers that leave the words in use alone and change all registers. -/
def nestedCore : Core :=
  ⟨fun number => BitVec.ofNat 32 (100 * number),
    { sevens with
      answers := [⟨fun _ => 9, (sevens.storeAll 100 [300, 200, 7, 200, 1]).memory, ⟨[], []⟩⟩,
        ⟨fun _ => 9, (sevens.storeAll 100 [300, 200, 7, 0]).memory, ⟨[], []⟩⟩] }⟩

/-- Every procedure is outside the program. -/
def nestedMachine : Machine :=
  { Machine.alone nestedCode with external := fun _ => true }

theorem not_touches_of_quiet {machine : Machine} {allowed : Nat → Prop} {top : Word} {bound : Nat}
    {start : State}
    (quiet : ∀ count < bound,
      (machine.steps count start).all fun state => !machine.touches top state)
    (ended : (machine.steps bound start).isNone) (count : Nat) (state : State)
    (path : machine.Path allowed count start state) : ¬machine.Touches top state := by
  have taken := path.steps_eq
  rcases Nat.lt_or_ge count bound with early | late
  · have silent := quiet count early
    rw [taken] at silent
    rw [← machine.touches_eq_true_iff]
    simpa using silent
  · obtain ⟨more, rfl⟩ := Nat.exists_eq_add_of_le late
    rw [Machine.steps_add, Option.isNone_iff_eq_none.mp ended] at taken
    cases taken

/-- The call of `g` inside the arguments is answered first. The operand that waits
is pushed before the link register, so `f` is entered with the link at 101 and the
arguments above it. -/
theorem call_conforms_nested :
    (∃ emitted, nestedCall.lower.value.run nestedContext = .ok emitted ∧
      emitted.output.code = nestedCode) ∧
    (∃ count state, nestedMachine.Path (fun position => 0 ≤ position ∧ position < 27) count
      ⟨0, nestedCore⟩ state ∧ nestedMachine.Entered "f" 2 101 200 [0, 7] state) ∧
    ∃ count after, nestedMachine.Path (fun position => 0 ≤ position ∧ position < 27) count
      ⟨0, nestedCore⟩ ⟨27, after⟩ ∧ nestedCore.Same 4 after ∧ after.get (.general 4) = 0 := by
  obtain ⟨emitted, lowered, same, unclamped⟩ :
      ∃ emitted, nestedCall.lower.value.run nestedContext = .ok emitted ∧
        emitted.output.code = nestedCode ∧ Unclamped emitted.output.events :=
    ⟨_, rfl, by decide +kernel, by decide⟩
  have quiet : ∀ count < 28, (nestedMachine.steps count ⟨0, nestedCore⟩).all
      fun state => !nestedMachine.touches 100 state := by decide +kernel
  have ended : (nestedMachine.steps 28 ⟨0, nestedCore⟩).isNone := by decide +kernel
  have outside : nestedMachine.Outside [("g", 1), ("f", 2)] := by
    simp only [Machine.Outside, List.forall_mem_cons]
    exact ⟨⟨rfl, by decide⟩, ⟨rfl, by decide⟩, nofun⟩
  have inner : Expression (.call "g" [.constant 1]) :=
    .call "g" (List.forall_mem_singleton.mpr (.constant 1))
  have expressions : ∀ argument ∈ [Node.call "g" [.constant 1], .reference "x"],
      argument.Expression :=
    List.forall_mem_cons.mpr ⟨inner, List.forall_mem_singleton.mpr (.reference "x")⟩
  have level : nestedCore.get .stack - BitVec.ofNat 32 nestedContext.pushed = 100 := by decide
  have conforms := @call_conforms "f" _ (.inl rfl) expressions nestedContext (Nat.zero_le _)
    (by decide) nestedMachine outside [] nestedCode [] (List.append_nil _).symm nestedCore
  simp only [level] at conforms
  have conforms := (conforms (not_touches_of_quiet quiet ended)).2.1 emitted lowered same unclamped
  have ready : (match Meaning.prepare
      (nestedMachine.setting nestedContext.resolve 100 (nestedCore.get .link))
      (meaningAll (nestedMachine.setting nestedContext.resolve 100 (nestedCore.get .link)) 0
        [.call "g" [.constant 1], .reference "x"])
      (nestedContext.pushed + (nestedContext.cursor - Register.scratchBase))
      (nestedCore.world.storeAll (nestedCore.get .stack) (nestedCore.pending nestedContext.cursor))
      with
      | .done (values, world) => values == [0, 7] && !world.answers.isEmpty
      | _ => false) = true := by decide +kernel
  revert conforms ready
  generalize Meaning.prepare _ _ _ _ = outcome
  intro conforms ready
  cases outcome with
  | done result =>
      obtain ⟨values, world⟩ := result
      obtain ⟨rfl, left⟩ : values = [0, 7] ∧ world.answers ≠ [] := by simpa using ready
      obtain ⟨⟨count, state, path, entered, -⟩, none | returned⟩ := conforms
      · exact absurd none left
      · exact ⟨⟨emitted, lowered, same⟩, ⟨count, state, path, entered⟩, returned⟩
  | waits seen => cases ready
  | cut seen => cases ready
  | fault => cases ready

end Node

end ProcLang
