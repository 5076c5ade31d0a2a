import ProcLang.Proofs.Lowering.CallingConvention
import ProcLang.Proofs.Lowering.FrameReferences
import ProcLang.Proofs.Lowering.ProgramItems
import ProcLang.Proofs.Lowering.StatementMeaning

/-!
# Lowered expressions

The code of an expression that only looks at the memory leaves the value of the
expression, or the address that it stands for, in the register at the cursor. It does
so at every cursor and whatever has been pushed, and it changes nothing but the
registers from the cursor on (`Node.Plain.lower_evaluates`).

While the right operand of an operator is evaluated, the left one waits in the register
below. So a walk climbs by one register for each right operand it is inside
(`Node.climb`), and it finishes exactly if there are registers enough.
-/

set_option autoImplicit false

namespace ProcLang

namespace Emitter

variable {α β : Type}

/-- A sequence finishes exactly if its first part does, and the others do from where the
first part ends. -/
theorem Ends.finishes_bind {first : Emitter α} {second : α → Emitter β} {before between : Context}
    {value : α} {output : Output} (ends : first.Ends before value between output) :
    (first >>= second).Finishes before ↔
      first.Finishes before ∧ (second value).Finishes between := by
  constructor
  · rintro ⟨emitted, ran⟩
    obtain ⟨middle, last, started, ended, -⟩ := exists_of_run_bind ran
    obtain rfl := ends middle started
    exact ⟨⟨_, started⟩, ⟨last, ended⟩⟩
  · rintro ⟨finishes, next⟩
    exact (ends.yields finishes).bind next

theorem finishes_advanceCursor_iff (before : Context) :
    advanceCursor.Finishes before ↔ before.cursor + 1 ≤ maxCount := by
  constructor
  · rintro ⟨emitted, ran⟩
    by_contra full
    have counted : countUp before.cursor 1 = .error .addition := if_neg full
    obtain ⟨middle, last, started, -, -⟩ := exists_of_run_bind ran
    simp [change, counted, bind, Except.bind] at started
  · intro room
    exact (yields_advanceCursor room).finishes

end Emitter

namespace Node

/-- The names that stand in an expression. -/
def names : Node → List String
  | .reference name => [name]
  | .unary _ operand => names operand
  | .binary _ left right => names left ++ names right
  | _ => []

/-- How many registers above the cursor an expression is evaluated in. -/
def climb : Node → Nat
  | .unary _ operand => climb operand
  | .binary _ left right => max (climb left) (climb right + 1)
  | _ => 0

namespace Plain

variable {node : Node}

theorem expression (plain : node.Plain) : node.Expression := by
  induction plain with
  | constant value => exact .constant value
  | reference name => exact .reference name
  | unary op _ ih => exact .unary op ih
  | binary op _ _ ih ih' => exact .binary op ih ih'

/-- A value leaves the context as it was. -/
theorem ends_value (plain : node.Plain) (before : Context) :
    node.lower.value.Ends before () before
      ((node.plan before.annotate before.resolve).value before.cursor before.pushed
        before.nextLabel) := by
  have ends := node.lower_follows.value before ⟨rfl, rfl⟩
  rw [plain.expression.choices_eq] at ends
  exact ends

/-- An address leaves the context as it was. -/
theorem ends_address (plain : node.Plain) (before : Context) :
    node.lower.address.Ends before () before
      ((node.plan before.annotate before.resolve).address before.cursor before.pushed
        before.nextLabel) := by
  have ends := node.lower_follows.address before ⟨rfl, rfl⟩
  rw [plain.expression.choices_eq] at ends
  exact ends

/-! ## Registers enough -/

section Room

variable {before : Context}

theorem finishes_unary_iff (op : UnaryOperator) {operand : Node} (plain : operand.Plain) :
    (Emitter.unary op operand.lower.value).Finishes before ↔
      operand.lower.value.Finishes before := by
  rw [Emitter.unary, (Emitter.ends_cursor before).finishes_bind,
    (plain.ends_value before).finishes_bind]
  constructor
  · rintro ⟨-, finishes, -⟩
    exact finishes
  · intro finishes
    refine ⟨⟨_, rfl⟩, finishes, ?_⟩
    cases op <;> exact ⟨_, rfl⟩

theorem finishes_binary_iff (op : BinaryOperator) {left right : Node} (plain : left.Plain)
    (plain' : right.Plain) :
    (Emitter.binary op left.lower.value right.lower.value).Finishes before ↔
      left.lower.value.Finishes before ∧ before.cursor + 1 ≤ maxCount ∧
        right.lower.value.Finishes { before with cursor := before.cursor + 1 } := by
  rw [Emitter.binary, (Emitter.ends_cursor before).finishes_bind,
    (plain.ends_value before).finishes_bind, (Emitter.ends_advanceCursor before).finishes_bind,
    Emitter.finishes_advanceCursor_iff, (plain'.ends_value _).finishes_bind]
  constructor
  · rintro ⟨-, finishes, room, finishes', -⟩
    exact ⟨finishes, room, finishes'⟩
  · rintro ⟨finishes, room, finishes'⟩
    exact ⟨⟨_, rfl⟩, finishes, room, finishes',
      (Emitter.yields_retreatCursor (Nat.le_add_left 1 before.cursor)).bind ⟨_, rfl⟩⟩

/-- A value is lowered exactly if the registers do not run out. -/
theorem finishes_value_iff (plain : node.Plain) (counts : before.cursor ≤ maxCount) :
    node.lower.value.Finishes before ↔ before.cursor + node.climb ≤ maxCount := by
  induction plain generalizing before with
  | constant value => exact iff_of_true ⟨_, rfl⟩ counts
  | reference name => exact iff_of_true (Emitter.finishes_reference name) counts
  | unary op plain ih =>
      have same := (finishes_unary_iff op plain).trans (ih counts)
      cases op <;> exact same
  | binary op plain plain' ih ih' =>
      change (Emitter.binary op _ _).Finishes before ↔ _
      rw [finishes_binary_iff op plain plain', ih counts, climb]
      constructor
      · rintro ⟨first, room, second⟩
        have := (ih' room).mp second
        dsimp only at this
        omega
      · intro enough
        have room : before.cursor + 1 ≤ maxCount := by omega
        exact ⟨by omega, room, (ih' room).mpr (by dsimp only; omega)⟩

/-- An address needs as many registers as the value. -/
theorem finishes_address_iff (plain : node.Plain) (counts : before.cursor ≤ maxCount) :
    node.lower.address.Finishes before ↔ before.cursor + node.climb ≤ maxCount := by
  have asAddress : (Emitter.valueAsAddress node.lower.value).Finishes before ↔
      before.cursor + node.climb ≤ maxCount := by
    rw [Emitter.valueAsAddress, (Emitter.ends_note _ before).finishes_bind,
      plain.finishes_value_iff counts]
    exact and_iff_right ⟨_, rfl⟩
  cases plain with
  | constant value => exact asAddress
  | reference name => exact iff_of_true (Emitter.finishes_referenceAddress name) counts
  | unary op plain =>
      cases op with
      | dereference => exact plain.finishes_value_iff counts
      | plus => exact asAddress
      | minus => exact asAddress
      | not => exact asAddress
  | binary op plain plain' => exact asAddress

end Room

/-! ## The frame in reach -/

section Reach

variable {annotate : Bool} {resolve : String → Address} {pushed : Nat}

theorem unclamped_addressOf {name : String} (target : Register)
    (reach : ∀ shift ∈ (resolve name).shift?, shift + pushed ≤ maxOffset) :
    Unclamped (Plan.addressOf resolve name target pushed).events := by
  unfold Plan.addressOf
  cases found : resolve name with
  | frameLocal shift size =>
      have near := reach shift (by rw [found]; rfl)
      simpa [Unclamped, Plan.frameAddress, Event.inReach] using near
  | parameter shift =>
      have near := reach shift (by rw [found]; rfl)
      simpa [Unclamped, Plan.frameAddress, Event.inReach] using near
  | global name size => simp [Unclamped, Event.inReach]

/-- If the words of the names are in reach, then no constant of the code is cut off. -/
theorem unclamped_value (plain : node.Plain)
    (reach : ∀ name ∈ node.names, ∀ shift ∈ (resolve name).shift?, shift + pushed ≤ maxOffset)
    (cursor label : Nat) :
    Unclamped ((node.plan annotate resolve).value cursor pushed label).events := by
  induction plain generalizing cursor label with
  | constant value => simp [plan, Plan.ofValue, Unclamped]
  | reference name =>
      change Unclamped (Plan.reference resolve name cursor pushed).events
      rw [Plan.reference, Output.events_append, unclamped_append]
      refine ⟨unclamped_addressOf _ (reach name List.mem_cons_self), ?_⟩
      split <;> simp [Unclamped]
  | @unary op operand _ ih =>
      have same : Unclamped (Plan.unary op (operand.plan annotate resolve) cursor pushed
          label).events := by
        rw [Plan.unary, Output.events_append, Output.events_ofCode, List.append_nil]
        exact ih reach cursor label
      cases op <;> exact same
  | @binary op left right _ _ ih ih' =>
      change Unclamped (Plan.binary op _ _ cursor pushed label).events
      rw [names, List.forall_mem_append] at reach
      rw [Plan.binary, Output.events_append, Output.events_append, Output.events_ofCode,
        List.append_nil, unclamped_append]
      exact ⟨ih reach.1 cursor label, ih' reach.2 _ _⟩

theorem unclamped_address (plain : node.Plain)
    (reach : ∀ name ∈ node.names, ∀ shift ∈ (resolve name).shift?, shift + pushed ≤ maxOffset)
    (cursor label : Nat) :
    Unclamped ((node.plan annotate resolve).address cursor pushed label).events := by
  have asAddress : Unclamped (.ofEvent .addressOfValue ++
      (node.plan annotate resolve).value cursor pushed label).events := by
    rw [Output.events_append, unclamped_append]
    exact ⟨by simp [Unclamped, Event.inReach], plain.unclamped_value reach cursor label⟩
  cases plain with
  | constant value => exact asAddress
  | reference name => exact unclamped_addressOf _ (reach name List.mem_cons_self)
  | unary op plain =>
      cases op with
      | dereference => exact plain.unclamped_value reach cursor label
      | plus => exact asAddress
      | minus => exact asAddress
      | not => exact asAddress
  | binary op plain plain' => exact asAddress

end Reach

end Plain

end Node

/-! ## Values and addresses -/

/-- Wherever the emitted code stands, it runs to its end and leaves a word in the register
at the cursor. It changes nothing but the registers from the cursor on. The word depends
on the memory, and on where the frame is: its top is below what has been pushed. -/
def Emitted.Leaves (emitted : Emitted Unit) (before : Context)
    (word : Setting → (Word → Word) → Word) : Prop :=
  ∀ (machine : Machine) (front back : List Instruction),
    machine.program = front ++ emitted.output.code ++ back → ∀ core : Core,
    let start := front.length
    let finish := front.length + emitted.output.code.length
    let top := core.get .stack - BitVec.ofNat 32 before.pushed
    ∃ count after, machine.Path (fun position => start ≤ position ∧ position < finish) count
        ⟨start, core⟩ ⟨finish, after⟩ ∧
      after.get (.general before.cursor) =
        word (machine.setting before.resolve top (core.get .link)) core.world.memory ∧
      after.world = core.world ∧ core.Same before.cursor after

/-- Code without labels that yields a word of the memory leaves it. -/
theorem Emitted.leaves_of_yields {emitted : Emitted Unit} {before : Context}
    {word : Setting → (Word → Word) → Word}
    (unlabelled : ∀ name, .label name ∉ emitted.output.code)
    (yields : ∀ (watch : Watch) (top link : Word) (core : Core),
      (∀ state, watch.machine.Touches top state → watch.bad state) →
      (watch.machine.setting before.resolve top link).Stands before.pushed core →
      watch.Yields 0 before.cursor emitted.output.code core
        (.done (word (watch.machine.setting before.resolve top link) core.world.memory, core.world))
        ((watch.machine.setting before.resolve top link).Follows before.pushed core.world)) :
    emitted.Leaves before word := by
  intro machine front back placed core start finish top
  let watch : Watch :=
    ⟨machine, fun position => start ≤ position ∧ position < finish, machine.Touches top⟩
  have spans : watch.Spans start emitted.output.code finish :=
    Watch.spans_of_placed placed (fun position late early => ⟨late, early⟩) fun name member =>
      absurd member (unlabelled name)
  have stands : (machine.setting before.resolve top (core.get .link)).Stands before.pushed core :=
    ⟨(BitVec.sub_add_cancel _ _).symm, rfl⟩
  obtain ⟨count, after, path, same, found, world, -⟩ :=
    yields watch top (core.get .link) core (fun _ touches => touches) stands start finish spans
  exact ⟨count, after, path, found, world.symm, same⟩

namespace Node.Plain

variable {node : Node} {before : Context} {emitted : Emitted Unit}

theorem label_not_mem_address {annotate : Bool} {resolve : String → Address} (plain : node.Plain)
    (cursor pushed label : Nat) (name : String) :
    .label name ∉ ((node.plan annotate resolve).address cursor pushed label).code := by
  have numbers := (node.plan_numbers annotate resolve).address cursor pushed label
  rw [plain.expression.choices_eq] at numbers
  intro member
  have listed := mem_definedLabels.mpr member
  rw [numbers.eq_nil] at listed
  cases listed

section Leaves

variable (plain : node.Plain) (scratch : Register.scratchBase ≤ before.cursor)
  (small : before.pushed ≤ maxCount)
  (reach : ∀ name ∈ node.names, ∀ shift ∈ (before.resolve name).shift?,
    shift + before.pushed ≤ maxOffset)

include plain scratch small reach

theorem leaves_value (lowered : node.lower.value.run before = .ok emitted) :
    emitted.Leaves before fun setting memory => node.evaluate setting memory := by
  have ends := plain.ends_value before emitted lowered
  refine Emitted.leaves_of_yields (fun name => ?_) fun watch top link core touch stands => ?_
  · rw [ends]
    exact (plain.expression.label_not_mem _ _ name).1 _
  · rw [← plain.value_eq _ 0 (core.pending before.cursor) before.pushed]
    refine lower_value_yields 0 touch ?_ lowered small ?_ scratch stands
    · rw [plain.generalCalls_eq]
      exact List.forall_mem_nil _
    · rw [ends]
      exact plain.unclamped_value reach _ _

theorem leaves_address (lowered : node.lower.address.run before = .ok emitted) :
    emitted.Leaves before fun setting memory => node.locate setting memory := by
  have ends := plain.ends_address before emitted lowered
  refine Emitted.leaves_of_yields (fun name => ?_) fun watch top link core touch stands => ?_
  · rw [ends]
    exact plain.label_not_mem_address _ _ _ name
  · rw [← plain.address_eq _ 0 (core.pending before.cursor) before.pushed]
    refine lower_address_yields 0 touch ?_ lowered small ?_ scratch stands
    · rw [plain.generalCalls_eq]
      exact List.forall_mem_nil _
    · rw [ends]
      exact plain.unclamped_address reach _ _

/-- **Expressions are evaluated right at every cursor and whatever has been pushed.** If the
names of an expression are in reach of the stack register, then its value and its address
are lowered exactly if the registers do not run out. The context is as before, and the code
leaves the value, or the address, in the register at the cursor, and changes nothing else
but the registers above it. -/
theorem lower_evaluates (counts : before.cursor ≤ maxCount) :
    (node.lower.value.Finishes before ↔ before.cursor + node.climb ≤ maxCount) ∧
    (node.lower.address.Finishes before ↔ before.cursor + node.climb ≤ maxCount) ∧
    (∀ emitted, node.lower.value.run before = .ok emitted →
      emitted.context = before ∧
        emitted.Leaves before fun setting memory => node.evaluate setting memory) ∧
    ∀ emitted, node.lower.address.run before = .ok emitted →
      emitted.context = before ∧
        emitted.Leaves before fun setting memory => node.locate setting memory := by
  refine ⟨plain.finishes_value_iff counts, plain.finishes_address_iff counts,
    fun emitted lowered => ⟨?_, plain.leaves_value scratch small reach lowered⟩,
    fun emitted lowered => ⟨?_, plain.leaves_address scratch small reach lowered⟩⟩
  · rw [plain.ends_value before emitted lowered]
  · rw [plain.ends_address before emitted lowered]

end Leaves

/-- `*(a + i) > 1 - p * 3` -/
def deepComparison : Node :=
  .binary .greater
    (.unary .dereference (.binary .add (.reference "a") (.reference "i")))
    (.binary .sub (.constant 1) (.binary .mul (.reference "p") (.constant 3)))

/-- Two words have been pushed above a frame with an array, a scalar and a parameter, and
two registers are in use. -/
def deepContext : Context :=
  { Context.initial false with
    cursor := 5
    pushed := 2
    scope := ⟨[⟨"a", 3⟩, ⟨"i", 1⟩], ["p"]⟩ }

/-- Every register holds 100, and every word of the memory its own address. So the frame
ends at 98, `a` is 95, and `i` and `p` hold 94 and 93. -/
def deepCore : Core :=
  ⟨fun _ => 100, ⟨fun address => address, ⟨[], []⟩, []⟩⟩

/-- The left side is the word at 95 + 94, and it is greater than 1 - 93 * 3. -/
theorem evaluate_deepComparison (machine : Machine) (link : Word) :
    deepComparison.evaluate (machine.setting deepContext.resolve 98 link) deepCore.world.memory =
      1 := by
  have array : deepContext.resolve "a" = .frameLocal 3 3 := by decide
  have scalar : deepContext.resolve "i" = .frameLocal 4 1 := by decide
  have parameter : deepContext.resolve "p" = .parameter 5 := by decide
  simp [deepComparison, evaluate, Setting.address, Machine.setting, array, scalar, parameter,
    Address.isArray, deepCore, Arithmetic.binary, truth]

/-- The registers from 3 on are in use up to the cursor, and they are still there when the
comparison has been made. -/
theorem lower_evaluates_deepComparison :
    ∃ emitted, deepComparison.lower.value.run deepContext = .ok emitted ∧
      emitted.context.cursor = 5 ∧
      ∃ count after, (Machine.alone (.comment "start" :: emitted.output.code)).Path
          (fun position => 1 ≤ position ∧ position < 1 + emitted.output.code.length) count
          ⟨1, deepCore⟩ ⟨1 + emitted.output.code.length, after⟩ ∧
        after.get (.general 5) = 1 ∧ after.world = deepCore.world ∧ deepCore.Same 5 after := by
  have plain : deepComparison.Plain :=
    .binary _ (.unary _ (.binary _ (.reference "a") (.reference "i")))
      (.binary _ (.constant 1) (.binary _ (.reference "p") (.constant 3)))
  obtain ⟨value, -, runs, -⟩ := @lower_evaluates _ deepContext plain (by decide) (by decide)
    (by decide) (by decide)
  obtain ⟨emitted, ran⟩ := value.mpr (by decide)
  obtain ⟨context, leaves⟩ := runs emitted ran
  have placed : (Machine.alone (.comment "start" :: emitted.output.code)).program =
      [.comment "start"] ++ emitted.output.code ++ [] := by
    rw [List.append_nil]
    rfl
  obtain ⟨count, after, path, found, world, same⟩ := leaves _ _ _ placed deepCore
  refine ⟨emitted, ran, by rw [context]; rfl, count, after, path, found.trans ?_, world, same⟩
  exact evaluate_deepComparison _ _

end Node.Plain

end ProcLang
