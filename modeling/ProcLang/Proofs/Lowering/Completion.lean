import ProcLang.Proofs.Lowering.ProgramPlan

/-!
# Lowering comes to an end

A walk stops early only if a counter leaves its range. The counters of a walk
grow by no more than the number of nodes it goes over (`Node.size`), so a walk
that starts with room for the nodes above its counters finishes
(`Node.lower_within`), and a tree that is small enough is always lowered
(`exists_lowerProgram`).
-/

set_option autoImplicit false

namespace ProcLang

namespace Node

mutual
/-- The number of nodes of a tree. -/
def size : Node → Nat
  | .program items => 1 + sizeAll items
  | .procedure _ _ body => 1 + size body
  | .header _ | .declarations _ | .declaration _ => 1
  | .block statements => 1 + sizeAll statements
  | .call _ arguments => 1 + sizeAll arguments
  | .assign target value => 1 + size target + size value
  | .branch condition consequent none => 1 + size condition + size consequent
  | .branch condition consequent (some alternative) =>
      1 + size condition + size consequent + size alternative
  | .loop condition body => 1 + size condition + size body
  | .binary _ left right => 1 + size left + size right
  | .unary _ operand => 1 + size operand
  | .constant _ | .reference _ => 1

/-- The number of nodes of trees. -/
def sizeAll : List Node → Nat
  | [] => 0
  | node :: rest => size node + sizeAll rest
end

theorem size_pos (node : Node) : 0 < node.size := by
  cases node with
  | branch condition consequent alternative => cases alternative <;> simp only [size] <;> omega
  | _ => simp only [size]; omega

theorem size_le_sizeAll {nodes : List Node} {node : Node} (member : node ∈ nodes) :
    node.size ≤ sizeAll nodes := by
  induction nodes with
  | nil => cases member
  | cons first rest ih =>
      rw [sizeAll]
      rcases List.mem_cons.mp member with rfl | member
      · exact Nat.le_add_right _ _
      · exact Nat.le_trans (ih member) (Nat.le_add_left _ _)

theorem length_le_sizeAll (nodes : List Node) : nodes.length ≤ sizeAll nodes := by
  induction nodes with
  | nil => exact Nat.le_refl _
  | cons node rest ih =>
      have := node.size_pos
      rw [sizeAll, List.length_cons]
      omega

section Choices

variable (annotate : Bool) (resolve : String → Address)

theorem choicesOf_planAll_le {nodes : List Node}
    (few : ∀ node ∈ nodes, (node.plan annotate resolve).choices ≤ node.size) :
    Plan.choicesOf (planAll annotate resolve nodes) ≤ sizeAll nodes := by
  induction nodes with
  | nil => exact Nat.le_refl _
  | cons node rest ih =>
      have first := few node List.mem_cons_self
      have others := ih fun other member => few other (.tail _ member)
      simp only [planAll, Plan.choicesOf_cons, sizeAll]
      omega

/-- A tree has no more choices and loops than nodes. -/
theorem choices_plan_le (node : Node) : (node.plan annotate resolve).choices ≤ node.size := by
  induction node with
  | program items ih =>
      have := choicesOf_planAll_le annotate resolve ih
      simp only [plan, Plan.ofEffect, size]
      omega
  | procedure heading locals body => exact Nat.zero_le _
  | header heading => exact Nat.zero_le _
  | declarations declared => exact Nat.zero_le _
  | declaration declared => exact Nat.zero_le _
  | block statements ih =>
      have := choicesOf_planAll_le annotate resolve ih
      simp only [plan, Plan.ofEffect, size]
      omega
  | call name arguments ih =>
      have all := choicesOf_planAll_le annotate resolve ih
      simp only [plan, Plan.ofEffect, size]
      rcases Plan.general_or_intrinsic name arguments with
        general | ⟨intrinsic, first, rest, known, rfl⟩
      · rw [Plan.callChoices_general (general.imp_right (by rintro rfl; rfl))]
        omega
      · have one := ih first List.mem_cons_self
        rw [planAll, Plan.callChoices_intrinsic _ _ known, sizeAll]
        omega
  | assign target value ihTarget ihValue =>
      simp only [plan, Plan.ofEffect, size]
      omega
  | branch condition consequent ihCondition ihConsequent =>
      simp only [plan, Plan.ofEffect, size]
      omega
  | branchElse condition consequent alternative ihCondition ihConsequent ihAlternative =>
      simp only [plan, Plan.ofEffect, size]
      omega
  | loop condition body ihCondition ihBody =>
      simp only [plan, Plan.ofEffect, size]
      omega
  | binary op left right ihLeft ihRight =>
      simp only [plan, Plan.ofValue, size]
      omega
  | unary op operand ih => cases op <;> simp only [plan, Plan.ofValue, Plan.ofPlace, size] <;> omega
  | constant value => exact Nat.zero_le _
  | reference name => exact Nat.zero_le _

end Choices

end Node

namespace Emitter

variable {α β : Type}

/-- A walk finishes from a context. -/
def Finishes (walk : Emitter α) (before : Context) : Prop :=
  ∃ emitted, walk.run before = .ok emitted

/-- A walk finishes from a context, with a given value, context and output. -/
def Yields (walk : Emitter α) (before : Context) (value : α) (after : Context) (output : Output) :
    Prop :=
  walk.run before = .ok ⟨value, after, output⟩

theorem Ends.yields {walk : Emitter α} {before after : Context} {value : α} {output : Output}
    (ends : walk.Ends before value after output) (finishes : walk.Finishes before) :
    walk.Yields before value after output := by
  obtain ⟨emitted, ran⟩ := finishes
  obtain rfl := ends emitted ran
  exact ran

theorem Yields.finishes {walk : Emitter α} {before after : Context} {value : α} {output : Output}
    (yields : walk.Yields before value after output) : walk.Finishes before :=
  ⟨_, yields⟩

theorem Yields.andThen {first : Emitter α} {second : α → Emitter β} {before between after : Context}
    {value : α} {result : β} {output more : Output}
    (yields : first.Yields before value between output)
    (next : (second value).Yields between result after more) :
    (first >>= second).Yields before result after (output ++ more) := by
  unfold Yields at yields next ⊢
  rw [run_bind, yields]
  simp only [next]

/-- A walk finishes if its first part does, and the others do from where the first
part ends. -/
theorem Yields.bind {first : Emitter α} {second : α → Emitter β} {before between : Context}
    {value : α} {output : Output} (yields : first.Yields before value between output)
    (next : (second value).Finishes between) : (first >>= second).Finishes before := by
  obtain ⟨last, ran⟩ := next
  exact (yields.andThen ran).finishes

/-! ## Single steps -/

section Steps

variable (before : Context)

theorem finishes_pure (value : α) : (pure value : Emitter α).Finishes before := ⟨_, rfl⟩

theorem finishes_emit (instruction : Instruction) : (emit instruction).Finishes before := ⟨_, rfl⟩

theorem yields_emit (instruction : Instruction) :
    (emit instruction).Yields before () before (.ofCode [instruction]) := rfl

theorem yields_note (event : Event) : (note event).Yields before () before (.ofEvent event) := rfl

theorem yields_context : context.Yields before before before .empty := rfl

theorem yields_cursor : cursor.Yields before (.general before.cursor) before .empty := rfl

theorem yields_setCursor (index : Nat) :
    (setCursor index).Yields before () { before with cursor := index } .empty := rfl

theorem yields_setPending (pending : Nat) :
    (setPending pending).Yields before () { before with pendingArguments := pending } .empty := rfl

variable {before}

theorem yields_countUp {counter : Context → Nat} {update : Context → Nat → Context}
    (room : counter before + 1 ≤ maxCount) :
    (change fun context => do return update context (← countUp (counter context) 1)).Yields
      before ()
      (update before (counter before + 1)) .empty := by
  have counted : countUp (counter before) 1 = .ok (counter before + 1) := if_pos room
  simp [Yields, change, counted, bind, Except.bind, pure, Except.pure]

theorem yields_countDown {counter : Context → Nat} {update : Context → Nat → Context}
    {amount : Nat} (enough : amount ≤ counter before) :
    (change fun context => do return update context (← countDown (counter context) amount)).Yields
      before () (update before (counter before - amount)) .empty := by
  have counted : countDown (counter before) amount = .ok (counter before - amount) := if_pos enough
  simp [Yields, change, counted, bind, Except.bind, pure, Except.pure]

theorem yields_advanceCursor (room : before.cursor + 1 ≤ maxCount) :
    advanceCursor.Yields before (.general (before.cursor + 1))
      { before with cursor := before.cursor + 1 } .empty :=
  (ends_advanceCursor before).yields (Yields.bind (yields_countUp room) ⟨_, rfl⟩)

theorem yields_retreatCursor (enough : 1 ≤ before.cursor) :
    retreatCursor.Yields before () { before with cursor := before.cursor - 1 } .empty :=
  yields_countDown enough

theorem yields_freshLabel (room : before.nextLabel + 1 ≤ maxCount) :
    freshLabel.Yields before before.nextLabel
      { before with nextLabel := before.nextLabel + 1 } .empty :=
  (ends_freshLabel before).yields
    ((yields_context before).bind (Yields.bind (yields_countUp room) ⟨_, rfl⟩))

theorem yields_annotate (text : String) :
    (annotate text).Yields before () before (Plan.remark before.annotate text) := by
  refine (ends_annotate text before).yields ((yields_context before).bind ?_)
  split
  · exact finishes_emit _ _
  · exact finishes_pure _ _

theorem yields_push (register : Register) (room : before.pushed + 1 ≤ maxCount) :
    (push register).Yields before () { before with pushed := before.pushed + 1 }
      (.ofCode (pushCode [register])) :=
  (ends_push register before).yields ((yields_emit _ _).bind ((yields_emit _ _).bind
    (yields_countUp room).finishes))

theorem yields_pop (register : Register) (enough : 1 ≤ before.pushed) :
    (pop register).Yields before () { before with pushed := before.pushed - 1 }
      (.ofCode (popCode [register])) :=
  (ends_pop register before).yields ((yields_emit _ _).bind ((yields_emit _ _).bind
    (yields_countDown enough).finishes))

theorem yields_drop (words : Nat) (enough : words ≤ before.pushed) :
    (drop words).Yields before () { before with pushed := before.pushed - words }
      (.ofCode (dropCode words)) := by
  refine (ends_drop words before).yields ?_
  unfold drop
  split
  · exact (yields_emit _ _).bind (yields_countDown enough).finishes
  · exact finishes_pure _ _

theorem yields_pushAll (registers : List Register)
    (room : before.pushed + registers.length ≤ maxCount) :
    (registers.forM push).Yields before ()
      { before with pushed := before.pushed + registers.length }
      (.ofCode (pushCode registers)) := by
  refine (ends_pushAll registers before).yields ?_
  induction registers generalizing before with
  | nil => exact finishes_pure _ _
  | cons register rest ih =>
      rw [List.length_cons] at room
      refine (yields_push register (by omega)).bind (ih ?_)
      show before.pushed + 1 + rest.length ≤ maxCount
      omega

theorem yields_popAll (registers : List Register) (enough : registers.length ≤ before.pushed) :
    (registers.forM pop).Yields before ()
      { before with pushed := before.pushed - registers.length } (.ofCode (popCode registers)) := by
  refine (ends_popAll registers before).yields ?_
  induction registers generalizing before with
  | nil => exact finishes_pure _ _
  | cons register rest ih =>
      rw [List.length_cons] at enough
      refine (yields_pop register (by omega)).bind (ih ?_)
      show rest.length ≤ before.pushed - 1
      omega

theorem finishes_addressOf (name : String) (target : Register) :
    (addressOf name target).Finishes before := by
  refine (yields_context before).bind ?_
  have frame : ∀ shift, (frameAddress name shift target).Yields before () before _ := fun shift =>
    (ends_frameAddress name shift target before).yields ⟨_, rfl⟩
  cases before.resolve name with
  | frameLocal shift size => exact (frame shift).bind (finishes_pure _ _)
  | parameter shift => exact (frame shift).bind (finishes_pure _ _)
  | global name size =>
      exact (yields_note _ _).bind ((yields_emit _ _).bind (finishes_pure _ _))

theorem finishes_reference (name : String) : (reference name).Finishes before := by
  refine (yields_cursor before).bind
    (((ends_addressOf name _ before).yields (finishes_addressOf name _)).bind ?_)
  split
  · exact finishes_pure _ _
  · exact finishes_emit _ _

theorem finishes_referenceAddress (name : String) : (referenceAddress name).Finishes before :=
  (yields_cursor before).bind
    (((ends_addressOf name _ before).yields (finishes_addressOf name _)).bind (finishes_pure _ _))

theorem finishes_reserveAll (declared : List Declaration) :
    (declared.forM reserveGlobal).Finishes before := by
  induction declared with
  | nil => exact finishes_pure _ _
  | cons entry rest ih => exact ((ends_reserveGlobal entry before).yields ⟨_, rfl⟩).bind ih

theorem yields_noteExtra (name : String) (count : Nat) :
    (noteExtra name count).Yields before () before (Plan.extra name count) := by
  refine (performs_noteExtra name count before).yields ?_
  unfold noteExtra
  split
  · exact ⟨_, rfl⟩
  · exact finishes_pure _ _

end Steps

end Emitter

/-! ## Room for a tree -/

/-- The counters have room for a number of nodes, with some registers in use. These
are below the cursor, and they are pushed while a statement runs. A register more is
taken for the right operand only, so it stands for two nodes, the operation and its
left operand. -/
structure Context.HasRoom (context : Context) (registers size : Nat) : Prop where
  scratch : 2 * (Register.scratchBase + registers) + size ≤ 2 * maxCount + 1
  stack : context.pushed + registers + size ≤ maxCount
  labels : context.nextLabel + size ≤ maxCount

theorem Context.HasRoom.mono {context : Context} {registers size size' : Nat}
    (room : context.HasRoom registers size) (fewer : size' ≤ size) :
    context.HasRoom registers size' :=
  ⟨Nat.le_trans (Nat.add_le_add_left fewer _) room.scratch,
    Nat.le_trans (Nat.add_le_add_left fewer _) room.stack,
    Nat.le_trans (Nat.add_le_add_left fewer _) room.labels⟩

namespace Emitter

section

variable (annotated : Bool) (names : String → Address)

/-- A walk for a value or an address follows a plan, and it finishes if there is
room for its nodes above the cursor. -/
structure EvaluatesWithin (walk : Emitter Unit) (planned : Nat → Nat → Nat → Output)
    (choices size : Nat) : Prop where
  evaluates : walk.Evaluates annotated names planned choices
  few : choices ≤ size
  finishes : ∀ before : Context, before.Sees annotated names →
    before.HasRoom (before.cursor - Register.scratchBase) size → walk.Finishes before

/-- A walk for an effect follows a plan, and it finishes if there is room for its
nodes. -/
structure PerformsWithin (walk : Emitter Unit) (planned : Nat → Nat → Output)
    (choices size : Nat) : Prop where
  performs : walk.Performs annotated names planned choices
  few : choices ≤ size
  finishes : ∀ before : Context, before.Sees annotated names → before.HasRoom 0 size →
    walk.Finishes before

end

variable {annotated : Bool} {names : String → Address}

theorem EvaluatesWithin.yields {walk : Emitter Unit} {planned : Nat → Nat → Nat → Output}
    {choices size : Nat} {before : Context}
    (within : walk.EvaluatesWithin annotated names planned choices size)
    (sees : before.Sees annotated names)
    (room : before.HasRoom (before.cursor - Register.scratchBase) size) :
    walk.Yields before () { before with nextLabel := before.nextLabel + choices }
      (planned before.cursor before.pushed before.nextLabel) :=
  (within.evaluates before sees).yields (within.finishes before sees room)

theorem PerformsWithin.yields {walk : Emitter Unit} {planned : Nat → Nat → Output}
    {choices size : Nat} {before : Context}
    (within : walk.PerformsWithin annotated names planned choices size)
    (sees : before.Sees annotated names) (room : before.HasRoom 0 size) :
    ∃ cursor, walk.Yields before ()
      { before with cursor := cursor, nextLabel := before.nextLabel + choices }
      (planned before.pushed before.nextLabel) := by
  obtain ⟨cursor, performs⟩ := within.performs before sees
  exact ⟨cursor, performs.yields (within.finishes before sees room)⟩

/-! ## Values -/

section Values

variable {walk left right : Emitter Unit} {planned planned' : Nat → Nat → Nat → Output}
  {effect : Nat → Nat → Output} {choices choices' size size' : Nat} {before : Context}

theorem finishes_binary (op : BinaryOperator)
    (within : left.EvaluatesWithin annotated names planned choices size)
    (within' : right.EvaluatesWithin annotated names planned' choices' size')
    (some : 0 < size) (some' : 0 < size') (sees : before.Sees annotated names)
    (room : before.HasRoom (before.cursor - Register.scratchBase) (1 + size + size')) :
    (binary op left right).Finishes before := by
  obtain ⟨scratch, stack, labels⟩ := room
  have few := within.few
  have first := within.yields sees ⟨by omega, by omega, by omega⟩
  have second := @EvaluatesWithin.yields _ _ _ _ _ _
    { before with nextLabel := before.nextLabel + choices, cursor := before.cursor + 1 } within'
    ⟨sees.annotate, sees.resolve⟩
    ⟨by dsimp only; omega, by dsimp only; omega, by dsimp only; omega⟩
  refine (yields_cursor _).bind (first.bind ((yields_advanceCursor ?_).bind (second.bind
    ((yields_retreatCursor ?_).bind (finishes_emit _ _)))))
  · dsimp only
    omega
  · exact Nat.le_add_left 1 before.cursor

theorem finishes_unary (op : UnaryOperator)
    (within : walk.EvaluatesWithin annotated names planned choices size)
    (sees : before.Sees annotated names)
    (room : before.HasRoom (before.cursor - Register.scratchBase) (1 + size)) :
    (unary op walk).Finishes before := by
  obtain ⟨scratch, stack, labels⟩ := room
  refine (yields_cursor _).bind ((within.yields sees ⟨by omega, by omega, by omega⟩).bind ?_)
  cases op <;> exact ⟨_, rfl⟩

theorem finishes_effectAsValue
    (within : walk.PerformsWithin annotated names effect choices size)
    (sees : before.Sees annotated names)
    (room : before.HasRoom (before.cursor - Register.scratchBase) size) :
    (effectAsValue walk).Finishes before := by
  obtain ⟨scratch, stack, labels⟩ := room
  have count : (scratchBelow before.cursor).length = before.cursor - Register.scratchBase := by
    simp [scratchBelow]
  obtain ⟨cursor, inner⟩ := @PerformsWithin.yields _ _ _ _ _ _
    { before with pushed := before.pushed + (scratchBelow before.cursor).length } within
    ⟨sees.annotate, sees.resolve⟩ ⟨by omega, by dsimp only; omega, labels⟩
  refine (yields_context _).bind ((yields_note _ _).bind ((yields_pushAll _ (by omega)).bind
    (inner.bind ((yields_popAll _ ?_).bind ⟨_, rfl⟩))))
  rw [List.length_reverse]
  exact Nat.le_add_left _ _

end Values

/-! ## Statements -/

section Statements

variable {target value condition consequent alternative body : Emitter Unit}
  {planned planned' : Nat → Nat → Nat → Output} {effect effect' : Nat → Nat → Output}
  {choices choices' choices'' size size' size'' : Nat} {before : Context}

/-- A value that is evaluated into the first scratch register. -/
theorem EvaluatesWithin.yields_first
    (within : value.EvaluatesWithin annotated names planned choices size)
    (sees : before.Sees annotated names) (room : before.HasRoom 0 size) :
    value.Yields { before with cursor := Register.scratchBase } ()
      { before with
        cursor := Register.scratchBase
        nextLabel := before.nextLabel + choices }
      (planned Register.scratchBase before.pushed before.nextLabel) :=
  @EvaluatesWithin.yields _ _ _ _ _ _ { before with cursor := Register.scratchBase } within
    ⟨sees.annotate, sees.resolve⟩ ⟨room.scratch, room.stack, room.labels⟩

theorem finishes_assign (within : target.EvaluatesWithin annotated names planned choices size)
    (within' : value.EvaluatesWithin annotated names planned' choices' size') (some : 0 < size)
    (sees : before.Sees annotated names) (room : before.HasRoom 0 (1 + size + size')) :
    (assign target value).Finishes before := by
  obtain ⟨scratch, stack, labels⟩ := room
  have few := within.few
  have first := within.yields_first sees ⟨by omega, by omega, by omega⟩
  have second := @EvaluatesWithin.yields _ _ _ _ _ _
    { before with
      nextLabel := before.nextLabel + choices
      cursor := Register.scratchBase + 1 } within' ⟨sees.annotate, sees.resolve⟩
    ⟨by dsimp only; omega, by dsimp only; omega, by dsimp only; omega⟩
  have base : Register.scratchBase + 1 ≤ maxCount := by decide
  exact (yields_setCursor _ _).bind ((yields_cursor _).bind (first.bind
    ((yields_advanceCursor base).bind (second.bind ((yields_retreatCursor
      (Nat.le_add_left _ _)).bind (finishes_emit _ _))))))

theorem finishes_branch (within : condition.EvaluatesWithin annotated names planned choices size)
    (within' : consequent.PerformsWithin annotated names effect choices' size')
    (sees : before.Sees annotated names) (room : before.HasRoom 0 (1 + size + size')) :
    (branch condition consequent none).Finishes before := by
  obtain ⟨scratch, stack, labels⟩ := room
  have few := within.few
  have tested := within.yields_first sees ⟨by omega, by omega, by omega⟩
  obtain ⟨cursor, taken⟩ := @PerformsWithin.yields _ _ _ _ _ _
    { before with
      cursor := Register.scratchBase
      nextLabel := before.nextLabel + choices + 1 } within' ⟨sees.annotate, sees.resolve⟩
    ⟨by omega, by dsimp only; omega, by dsimp only; omega⟩
  refine (yields_setCursor _ _).bind (tested.bind ((yields_cursor _).bind
    ((yields_freshLabel ?_).bind ((yields_note _ _).bind ((yields_emit _ _).bind
      (taken.bind ⟨_, rfl⟩))))))
  dsimp only
  omega

theorem finishes_branchElse
    (within : condition.EvaluatesWithin annotated names planned choices size)
    (within' : consequent.PerformsWithin annotated names effect choices' size')
    (within'' : alternative.PerformsWithin annotated names effect' choices'' size'')
    (sees : before.Sees annotated names) (room : before.HasRoom 0 (1 + size + size' + size'')) :
    (branch condition consequent (some alternative)).Finishes before := by
  obtain ⟨scratch, stack, labels⟩ := room
  have few := within.few
  have few' := within'.few
  have tested := within.yields_first sees ⟨by omega, by omega, by omega⟩
  obtain ⟨cursor, taken⟩ := @PerformsWithin.yields _ _ _ _ _ _
    { before with
      cursor := Register.scratchBase
      nextLabel := before.nextLabel + choices + 1 } within' ⟨sees.annotate, sees.resolve⟩
    ⟨by omega, by dsimp only; omega, by dsimp only; omega⟩
  obtain ⟨cursor', skipped⟩ := @PerformsWithin.yields _ _ _ _ _ _
    { before with
      cursor := cursor
      nextLabel := before.nextLabel + choices + 1 + choices' } within''
    ⟨sees.annotate, sees.resolve⟩ ⟨by omega, by dsimp only; omega, by dsimp only; omega⟩
  refine (yields_setCursor _ _).bind (tested.bind ((yields_cursor _).bind
    ((yields_freshLabel ?_).bind ((yields_note _ _).bind ((yields_emit _ _).bind
      (taken.bind ((yields_emit _ _).bind ((yields_emit _ _).bind (skipped.bind
        (finishes_emit _ _))))))))))
  dsimp only
  omega

theorem finishes_loop (within : condition.EvaluatesWithin annotated names planned choices size)
    (within' : body.PerformsWithin annotated names effect choices' size')
    (sees : before.Sees annotated names) (room : before.HasRoom 0 (1 + size + size')) :
    (loop condition body).Finishes before := by
  obtain ⟨scratch, stack, labels⟩ := room
  have few := within.few
  have tested := @EvaluatesWithin.yields_first _ _ _ _ _ _
    { before with nextLabel := before.nextLabel + 1 } within ⟨sees.annotate, sees.resolve⟩
    ⟨by omega, by dsimp only; omega, by dsimp only; omega⟩
  obtain ⟨cursor, taken⟩ := @PerformsWithin.yields _ _ _ _ _ _
    { before with
      cursor := Register.scratchBase
      nextLabel := before.nextLabel + 1 + choices } within' ⟨sees.annotate, sees.resolve⟩
    ⟨by omega, by dsimp only; omega, by dsimp only; omega⟩
  exact (yields_freshLabel (by omega)).bind ((yields_note _ _).bind ((yields_emit _ _).bind
    ((yields_setCursor _ _).bind (tested.bind ((yields_cursor _).bind ((yields_emit _ _).bind
      (taken.bind ⟨_, rfl⟩)))))))

theorem finishes_read (within : target.EvaluatesWithin annotated names planned choices size)
    (sees : before.Sees annotated names) (room : before.HasRoom 0 size) :
    (read target).Finishes before := by
  have base : Register.scratchBase + 1 ≤ maxCount := by decide
  exact (yields_setCursor _ _).bind ((yields_cursor _).bind ((yields_note _ _).bind
    ((within.yields_first sees room).bind ((yields_advanceCursor base).bind ((yields_emit _ _).bind
      ((yields_emit _ _).bind (yields_retreatCursor (Nat.le_add_left _ _)).finishes))))))

theorem finishes_write (within : value.EvaluatesWithin annotated names planned choices size)
    (sees : before.Sees annotated names) (room : before.HasRoom 0 size) :
    (write value).Finishes before :=
  (yields_setCursor _ _).bind ((yields_cursor _).bind ((yields_note _ _).bind
    ((within.yields_first sees room).bind (finishes_emit _ _))))

end Statements

theorem yields_pushArgument {value : Emitter Unit} {planned : Plan} {size : Nat} {before : Context}
    (within : value.EvaluatesWithin annotated names planned.value planned.choices size)
    (sees : before.Sees annotated names) (room : before.HasRoom 0 size) (some : 0 < size)
    (fewer : before.pendingArguments ≤ before.pushed) :
    (pushArgument value).Yields before ()
      { before with
        cursor := Register.scratchBase
        nextLabel := before.nextLabel + planned.choices
        pushed := before.pushed + 1
        pendingArguments := before.pendingArguments + 1 }
      (planned.value Register.scratchBase before.pushed before.nextLabel ++
        .ofCode (pushCode [.general Register.scratchBase])) := by
  have stack := room.stack
  refine (ends_pushArgument within.evaluates before sees).yields ((yields_setCursor _ _).bind
    ((within.yields_first sees room).bind ((yields_cursor _).bind ((yields_push _ ?_).bind
      (Yields.finishes (yields_countUp ?_))))))
  · dsimp only
    omega
  · dsimp only
    omega

end Emitter

/-! ## Nodes -/

section

variable (annotated : Bool) (names : String → Address)

/-- Each way to lower a node follows a plan, and it finishes if there is room for
a number of nodes. -/
structure Lowered.Within (lowered : Lowered) (plan : Plan) (size : Nat) : Prop where
  value : lowered.value.EvaluatesWithin annotated names plan.value plan.choices size
  address : lowered.address.EvaluatesWithin annotated names plan.address plan.choices size
  effect : lowered.effect.PerformsWithin annotated names plan.effect plan.choices size

end

variable {annotated : Bool} {names : String → Address}

open Emitter

section Lowered

variable {walk place : Emitter Unit} {choices size : Nat}

theorem Lowered.within_ofValue {planned : Nat → Nat → Nat → Output}
    (within : walk.EvaluatesWithin annotated names planned choices size) :
    (Lowered.ofValue walk).Within annotated names (.ofValue planned choices) size := by
  refine ⟨within, ⟨evaluates_valueAsAddress within.evaluates, within.few, ?_⟩,
    ⟨performs_valueAsEffect within.evaluates, within.few, ?_⟩⟩
  · intro before sees room
    exact (yields_note _ _).bind (within.finishes before sees room)
  · intro before sees room
    exact (yields_setCursor _ _).bind (within.yields_first sees room).finishes

theorem Lowered.within_ofPlace {planned planned' : Nat → Nat → Nat → Output}
    (within : walk.EvaluatesWithin annotated names planned choices size)
    (within' : place.EvaluatesWithin annotated names planned' choices size) :
    (Lowered.ofPlace walk place).Within annotated names (.ofPlace planned planned' choices) size :=
  ⟨within, within', (Lowered.within_ofValue within).effect⟩

theorem Lowered.within_ofEffect {planned : Nat → Nat → Output}
    (within : walk.PerformsWithin annotated names planned choices size) :
    (Lowered.ofEffect walk).Within annotated names (.ofEffect planned choices) size := by
  have parked : (effectAsValue walk).EvaluatesWithin annotated names (Plan.parked planned) choices
      size :=
    ⟨evaluates_effectAsValue within.performs, within.few,
      fun before sees room => finishes_effectAsValue within sees room⟩
  exact ⟨parked, (Lowered.within_ofValue parked).address, within⟩

end Lowered

namespace Node

/-- The walks over a node finish within the number of its nodes. -/
abbrev Within (annotated : Bool) (names : String → Address) (node : Node) : Prop :=
  node.lower.Within annotated names (node.plan annotated names) node.size

theorem finishes_sequence {nodes : List Node}
    (within : ∀ node ∈ nodes, node.Within annotated names) {before : Context}
    (sees : before.Sees annotated names) (room : before.HasRoom 0 (sizeAll nodes)) :
    ((lowerAll nodes).forM Lowered.effect).Finishes before := by
  induction nodes generalizing before with
  | nil => exact finishes_pure _ _
  | cons node rest ih =>
      obtain ⟨scratch, stack, labels⟩ := room
      rw [sizeAll] at scratch stack labels
      have first := (within node List.mem_cons_self).effect
      have few := first.few
      obtain ⟨cursor, yields⟩ := first.yields sees ⟨by omega, by omega, by omega⟩
      refine yields.bind (ih (fun other member => within other (.tail _ member))
        ⟨sees.annotate, sees.resolve⟩ ⟨by omega, ?_, ?_⟩)
      · dsimp only
        omega
      · dsimp only
        omega

theorem finishes_pushArguments {nodes : List Node}
    (within : ∀ node ∈ nodes, node.Within annotated names) {before : Context}
    (sees : before.Sees annotated names) (room : before.HasRoom 0 (sizeAll nodes))
    (fewer : before.pendingArguments ≤ before.pushed) :
    ((nodes.map fun node => node.lower.value).forM pushArgument).Finishes before := by
  induction nodes generalizing before with
  | nil => exact finishes_pure _ _
  | cons node rest ih =>
      obtain ⟨scratch, stack, labels⟩ := room
      rw [sizeAll] at scratch stack labels
      have first := (within node List.mem_cons_self).value
      have few := first.few
      have some := node.size_pos
      refine (yields_pushArgument first sees ⟨by omega, by omega, by omega⟩ some fewer).bind
        (ih (fun other member => within other (.tail _ member)) ⟨sees.annotate, sees.resolve⟩
          ⟨by omega, ?_, ?_⟩ (Nat.succ_le_succ fewer))
      · dsimp only
        omega
      · dsimp only
        omega

theorem sizeAll_append (first second : List Node) :
    sizeAll (first ++ second) = sizeAll first + sizeAll second := by
  induction first with
  | nil => simp [sizeAll]
  | cons node rest ih => simp [sizeAll, ih, Nat.add_assoc]

theorem sizeAll_reverse (nodes : List Node) : sizeAll nodes.reverse = sizeAll nodes := by
  induction nodes with
  | nil => rfl
  | cons node rest ih => simp [sizeAll, sizeAll_append, ih, Nat.add_comm]

theorem finishes_callProcedure (name : String) {nodes : List Node}
    (within : ∀ node ∈ nodes, node.Within annotated names) {before : Context}
    (sees : before.Sees annotated names) (room : before.HasRoom 0 (1 + sizeAll nodes)) :
    (callProcedure name ((lowerAll nodes).map Lowered.value)).Finishes before := by
  obtain ⟨scratch, stack, labels⟩ := room
  have values : ((lowerAll nodes).map Lowered.value).reverse =
      nodes.reverse.map fun node => node.lower.value := by
    simp [lowerAll_eq_map, Function.comp_def]
  have pushes := @finishes_pushArguments annotated names nodes.reverse
    (fun node member => within node (List.mem_reverse.mp member))
    { before with pushed := before.pushed + 1, pendingArguments := 0 }
    ⟨sees.annotate, sees.resolve⟩
    ⟨by rw [sizeAll_reverse]; omega, by rw [sizeAll_reverse]; dsimp only; omega,
      by rw [sizeAll_reverse]; dsimp only; omega⟩
    (Nat.zero_le _)
  obtain ⟨cursor, ends⟩ := ends_pushArguments
    (nodes.reverse.map fun node => (node.lower.value, node.plan annotated names)) (by
      intro entry member
      obtain ⟨node, listed, rfl⟩ := List.mem_map.mp member
      exact (lower_follows node).value)
    { before with pushed := before.pushed + 1, pendingArguments := 0 }
    ⟨sees.annotate, sees.resolve⟩
  rw [List.map_map] at ends
  have pushed := ends.yields pushes
  refine (yields_note _ _).bind ((yields_annotate _).bind ((yields_push .link (by omega)).bind
    ((yields_context _).bind ((yields_setPending _ 0).bind ?_))))
  rw [values]
  refine pushed.bind ((yields_emit _ _).bind ((yields_context _).bind ((yields_drop _ ?_).bind
    ((yields_pop _ ?_).bind ⟨_, rfl⟩))))
  · dsimp only
    omega
  · dsimp only
    omega

theorem finishes_call (name : String) {arguments : List Node}
    (within : ∀ node ∈ arguments, node.Within annotated names) {before : Context}
    (sees : before.Sees annotated names) (room : before.HasRoom 0 (1 + sizeAll arguments)) :
    (Emitter.call name (lowerAll arguments)).Finishes before := by
  have general := finishes_callProcedure name within sees room
  unfold Emitter.call
  cases arguments with
  | nil => rcases Intrinsic.ofName? name with _ | _ | _ <;> exact general
  | cons first rest =>
      have argument := within first List.mem_cons_self
      have room' : before.HasRoom 0 first.size := by
        obtain ⟨scratch, stack, labels⟩ := room
        rw [sizeAll] at scratch stack labels
        exact ⟨by omega, by omega, by omega⟩
      cases Intrinsic.ofName? name with
      | none => exact general
      | some intrinsic =>
          cases intrinsic with
          | read => exact (yields_noteExtra _ _).bind (finishes_read argument.address sees room')
          | write => exact (yields_noteExtra _ _).bind (finishes_write argument.value sees room')

/-- **A walk over a node finishes if its counters have room for the nodes.** -/
theorem lower_within (node : Node) : node.Within annotated names := by
  have follows : ∀ node : Node, node.lower.Follows annotated names (node.plan annotated names) :=
    lower_follows
  have few := choices_plan_le annotated names
  induction node with
  | program items ih =>
      refine Lowered.within_ofEffect ⟨(follows (.program items)).effect, few (.program items),
        fun before sees room => finishes_sequence ih sees (room.mono ?_)⟩
      exact Nat.le_add_left _ _
  | procedure heading locals body _ =>
      exact Lowered.within_ofEffect ⟨performs_note _, Nat.zero_le _, fun _ _ _ => ⟨_, rfl⟩⟩
  | header heading =>
      exact Lowered.within_ofEffect ⟨performs_pure, Nat.zero_le _, fun _ _ _ => ⟨_, rfl⟩⟩
  | declarations declared =>
      exact Lowered.within_ofEffect ⟨performs_reserveAll declared, Nat.zero_le _,
        fun _ _ _ => finishes_reserveAll declared⟩
  | declaration declared =>
      exact Lowered.within_ofEffect ⟨(follows (.declaration declared)).effect, Nat.zero_le _,
        fun _ _ _ => ⟨_, rfl⟩⟩
  | block statements ih =>
      refine Lowered.within_ofEffect ⟨(follows (.block statements)).effect, few (.block statements),
        fun before sees room => finishes_sequence ih sees (room.mono ?_)⟩
      exact Nat.le_add_left _ _
  | call name arguments ih =>
      exact Lowered.within_ofEffect ⟨(follows (.call name arguments)).effect,
        few (.call name arguments), fun before sees room => finishes_call name ih sees room⟩
  | assign target value ihTarget ihValue =>
      exact Lowered.within_ofEffect ⟨(follows (.assign target value)).effect,
        few (.assign target value),
        fun before sees room =>
          finishes_assign ihTarget.address ihValue.value target.size_pos sees room⟩
  | branch condition consequent ihCondition ihConsequent =>
      exact Lowered.within_ofEffect ⟨(follows (.branch condition consequent none)).effect,
        few (.branch condition consequent none),
        fun before sees room => finishes_branch ihCondition.value ihConsequent.effect sees room⟩
  | branchElse condition consequent alternative ihCondition ihConsequent ihAlternative =>
      exact Lowered.within_ofEffect
        ⟨(follows (.branch condition consequent (some alternative))).effect,
          few (.branch condition consequent (some alternative)), fun before sees room =>
            finishes_branchElse ihCondition.value ihConsequent.effect ihAlternative.effect sees
              room⟩
  | loop condition body ihCondition ihBody =>
      exact Lowered.within_ofEffect ⟨(follows (.loop condition body)).effect,
        few (.loop condition body),
        fun before sees room => finishes_loop ihCondition.value ihBody.effect sees room⟩
  | binary op left right ihLeft ihRight =>
      exact Lowered.within_ofValue ⟨(follows (.binary op left right)).value,
        few (.binary op left right),
        fun before sees room =>
          finishes_binary op ihLeft.value ihRight.value left.size_pos right.size_pos sees room⟩
  | unary op operand ih =>
      have operation : (Emitter.unary op operand.lower.value).EvaluatesWithin annotated names
          (Plan.unary op (operand.plan annotated names)) (operand.plan annotated names).choices
          (1 + operand.size) :=
        ⟨evaluates_unary op ih.value.evaluates, Nat.le_trans ih.value.few (Nat.le_add_left _ _),
          fun before sees room => finishes_unary op ih.value sees room⟩
      cases op with
      | dereference =>
          refine Lowered.within_ofPlace operation ⟨ih.value.evaluates, operation.few,
            fun before sees room => ih.value.finishes before sees (room.mono ?_)⟩
          exact Nat.le_add_left _ _
      | plus => exact Lowered.within_ofValue operation
      | minus => exact Lowered.within_ofValue operation
      | not => exact Lowered.within_ofValue operation
  | constant value =>
      exact Lowered.within_ofValue ⟨evaluates_constant value, Nat.zero_le _, fun _ _ _ => ⟨_, rfl⟩⟩
  | reference name =>
      exact Lowered.within_ofPlace
        ⟨evaluates_reference name, Nat.zero_le _, fun _ _ _ => finishes_reference name⟩
        ⟨evaluates_referenceAddress name, Nat.zero_le _,
          fun _ _ _ => finishes_referenceAddress name⟩

/-- A node is lowered for its effect from any context with room for it. -/
theorem yields_effect (node : Node) (before : Context) (room : before.HasRoom 0 node.size) :
    ∃ cursor, node.lower.effect.Yields before ()
      { before with
        cursor := cursor
        nextLabel := before.nextLabel + (node.plan before.annotate before.resolve).choices }
      ((node.plan before.annotate before.resolve).effect before.pushed before.nextLabel) :=
  (lower_within node).effect.yields ⟨rfl, rfl⟩ room

end Node

/-! ## Programs -/

namespace Emitter

/-- A walk over items finishes, and takes no more labels than there are nodes. -/
def Passes (walk : Emitter Unit) (size : Nat) : Prop :=
  ∀ before : Context, before.nextLabel + size ≤ maxCount → size + 6 ≤ maxCount →
    ∃ after output, walk.Yields before () after output ∧ after.nextLabel ≤ before.nextLabel + size

theorem yields_noteReach (name : String) (scope : Scope) (before : Context) :
    (noteReach name scope).Yields before () before (Plan.reach name scope) := by
  refine (ends_noteReach name scope before).yields ?_
  unfold noteReach
  split
  · exact ⟨_, rfl⟩
  · exact finishes_pure _ _

theorem passes_procedure (heading : Header) (locals : List Declaration) (body : Node) :
    (procedure heading locals body.lower.effect).Passes body.size := by
  intro before labels stack
  obtain ⟨cursor, ends⟩ := ends_procedure heading locals body before
  have few := body.choices_plan_le before.annotate
    (Scope.resolve ⟨locals, heading.parameters⟩ before.globals)
  refine ⟨_, _, ends.yields ?_, Nat.add_le_add_left few _⟩
  obtain ⟨cursor, inner⟩ := body.yields_effect
    { before with
      scope := ⟨locals, heading.parameters⟩
      pushed := 0
      pendingArguments := 0
      cursor := Register.scratchBase }
    ⟨by unfold Register.scratchBase; omega, by dsimp only; omega, labels⟩
  have frame : ∀ words context, (makeFrame words).Finishes context := by
    intro words context
    unfold makeFrame
    split
    · exact finishes_emit _ _
    · exact finishes_pure _ _
  have leave : ∀ words context, (leaveFrame words).Finishes context := by
    intro words context
    unfold leaveFrame
    split
    · exact ⟨_, rfl⟩
    · exact ⟨_, rfl⟩
  exact (yields_note _ _).bind ((yields_noteReach _ _ _).bind ((yields_emit _ _).bind
    ((yields_annotate _).bind (((ends_enter _ _).yields ⟨_, rfl⟩).bind
      (((ends_makeFrame _ _).yields (frame _ _)).bind (inner.bind (leave _ _)))))))

theorem passes_statement (node : Node) : (enter .empty >>= fun _ => node.lower.effect).Passes
    node.size := by
  intro before labels stack
  have entered := (ends_enter .empty before).yields ⟨_, rfl⟩
  obtain ⟨cursor, inner⟩ := node.yields_effect
    { before with
      scope := .empty
      pushed := 0
      pendingArguments := 0
      cursor := Register.scratchBase }
    ⟨by unfold Register.scratchBase; omega, by dsimp only; omega, labels⟩
  exact ⟨_, _, entered.andThen inner,
    Nat.add_le_add_left (node.choices_plan_le before.annotate _) _⟩

theorem passes_itemAll {items : List Node} (passes : ∀ node ∈ items, (item node).Passes node.size) :
    (itemAll items).Passes (Node.sizeAll items) := by
  induction items with
  | nil => exact fun before _ _ => ⟨before, _, rfl, Nat.le_refl _⟩
  | cons node rest ih =>
      intro before labels stack
      rw [Node.sizeAll] at labels stack
      obtain ⟨middle, output, yields, few⟩ := passes node List.mem_cons_self before (by omega)
        (by omega)
      obtain ⟨after, output', yields', few'⟩ :=
        ih (fun other member => passes other (.tail _ member)) middle (by omega) (by omega)
      exact ⟨after, output ++ output', yields.andThen yields', by rw [Node.sizeAll]; omega⟩

theorem Passes.mono {walk : Emitter Unit} {size size' : Nat} (passes : walk.Passes size)
    (fewer : size ≤ size') : walk.Passes size' := by
  intro before labels stack
  obtain ⟨after, output, yields, few⟩ := passes before (by omega) (by omega)
  exact ⟨after, output, yields, by omega⟩

/-- Every item is lowered if there are labels for its nodes. -/
theorem passes_item (node : Node) : (item node).Passes node.size := by
  induction node with
  | program items ih => exact (passes_itemAll ih).mono (Nat.le_add_left _ _)
  | procedure heading locals body _ =>
      exact (passes_procedure heading locals body).mono (Nat.le_add_left _ _)
  | header heading => exact passes_statement (.header heading)
  | declarations declared => exact passes_statement (.declarations declared)
  | declaration declared => exact passes_statement (.declaration declared)
  | block statements _ => exact passes_statement (.block statements)
  | call name arguments _ => exact passes_statement (.call name arguments)
  | assign target value _ _ => exact passes_statement (.assign target value)
  | branch condition consequent _ _ => exact passes_statement (.branch condition consequent none)
  | branchElse condition consequent alternative _ _ _ =>
      exact passes_statement (.branch condition consequent (some alternative))
  | loop condition body _ _ => exact passes_statement (.loop condition body)
  | binary op left right _ _ => exact passes_statement (.binary op left right)
  | unary op operand _ => exact passes_statement (.unary op operand)
  | constant value => exact passes_statement (.constant value)
  | reference name => exact passes_statement (.reference name)

theorem finishes_recordGlobals (declared : List Declaration) (before : Context) :
    (declared.forM recordGlobal).Finishes before := by
  induction declared generalizing before with
  | nil => exact finishes_pure _ _
  | cons entry rest ih =>
      have recorded : (recordGlobal entry).Yields before ()
          { before with globals := entry :: before.globals } .empty := rfl
      exact recorded.bind (ih _)

theorem finishes_opening (entry : String) (root : Node) (before : Context) :
    (opening entry root).Finishes before := by
  refine ((ends_recordGlobals _ _).yields (finishes_recordGlobals _ _)).bind ?_
  split
  · exact ⟨_, rfl⟩
  · exact ⟨_, rfl⟩

theorem finishes_program (entry : String) (root : Node) (annotate : Bool)
    (small : root.size + 6 ≤ maxCount) :
    (program entry root).Finishes (Context.initial annotate) := by
  have opened := (ends_opening entry root annotate).yields (finishes_opening entry root _)
  have labels : (Context.initial annotate).nextLabel + root.size ≤ maxCount := by
    show 0 + root.size ≤ maxCount
    omega
  obtain ⟨after, output, yields, -⟩ := passes_item root
    { Context.initial annotate with globals := root.globalDeclarations.reverse } labels small
  rw [program_eq]
  exact opened.bind yields.finishes

end Emitter

/-- **A tree is lowered if its nodes can be counted.** -/
theorem exists_lowerProgram (options : LoweringOptions) {root : Node}
    (small : root.size + 6 ≤ maxCount) : ∃ program, lowerProgram options root = .ok program := by
  obtain ⟨emitted, ran⟩ := Emitter.finishes_program options.entry root options.annotate small
  unfold lowerProgram
  rw [ran]
  exact ⟨_, rfl⟩

end ProcLang
