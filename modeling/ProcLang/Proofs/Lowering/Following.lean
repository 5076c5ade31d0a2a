import ProcLang.Proofs.Lowering.Plan
import ProcLang.Proofs.Syntax.Induction

/-!
# Lowering follows its plan

A walk that finishes ends with a known value, in a known context, with a known
output (`Emitter.Ends`). Such facts compose like the walks do. Lowering a node
that finishes emits what the plan of the node says and leaves the context as it
was, but for the number of the next label and, after an effect, the cursor
(`Node.lower_follows`).
-/

set_option autoImplicit false

namespace ProcLang

namespace Emitter

variable {α β : Type}

/-- If a walk finishes from a context, it ends with a given value, context and
output. -/
def Ends (walk : Emitter α) (before : Context) (value : α) (after : Context) (output : Output) :
    Prop :=
  ∀ emitted, walk.run before = .ok emitted → emitted = ⟨value, after, output⟩

theorem Ends.congr {walk : Emitter α} {before after after' : Context} {value : α}
    {output output' : Output} (ends : walk.Ends before value after output)
    (context : after = after') (emitted : output = output') :
    walk.Ends before value after' output' := by
  subst context emitted
  exact ends

theorem ends_pure (value : α) (context : Context) :
    (pure value : Emitter α).Ends context value context .empty := by
  intro emitted finished
  simpa using finished.symm

theorem Ends.bind {first : Emitter α} {second : α → Emitter β} {before between after : Context}
    {value : α} {result : β} {output more : Output}
    (start : first.Ends before value between output)
    (next : (second value).Ends between result after more) :
    (first >>= second).Ends before result after (output ++ more) := by
  intro emitted finished
  rw [run_bind] at finished
  cases ran : first.run before with
  | error overflow => simp [ran] at finished
  | ok middle =>
      obtain rfl := start middle ran
      simp only [ran] at finished
      cases ran' : (second value).run between with
      | error overflow => simp [ran'] at finished
      | ok last =>
          obtain rfl := next last ran'
          simpa [ran'] using finished.symm

theorem ends_emit (instruction : Instruction) (context : Context) :
    (emit instruction).Ends context () context (.ofCode [instruction]) := by
  intro emitted finished
  simpa [emit, Output.ofCode] using finished.symm

theorem ends_note (event : Event) (context : Context) :
    (note event).Ends context () context (.ofEvent event) := by
  intro emitted finished
  simpa [note, Output.ofEvent] using finished.symm

theorem ends_reserveGlobal (declared : Declaration) (context : Context) :
    (reserveGlobal declared).Ends context () context (Plan.reserve [declared]) := by
  intro emitted finished
  simpa [reserveGlobal, Plan.reserve] using finished.symm

theorem ends_context (before : Context) : context.Ends before before before .empty := by
  intro emitted finished
  simpa [context] using finished.symm

theorem ends_change {f : Context → Except Overflow Context} {before after : Context}
    (changes : ∀ changed, f before = .ok changed → changed = after) :
    (change f).Ends before () after .empty := by
  intro emitted finished
  simp only [change] at finished
  cases changed : f before with
  | error overflow => simp [changed] at finished
  | ok context =>
      obtain rfl := changes context changed
      simpa [changed] using finished.symm

theorem eq_of_countUp {counter amount : Nat} {update : Nat → α} {changed : α}
    (done : (do return update (← countUp counter amount)) = Except.ok changed) :
    changed = update (counter + amount) := by
  unfold countUp at done
  split at done
  · simpa [bind, Except.bind, pure, Except.pure] using done.symm
  · simp [bind, Except.bind] at done

theorem eq_of_countDown {counter amount : Nat} {update : Nat → α} {changed : α}
    (done : (do return update (← countDown counter amount)) = Except.ok changed) :
    changed = update (counter - amount) := by
  unfold countDown at done
  split at done
  · simpa [bind, Except.bind, pure, Except.pure] using done.symm
  · simp [bind, Except.bind] at done

/-! ## Single steps -/

theorem ends_annotate (text : String) (before : Context) :
    (annotate text).Ends before () before (Plan.remark before.annotate text) := by
  refine Ends.congr (.bind (ends_context before) ?_) rfl (Output.empty_append _)
  by_cases wanted : before.annotate
  · simp only [Plan.remark, wanted, if_true]
    exact ends_emit _ before
  · simp only [Plan.remark, wanted]
    exact ends_pure () before

theorem ends_cursor (before : Context) :
    cursor.Ends before (.general before.cursor) before .empty :=
  Ends.congr (.bind (ends_context before) (ends_pure _ before)) rfl rfl

theorem ends_setCursor (index : Nat) (before : Context) :
    (setCursor index).Ends before () { before with cursor := index } .empty :=
  ends_change fun changed done => by simpa using done.symm

theorem ends_advanceCursor (before : Context) :
    advanceCursor.Ends before (.general (before.cursor + 1))
      { before with cursor := before.cursor + 1 } .empty :=
  Ends.congr (.bind (ends_change fun _ done => eq_of_countUp done) (ends_cursor _)) rfl rfl

theorem ends_retreatCursor (before : Context) :
    retreatCursor.Ends before () { before with cursor := before.cursor - 1 } .empty :=
  ends_change fun _ done => eq_of_countDown done

theorem ends_freshLabel (before : Context) :
    freshLabel.Ends before before.nextLabel
      { before with nextLabel := before.nextLabel + 1 } .empty :=
  Ends.congr (.bind (ends_context before)
    (.bind (ends_change fun _ done => eq_of_countUp done) (ends_pure _ _))) rfl rfl

theorem ends_setPending (pending : Nat) (before : Context) :
    (setPending pending).Ends before () { before with pendingArguments := pending } .empty :=
  ends_change fun changed done => by simpa using done.symm

/-! ## The stack -/

theorem ends_push (register : Register) (before : Context) :
    (push register).Ends before () { before with pushed := before.pushed + 1 }
      (.ofCode (pushCode [register])) :=
  Ends.congr (.bind (ends_emit _ before) (.bind (ends_emit _ before)
    (ends_change fun _ done => eq_of_countUp done))) rfl rfl

theorem ends_pop (register : Register) (before : Context) :
    (pop register).Ends before () { before with pushed := before.pushed - 1 }
      (.ofCode (popCode [register])) :=
  Ends.congr (.bind (ends_emit _ before) (.bind (ends_emit _ before)
    (ends_change fun _ done => eq_of_countDown done))) rfl rfl

theorem ends_drop (words : Nat) (before : Context) :
    (drop words).Ends before () { before with pushed := before.pushed - words }
      (.ofCode (dropCode words)) := by
  unfold drop dropCode
  by_cases some : 0 < words
  · simp only [some, if_true]
    exact Ends.congr (.bind (ends_emit _ before)
      (ends_change fun _ done => eq_of_countDown done)) rfl rfl
  · obtain rfl : words = 0 := by omega
    exact ends_pure () before

theorem ends_pushAll (registers : List Register) (before : Context) :
    (registers.forM push).Ends before ()
      { before with pushed := before.pushed + registers.length }
      (.ofCode (pushCode registers)) := by
  induction registers generalizing before with
  | nil => exact ends_pure () before
  | cons register rest ih =>
      refine Ends.congr (.bind (ends_push register before) (ih _)) ?_ rfl
      simp only [List.length_cons, Nat.add_assoc, Nat.add_comm 1]

theorem ends_popAll (registers : List Register) (before : Context) :
    (registers.forM pop).Ends before ()
      { before with pushed := before.pushed - registers.length }
      (.ofCode (popCode registers)) := by
  induction registers generalizing before with
  | nil => exact ends_pure () before
  | cons register rest ih =>
      refine Ends.congr (.bind (ends_pop register before) (ih _)) ?_ rfl
      simp only [List.length_cons, Nat.sub_sub, Nat.add_comm 1]

/-! ## Names -/

theorem ends_frameAddress (name : String) (shift : Nat) (target : Register) (before : Context) :
    (frameAddress name shift target).Ends before () before
      (Plan.frameAddress name shift target before.pushed) :=
  Ends.congr (.bind (ends_context before)
    (.bind (ends_note _ before) (ends_emit _ before))) rfl rfl

theorem ends_addressOf (name : String) (target : Register) (before : Context) :
    (addressOf name target).Ends before (before.resolve name) before
      (Plan.addressOf before.resolve name target before.pushed) := by
  refine Ends.congr (.bind (ends_context before) ?_) rfl (Output.empty_append _)
  unfold Plan.addressOf
  cases before.resolve name with
  | frameLocal shift size =>
      exact Ends.congr (.bind (ends_frameAddress name shift target before) (ends_pure _ before)) rfl
        (Output.append_empty _)
  | parameter shift =>
      exact Ends.congr (.bind (ends_frameAddress name shift target before) (ends_pure _ before)) rfl
        (Output.append_empty _)
  | global name size =>
      exact Ends.congr (.bind (ends_note _ before)
        (.bind (ends_emit _ before) (ends_pure _ before))) rfl rfl

theorem ends_reference (name : String) (before : Context) :
    (reference name).Ends before () before
      (Plan.reference before.resolve name before.cursor before.pushed) := by
  refine Ends.congr (.bind (ends_cursor before) (.bind (ends_addressOf name _ before) ?_)) rfl
    (Output.empty_append _)
  by_cases array : (before.resolve name).isArray
  · simp only [array, if_true]
    exact ends_pure () before
  · simp only [array]
    exact ends_emit _ before

theorem ends_referenceAddress (name : String) (before : Context) :
    (referenceAddress name).Ends before () before
      (Plan.addressOf before.resolve name (.general before.cursor) before.pushed) :=
  Ends.congr (.bind (ends_cursor before)
    (.bind (ends_addressOf name _ before) (ends_pure () before))) rfl (Output.append_empty _)

end Emitter

/-- A context in which names resolve in a given way, and which says whether
remarks are wanted. -/
structure Context.Sees (context : Context) (annotated : Bool) (names : String → Address) :
    Prop where
  annotate : context.annotate = annotated
  resolve : context.resolve = names

namespace Emitter

section

variable (annotated : Bool) (names : String → Address)

/-- A walk for a value or an address emits a planned output, and leaves the
context as it was but for the labels taken. -/
def Evaluates (walk : Emitter Unit) (planned : Nat → Nat → Nat → Output) (choices : Nat) : Prop :=
  ∀ before : Context, before.Sees annotated names →
    walk.Ends before () { before with nextLabel := before.nextLabel + choices }
      (planned before.cursor before.pushed before.nextLabel)

/-- A walk for an effect emits a planned output, and leaves the context as it was
but for the labels taken and the cursor. -/
def Performs (walk : Emitter Unit) (planned : Nat → Nat → Output) (choices : Nat) : Prop :=
  ∀ before : Context, before.Sees annotated names → ∃ cursor,
    walk.Ends before () { before with cursor := cursor, nextLabel := before.nextLabel + choices }
      (planned before.pushed before.nextLabel)

end

variable {annotated : Bool} {names : String → Address}

/-! ## Values -/

theorem evaluates_constant (value : Int32) :
    (constant value).Evaluates annotated names
      (fun cursor _ _ => .ofCode [.loadImmediate (.general cursor) value]) 0 := fun before _ =>
  Ends.congr (.bind (ends_cursor before) (ends_emit _ before)) rfl rfl

theorem evaluates_reference (name : String) :
    (reference name).Evaluates annotated names
      (fun cursor pushed _ => Plan.reference names name cursor pushed) 0 := by
  intro before sees
  rw [← sees.resolve]
  exact ends_reference name before

theorem evaluates_referenceAddress (name : String) :
    (referenceAddress name).Evaluates annotated names
      (fun cursor pushed _ => Plan.addressOf names name (.general cursor) pushed) 0 := by
  intro before sees
  rw [← sees.resolve]
  exact ends_referenceAddress name before

theorem evaluates_binary {left right : Emitter Unit} {planLeft planRight : Plan}
    (op : BinaryOperator)
    (ihLeft : left.Evaluates annotated names planLeft.value planLeft.choices)
    (ihRight : right.Evaluates annotated names planRight.value planRight.choices) :
    (binary op left right).Evaluates annotated names (Plan.binary op planLeft planRight)
      (planLeft.choices + planRight.choices) := by
  intro before sees
  refine Ends.congr (.bind (ends_cursor before) (.bind (ihLeft before sees)
    (.bind (ends_advanceCursor _) (.bind (ihRight _ ⟨sees.annotate, sees.resolve⟩)
      (.bind (ends_retreatCursor _) (ends_emit _ _)))))) ?_ ?_
  · simp only [Nat.add_sub_cancel, Nat.add_assoc]
  · simp only [Plan.binary, Output.empty_append, Output.append_assoc]

theorem evaluates_unary {operand : Emitter Unit} {planned : Plan} (op : UnaryOperator)
    (ih : operand.Evaluates annotated names planned.value planned.choices) :
    (unary op operand).Evaluates annotated names (Plan.unary op planned) planned.choices := by
  intro before sees
  refine Ends.congr (.bind (ends_cursor before) (.bind (ih before sees) ?_)) rfl
    (Output.empty_append _)
  cases op with
  | plus => exact ends_pure () _
  | minus => exact ends_emit _ _
  | not => exact ends_emit _ _
  | dereference => exact ends_emit _ _

theorem evaluates_valueAsAddress {walk : Emitter Unit} {planned : Nat → Nat → Nat → Output}
    {choices : Nat} (ih : walk.Evaluates annotated names planned choices) :
    (valueAsAddress walk).Evaluates annotated names
      (fun cursor pushed label => .ofEvent .addressOfValue ++ planned cursor pushed label)
      choices := fun before sees =>
  Ends.congr (.bind (ends_note _ before) (ih before sees)) rfl rfl

theorem performs_valueAsEffect {walk : Emitter Unit} {planned : Nat → Nat → Nat → Output}
    {choices : Nat} (ih : walk.Evaluates annotated names planned choices) :
    (valueAsEffect walk).Performs annotated names (planned Register.scratchBase) choices :=
  fun before sees => ⟨Register.scratchBase,
    Ends.congr (.bind (ends_setCursor _ before) (ih _ ⟨sees.annotate, sees.resolve⟩)) rfl rfl⟩

theorem evaluates_effectAsValue {walk : Emitter Unit} {planned : Nat → Nat → Output}
    {choices : Nat} (ih : walk.Performs annotated names planned choices) :
    (effectAsValue walk).Evaluates annotated names (Plan.parked planned) choices := by
  intro before sees
  obtain ⟨cursor, ends⟩ := ih
    { before with pushed := before.pushed + (scratchBelow before.cursor).length }
    ⟨sees.annotate, sees.resolve⟩
  refine Ends.congr (.bind (ends_context before) (.bind (ends_note _ before)
    (.bind (ends_pushAll _ before) (.bind ends (.bind (ends_popAll _ _)
      (.bind (ends_setCursor _ _) (.bind (ends_cursor _) (ends_emit _ _)))))))) ?_ ?_
  · simp only [List.length_reverse, Nat.add_sub_cancel]
  · simp only [Plan.parked, Output.empty_append, Output.append_assoc]

/-! ## Statements -/

theorem performs_pure : (pure () : Emitter Unit).Performs annotated names
    (fun _ _ => .empty) 0 := fun before _ =>
  ⟨before.cursor, ends_pure () before⟩

theorem performs_note (event : Event) :
    (note event).Performs annotated names (fun _ _ => .ofEvent event) 0 := fun before _ =>
  ⟨before.cursor, ends_note event before⟩

theorem ends_reserveAll (declared : List Declaration) (before : Context) :
    (declared.forM reserveGlobal).Ends before () before (Plan.reserve declared) := by
  induction declared with
  | nil => exact ends_pure () before
  | cons entry rest ih => exact Ends.congr (.bind (ends_reserveGlobal entry before) ih) rfl rfl

theorem performs_reserveAll (declared : List Declaration) :
    (declared.forM reserveGlobal).Performs annotated names
      (fun _ _ => Plan.reserve declared) 0 := fun before _ =>
  ⟨before.cursor, ends_reserveAll declared before⟩

theorem performs_assign {target value : Emitter Unit} {planTarget planValue : Plan}
    (ihTarget : target.Evaluates annotated names planTarget.address planTarget.choices)
    (ihValue : value.Evaluates annotated names planValue.value planValue.choices) :
    (assign target value).Performs annotated names (Plan.assign planTarget planValue)
      (planTarget.choices + planValue.choices) := by
  intro before sees
  refine ⟨Register.scratchBase, Ends.congr (.bind (ends_setCursor _ before)
    (.bind (ends_cursor _) (.bind (ihTarget _ ⟨sees.annotate, sees.resolve⟩)
      (.bind (ends_advanceCursor _) (.bind (ihValue _ ⟨sees.annotate, sees.resolve⟩)
        (.bind (ends_retreatCursor _) (ends_emit _ _))))))) ?_ ?_⟩
  · simp only [Nat.add_sub_cancel, Nat.add_assoc]
  · simp only [Plan.assign, Output.empty_append, Output.append_assoc]

theorem performs_branch {condition consequent : Emitter Unit}
    {planCondition planConsequent : Plan}
    (ihCondition : condition.Evaluates annotated names planCondition.value planCondition.choices)
    (ihConsequent : consequent.Performs annotated names planConsequent.effect
      planConsequent.choices) :
    (branch condition consequent none).Performs annotated names
      (Plan.branch planCondition planConsequent)
      (planCondition.choices + 1 + planConsequent.choices) := by
  intro before sees
  obtain ⟨cursor, ends⟩ := ihConsequent
    { before with
      cursor := Register.scratchBase
      nextLabel := before.nextLabel + planCondition.choices + 1 } ⟨sees.annotate, sees.resolve⟩
  refine ⟨cursor, Ends.congr (.bind (ends_setCursor _ before)
    (.bind (ihCondition _ ⟨sees.annotate, sees.resolve⟩) (.bind (ends_cursor _)
      (.bind (ends_freshLabel _) (.bind (ends_note _ _) (.bind (ends_emit _ _)
        (.bind ends (.bind (ends_emit _ _) (ends_emit _ _))))))))) ?_ ?_⟩
  · simp only [Nat.add_assoc]
  · simp only [Plan.branch, Output.empty_append, Output.append_assoc, Option.isSome_none]

theorem performs_branchElse {condition consequent alternative : Emitter Unit}
    {planCondition planConsequent planAlternative : Plan}
    (ihCondition : condition.Evaluates annotated names planCondition.value planCondition.choices)
    (ihConsequent : consequent.Performs annotated names planConsequent.effect
      planConsequent.choices)
    (ihAlternative : alternative.Performs annotated names planAlternative.effect
      planAlternative.choices) :
    (branch condition consequent (some alternative)).Performs annotated names
      (Plan.branchElse planCondition planConsequent planAlternative)
      (planCondition.choices + 1 + planConsequent.choices + planAlternative.choices) := by
  intro before sees
  obtain ⟨between, ends⟩ := ihConsequent
    { before with
      cursor := Register.scratchBase
      nextLabel := before.nextLabel + planCondition.choices + 1 } ⟨sees.annotate, sees.resolve⟩
  obtain ⟨cursor, ends'⟩ := ihAlternative
    { before with
      cursor := between
      nextLabel := before.nextLabel + planCondition.choices + 1 + planConsequent.choices }
    ⟨sees.annotate, sees.resolve⟩
  refine ⟨cursor, Ends.congr (.bind (ends_setCursor _ before)
    (.bind (ihCondition _ ⟨sees.annotate, sees.resolve⟩) (.bind (ends_cursor _)
      (.bind (ends_freshLabel _) (.bind (ends_note _ _) (.bind (ends_emit _ _)
        (.bind ends (.bind (ends_emit _ _) (.bind (ends_emit _ _)
          (.bind ends' (ends_emit _ _))))))))))) ?_ ?_⟩
  · simp only [Nat.add_assoc]
  · simp only [Plan.branchElse, Output.empty_append, Output.append_assoc, Option.isSome_some]

theorem performs_loop {condition body : Emitter Unit} {planCondition planBody : Plan}
    (ihCondition : condition.Evaluates annotated names planCondition.value planCondition.choices)
    (ihBody : body.Performs annotated names planBody.effect planBody.choices) :
    (loop condition body).Performs annotated names (Plan.loop planCondition planBody)
      (1 + planCondition.choices + planBody.choices) := by
  intro before sees
  obtain ⟨cursor, ends⟩ := ihBody
    { before with
      cursor := Register.scratchBase
      nextLabel := before.nextLabel + 1 + planCondition.choices } ⟨sees.annotate, sees.resolve⟩
  refine ⟨cursor, Ends.congr (.bind (ends_freshLabel before) (.bind (ends_note _ _)
    (.bind (ends_emit _ _) (.bind (ends_setCursor _ _)
      (.bind (ihCondition _ ⟨sees.annotate, sees.resolve⟩) (.bind (ends_cursor _)
        (.bind (ends_emit _ _) (.bind ends (.bind (ends_emit _ _) (ends_emit _ _)))))))))) ?_ ?_⟩
  · simp only [Nat.add_assoc]
  · simp only [Plan.loop, Output.empty_append, Output.append_assoc]

/-! ## Calls -/

theorem performs_read {target : Emitter Unit} {planned : Plan}
    (ih : target.Evaluates annotated names planned.address planned.choices) :
    (read target).Performs annotated names (Plan.read planned) planned.choices := by
  intro before sees
  refine ⟨Register.scratchBase, Ends.congr (.bind (ends_setCursor _ before)
    (.bind (ends_cursor _) (.bind (ends_note _ _) (.bind (ih _ ⟨sees.annotate, sees.resolve⟩)
      (.bind (ends_advanceCursor _) (.bind (ends_emit _ _) (.bind (ends_emit _ _)
        (ends_retreatCursor _)))))))) ?_ ?_⟩
  · simp only [Nat.add_sub_cancel]
  · simp only [Plan.read, Output.empty_append, Output.append_empty, Output.append_assoc]
    rfl

theorem performs_write {value : Emitter Unit} {planned : Plan}
    (ih : value.Evaluates annotated names planned.value planned.choices) :
    (write value).Performs annotated names (Plan.write planned) planned.choices := by
  intro before sees
  refine ⟨Register.scratchBase, Ends.congr (.bind (ends_setCursor _ before)
    (.bind (ends_cursor _) (.bind (ends_note _ _) (.bind (ih _ ⟨sees.annotate, sees.resolve⟩)
      (ends_emit _ _))))) rfl ?_⟩
  simp only [Plan.write, Output.empty_append, Output.append_assoc]

theorem ends_pushArgument {value : Emitter Unit} {planned : Plan}
    (ih : value.Evaluates annotated names planned.value planned.choices) (before : Context)
    (sees : before.Sees annotated names) :
    (pushArgument value).Ends before ()
      { before with
        cursor := Register.scratchBase
        nextLabel := before.nextLabel + planned.choices
        pushed := before.pushed + 1
        pendingArguments := before.pendingArguments + 1 }
      (planned.value Register.scratchBase before.pushed before.nextLabel ++
        .ofCode (pushCode [.general Register.scratchBase])) := by
  refine Ends.congr (.bind (ends_setCursor _ before) (.bind (ih _ ⟨sees.annotate, sees.resolve⟩)
    (.bind (ends_cursor _) (.bind (ends_push _ _)
      (ends_change fun _ done => eq_of_countUp done))))) rfl ?_
  simp only [Output.empty_append, Output.append_empty]

theorem ends_pushArguments (values : List (Emitter Unit × Plan))
    (ih : ∀ entry ∈ values, entry.1.Evaluates annotated names entry.2.value entry.2.choices)
    (before : Context) (sees : before.Sees annotated names) :
    ∃ cursor, ((values.map Prod.fst).forM pushArgument).Ends before ()
      { before with
        cursor := cursor
        nextLabel := before.nextLabel + Plan.choicesOf (values.map Prod.snd)
        pushed := before.pushed + values.length
        pendingArguments := before.pendingArguments + values.length }
      (Plan.pushArguments (values.map Prod.snd) before.pushed before.nextLabel) := by
  induction values generalizing before with
  | nil => exact ⟨before.cursor, ends_pure () before⟩
  | cons entry rest ihRest =>
      have first := ends_pushArgument (ih entry List.mem_cons_self) before sees
      obtain ⟨cursor, others⟩ := ihRest (fun other member => ih other (.tail _ member))
        { before with
          cursor := Register.scratchBase
          nextLabel := before.nextLabel + entry.2.choices
          pushed := before.pushed + 1
          pendingArguments := before.pendingArguments + 1 } ⟨sees.annotate, sees.resolve⟩
      refine ⟨cursor, Ends.congr (.bind first others) ?_ rfl⟩
      simp only [List.map_cons, Plan.choicesOf_cons, List.length_cons, Nat.add_assoc,
        Nat.add_comm 1]

theorem performs_callProcedure (name : String) (values : List (Emitter Unit × Plan))
    (ih : ∀ entry ∈ values, entry.1.Evaluates annotated names entry.2.value entry.2.choices) :
    (callProcedure name (values.map Prod.fst)).Performs annotated names
      (Plan.callProcedure annotated name (values.map Prod.snd))
      (Plan.choicesOf (values.map Prod.snd)) := by
  intro before sees
  obtain ⟨cursor, arguments⟩ := ends_pushArguments values.reverse
    (fun entry member => ih entry (List.mem_reverse.mp member))
    { before with pushed := before.pushed + 1, pendingArguments := 0 }
    ⟨sees.annotate, sees.resolve⟩
  rw [List.map_reverse] at arguments
  refine ⟨cursor, Ends.congr (.bind (ends_note _ before) (.bind (ends_annotate _ before)
    (.bind (ends_push .link before) (.bind (ends_context _) (.bind (ends_setPending 0 _)
      (.bind arguments (.bind (ends_emit _ _) (.bind (ends_context _) (.bind (ends_drop _ _)
        (.bind (ends_pop _ _) (ends_setPending _ _))))))))))) ?_ ?_⟩
  · simp only [List.length_reverse, List.map_reverse, Plan.choicesOf_reverse, Nat.zero_add,
      Nat.add_sub_cancel]
  · simp only [Plan.callProcedure, sees.annotate, List.length_map, List.map_reverse,
      List.length_reverse, Nat.zero_add, Output.empty_append, Output.append_empty,
      Output.append_assoc]

theorem performs_noteExtra (name : String) (count : Nat) (before : Context) :
    (noteExtra name count).Ends before () before (Plan.extra name count) := by
  unfold noteExtra Plan.extra
  by_cases some : 0 < count
  · simp only [some, if_true]
    exact ends_note _ before
  · simp only [some]
    exact ends_pure () before

end Emitter

/-! ## Nodes -/

section

variable (annotated : Bool) (names : String → Address)

/-- Each of the three ways to lower a node emits what a plan says. -/
structure Lowered.Follows (lowered : Lowered) (plan : Plan) : Prop where
  value : lowered.value.Evaluates annotated names plan.value plan.choices
  address : lowered.address.Evaluates annotated names plan.address plan.choices
  effect : lowered.effect.Performs annotated names plan.effect plan.choices

end

variable {annotated : Bool} {names : String → Address}

open Emitter

theorem Lowered.follows_ofValue {walk : Emitter Unit} {planned : Nat → Nat → Nat → Output}
    {choices : Nat} (ih : walk.Evaluates annotated names planned choices) :
    (Lowered.ofValue walk).Follows annotated names (.ofValue planned choices) :=
  ⟨ih, evaluates_valueAsAddress ih, performs_valueAsEffect ih⟩

theorem Lowered.follows_ofPlace {walk place : Emitter Unit}
    {planned plannedPlace : Nat → Nat → Nat → Output} {choices : Nat}
    (ih : walk.Evaluates annotated names planned choices)
    (ihPlace : place.Evaluates annotated names plannedPlace choices) :
    (Lowered.ofPlace walk place).Follows annotated names (.ofPlace planned plannedPlace choices) :=
  ⟨ih, ihPlace, performs_valueAsEffect ih⟩

theorem Lowered.follows_ofEffect {walk : Emitter Unit} {planned : Nat → Nat → Output}
    {choices : Nat} (ih : walk.Performs annotated names planned choices) :
    (Lowered.ofEffect walk).Follows annotated names (.ofEffect planned choices) :=
  ⟨evaluates_effectAsValue ih, evaluates_valueAsAddress (evaluates_effectAsValue ih), ih⟩

namespace Node

theorem performs_sequence (nodes : List Node)
    (ih : ∀ node ∈ nodes, node.lower.Follows annotated names (node.plan annotated names)) :
    ((lowerAll nodes).forM Lowered.effect).Performs annotated names
      (Plan.sequence (planAll annotated names nodes))
      (Plan.choicesOf (planAll annotated names nodes)) := by
  induction nodes with
  | nil => exact performs_pure
  | cons node rest ihRest =>
      intro before sees
      obtain ⟨between, first⟩ := (ih node List.mem_cons_self).effect before sees
      obtain ⟨cursor, others⟩ := ihRest (fun other member => ih other (.tail _ member))
        { before with
          cursor := between
          nextLabel := before.nextLabel + (node.plan annotated names).choices }
        ⟨sees.annotate, sees.resolve⟩
      refine ⟨cursor, Ends.congr (.bind first others) ?_ rfl⟩
      simp only [planAll, Plan.choicesOf_cons, Nat.add_assoc]

theorem performs_call (name : String) (arguments : List Node)
    (ih : ∀ argument ∈ arguments,
      argument.lower.Follows annotated names (argument.plan annotated names)) :
    (Emitter.call name (lowerAll arguments)).Performs annotated names
      (Plan.call annotated name (planAll annotated names arguments))
      (Plan.callChoices name (planAll annotated names arguments)) := by
  have general : (Emitter.callProcedure name ((lowerAll arguments).map Lowered.value)).Performs
      annotated names (Plan.callProcedure annotated name (planAll annotated names arguments))
      (Plan.choicesOf (planAll annotated names arguments)) := by
    have performs := performs_callProcedure name
      (arguments.map fun argument => (argument.lower.value, argument.plan annotated names)) (by
        intro entry member
        obtain ⟨argument, listed, rfl⟩ := List.mem_map.mp member
        exact (ih argument listed).value)
    simpa [lowerAll_eq_map, planAll_eq_map, Function.comp_def] using performs
  unfold Emitter.call Plan.call Plan.callChoices
  cases arguments with
  | nil => rcases Intrinsic.ofName? name with _ | _ | _ <;> exact general
  | cons first rest =>
      have follows := ih first List.mem_cons_self
      cases Intrinsic.ofName? name with
      | none => exact general
      | some intrinsic =>
          intro before sees
          cases intrinsic with
          | read =>
              obtain ⟨cursor, ends⟩ := performs_read follows.address before sees
              refine ⟨cursor, Ends.congr (.bind (performs_noteExtra _ _ before) ends) rfl ?_⟩
              simp only [planAll, lowerAll_eq_map, planAll_eq_map, List.length_map]
          | write =>
              obtain ⟨cursor, ends⟩ := performs_write follows.value before sees
              refine ⟨cursor, Ends.congr (.bind (performs_noteExtra _ _ before) ends) rfl ?_⟩
              simp only [planAll, lowerAll_eq_map, planAll_eq_map, List.length_map]

/-- **Lowering follows its plan.** Whatever way a node is lowered, a walk that
finishes emits what the plan of the node says. -/
theorem lower_follows (node : Node) :
    node.lower.Follows annotated names (node.plan annotated names) := by
  induction node with
  | program items ih => exact Lowered.follows_ofEffect (performs_sequence items ih)
  | procedure heading locals body _ => exact Lowered.follows_ofEffect (performs_note _)
  | header heading => exact Lowered.follows_ofEffect performs_pure
  | declarations declared => exact Lowered.follows_ofEffect (performs_reserveAll declared)
  | declaration declared =>
      exact Lowered.follows_ofEffect fun before _ =>
        ⟨before.cursor, ends_reserveGlobal declared before⟩
  | block statements ih => exact Lowered.follows_ofEffect (performs_sequence statements ih)
  | call name arguments ih => exact Lowered.follows_ofEffect (performs_call name arguments ih)
  | assign target value ihTarget ihValue =>
      exact Lowered.follows_ofEffect (performs_assign ihTarget.address ihValue.value)
  | branch condition consequent ihCondition ihConsequent =>
      exact Lowered.follows_ofEffect (performs_branch ihCondition.value ihConsequent.effect)
  | branchElse condition consequent alternative ihCondition ihConsequent ihAlternative =>
      exact Lowered.follows_ofEffect
        (performs_branchElse ihCondition.value ihConsequent.effect ihAlternative.effect)
  | loop condition body ihCondition ihBody =>
      exact Lowered.follows_ofEffect (performs_loop ihCondition.value ihBody.effect)
  | binary op left right ihLeft ihRight =>
      exact Lowered.follows_ofValue (evaluates_binary op ihLeft.value ihRight.value)
  | unary op operand ih =>
      cases op with
      | dereference => exact Lowered.follows_ofPlace (evaluates_unary _ ih.value) ih.value
      | plus => exact Lowered.follows_ofValue (evaluates_unary _ ih.value)
      | minus => exact Lowered.follows_ofValue (evaluates_unary _ ih.value)
      | not => exact Lowered.follows_ofValue (evaluates_unary _ ih.value)
  | constant value => exact Lowered.follows_ofValue (evaluates_constant value)
  | reference name =>
      exact Lowered.follows_ofPlace (evaluates_reference name) (evaluates_referenceAddress name)

end Node

namespace Emitter

/-! ## Procedures -/

theorem ends_enter (scope : Scope) (before : Context) :
    (enter scope).Ends before ()
      { before with
        scope := scope
        pushed := 0
        pendingArguments := 0
        cursor := Register.scratchBase } .empty :=
  ends_change fun changed done => by simpa using done.symm

theorem ends_makeFrame (words : Nat) (before : Context) :
    (makeFrame words).Ends before () before (.ofCode (frameCode words)) := by
  unfold makeFrame frameCode
  by_cases some : 0 < words
  · simp only [some, if_true]
    exact ends_emit _ before
  · simp only [some]
    exact ends_pure () before

theorem ends_leaveFrame (words : Nat) (before : Context) :
    (leaveFrame words).Ends before () before (.ofCode (dropCode words ++ [.ret])) := by
  unfold leaveFrame dropCode
  by_cases some : 0 < words
  · simp only [some, if_true]
    exact Ends.congr (.bind (ends_emit _ before) (ends_emit _ before)) rfl rfl
  · simp only [some]
    exact ends_emit _ before

theorem ends_noteReach (name : String) (scope : Scope) (before : Context) :
    (noteReach name scope).Ends before () before (Plan.reach name scope) := by
  unfold noteReach Plan.reach
  by_cases out : scope.frameExtent?.isNone
  · simp only [out, if_true]
    exact ends_note _ before
  · simp only [out]
    exact ends_pure () before

/-- A procedure whose lowering finishes emits its plan, whatever was lowered
before it. -/
theorem ends_procedure (heading : Header) (locals : List Declaration) (body : Node)
    (before : Context) :
    let scope : Scope := ⟨locals, heading.parameters⟩
    let plan := body.plan before.annotate (scope.resolve before.globals)
    ∃ cursor, (procedure heading locals body.lower.effect).Ends before ()
      { before with
        scope := scope
        pushed := 0
        pendingArguments := 0
        cursor := cursor
        nextLabel := before.nextLabel + plan.choices }
      (Plan.procedure before.annotate heading locals plan before.nextLabel) := by
  intro scope plan
  obtain ⟨cursor, performs⟩ := (Node.lower_follows body).effect
    { before with
      scope := scope
      pushed := 0
      pendingArguments := 0
      cursor := Register.scratchBase } ⟨rfl, rfl⟩
  refine ⟨cursor, Ends.congr (.bind (ends_note _ before) (.bind (ends_noteReach _ _ before)
    (.bind (ends_emit _ before) (.bind (ends_annotate _ before) (.bind (ends_enter scope before)
      (.bind (ends_makeFrame _ _) (.bind performs (ends_leaveFrame _ _)))))))) rfl ?_⟩
  simp only [Plan.procedure, Output.empty_append, Output.append_assoc]
  rfl

end Emitter

end ProcLang
