import Mathlib
import ProcLang.Lowering.Program
import ProcLang.Proofs.Syntax.Induction

/-!
# Other views of the program

Two parts of a context are about the program as a whole: whether remarks are wanted, and
which globals are known. A `View` changes them, so that every global keeps its size, and
it says what becomes of the outputs. `Emitter.Respects` says in one equation that
nothing else depends on these parts: a walk from the changed context does what it does
from the other one, and its output is changed as the view says. It fails where the other
fails.

The equation passes through sequencing, so it is proved of each walk from its parts, and
of a tree of any shape (`Node.respects`, `Emitter.respects_item`).
-/

set_option autoImplicit false

namespace ProcLang

/-- Whether an instruction is a remark. -/
def Instruction.isRemark : Instruction → Bool
  | .comment _ => true
  | _ => false

/-- The size of a global in a list; the first declaration of a name counts. -/
def sizeIn? (globals : List Declaration) (name : String) : Option UInt32 :=
  (globals.find? fun declared => declared.name == name).map Declaration.size

/-- A change of what a context says about the program as a whole, and of what is
emitted. -/
structure View where
  annotate : Bool → Bool
  globals : List Declaration → List Declaration
  output : Output → Output
  size_eq : ∀ known name, sizeIn? (globals known) name = sizeIn? known name
  output_empty : output .empty = .empty
  output_append : ∀ first second, output (first ++ second) = output first ++ output second
  output_code : ∀ instruction : Instruction, instruction.isRemark = false →
    output ⟨[instruction], [], []⟩ = ⟨[instruction], [], []⟩
  output_data : ∀ data, output ⟨[], data, []⟩ = ⟨[], data, []⟩
  output_event : ∀ event, output ⟨[], [], [event]⟩ = ⟨[], [], [event]⟩
  output_remark : ∀ wanted text,
    output (if wanted then ⟨[.comment text], [], []⟩ else .empty) =
      if annotate wanted then ⟨[.comment text], [], []⟩ else .empty

namespace View

/-- The context with the other view. -/
def context (view : View) (context : Context) : Context :=
  { context with
    annotate := view.annotate context.annotate
    globals := view.globals context.globals }

/-- The end of a walk with the other view. -/
def ended {α : Type} (view : View) (emitted : Emitted α) : Emitted α :=
  ⟨emitted.value, view.context emitted.context, view.output emitted.output⟩

/-- Names live in the same places. -/
theorem resolve_context (view : View) (before : Context) (name : String) :
    (view.context before).resolve name = before.resolve name := by
  have size : (view.context before).globalSize? name = before.globalSize? name :=
    view.size_eq before.globals name
  rw [Context.resolve, size]
  rfl

end View

namespace Emitter

variable {α β : Type} {view : View}

/-- With another view, a walk does the same, and its output is changed accordingly. -/
def Respects (view : View) (walk : Emitter α) : Prop :=
  ∀ before, walk.run (view.context before) = (walk.run before).map view.ended

/-! ## Single steps -/

theorem respects_pure (value : α) : (pure value : Emitter α).Respects view := by
  intro before
  simp [Except.map, View.ended, view.output_empty]

/-- Sequencing keeps the equation. -/
theorem Respects.bind {first : Emitter α} {second : α → Emitter β} (leads : first.Respects view)
    (follow : ∀ value, (second value).Respects view) : (first >>= second).Respects view := by
  intro before
  rw [run_bind, run_bind, leads before]
  rcases first.run before with overflow | between
  · rfl
  · simp only [Except.map, View.ended, follow between.value between.context]
    rcases (second between.value).run between.context with overflow | after
    · rfl
    · simp [view.output_append]

theorem respects_emit {instruction : Instruction} (needed : instruction.isRemark = false) :
    (emit instruction).Respects view := by
  intro before
  simp [emit, Except.map, View.ended, view.output_code instruction needed]

theorem respects_note (event : Event) : (note event).Respects view := by
  intro before
  simp [note, Except.map, View.ended, view.output_event]

theorem respects_reserveGlobal (declared : Declaration) :
    (reserveGlobal declared).Respects view := by
  intro before
  simp [reserveGlobal, Except.map, View.ended, view.output_data]

theorem respects_change {f : Context → Except Overflow Context}
    (same : ∀ before, f (view.context before) = (f before).map view.context) :
    (change f).Respects view := by
  intro before
  simp only [change, same before]
  rcases f before with overflow | after
  · rfl
  · simp [Except.map, View.ended, view.output_empty]

/-- A look at the context keeps the equation if what is done then does not depend on the
view. -/
theorem respects_context {next : Context → Emitter β}
    (same : ∀ before, next (view.context before) = next before)
    (follow : ∀ seen, (next seen).Respects view) : (context >>= next).Respects view := by
  intro before
  have run : ∀ start, (context >>= next).run start = (next start).run start := by
    intro start
    rw [run_bind]
    simp only [context]
    rcases (next start).run start with overflow | after <;> rfl
  rw [run, run, same, follow before before]

/-- Remarks are left to the view. -/
theorem respects_annotate (text : String) : (annotate text).Respects view := by
  have run : ∀ start : Context, (annotate text).run start =
      .ok ⟨(), start, if start.annotate then ⟨[.comment text], [], []⟩ else .empty⟩ := by
    intro start
    by_cases wanted : start.annotate
    · simp [annotate, run_bind, context, emit, wanted]
    · simp [annotate, run_bind, context, wanted]
  intro before
  rw [run, run, Except.map, View.ended, view.output_remark]
  rfl

theorem respects_forM {items : List β} {walk : β → Emitter Unit}
    (each : ∀ item ∈ items, (walk item).Respects view) : (items.forM walk).Respects view := by
  induction items with
  | nil => exact respects_pure ()
  | cons item items ih =>
      exact (each item List.mem_cons_self).bind fun _ =>
        ih fun other member => each other (.tail _ member)

/-! ## Counters -/

theorem respects_cursor : cursor.Respects view :=
  respects_context (fun _ => rfl) fun _ => respects_pure _

theorem respects_setCursor (index : Nat) : (setCursor index).Respects view :=
  respects_change fun _ => rfl

/-- A counter is moved alike. -/
theorem respects_count {count : Context → Except Overflow Nat} {update : Context → Nat → Context}
    (same : ∀ before, count (view.context before) = count before)
    (kept : ∀ before counter,
      update (view.context before) counter = view.context (update before counter)) :
    (change fun context => do return update context (← count context)).Respects view := by
  refine respects_change fun before => ?_
  rw [same]
  rcases count before with overflow | counter
  · rfl
  · exact congrArg Except.ok (kept before counter)

theorem respects_advanceCursor : advanceCursor.Respects view :=
  (respects_count (fun _ => rfl) fun _ _ => rfl).bind fun _ => respects_cursor

theorem respects_retreatCursor : retreatCursor.Respects view :=
  respects_count (fun _ => rfl) fun _ _ => rfl

theorem respects_freshLabel : freshLabel.Respects view :=
  respects_context (fun _ => rfl) fun _ =>
    (respects_count (fun _ => rfl) fun _ _ => rfl).bind fun _ => respects_pure _

theorem respects_push (register : Register) : (push register).Respects view :=
  (respects_emit rfl).bind fun _ => (respects_emit rfl).bind fun _ =>
    respects_count (fun _ => rfl) fun _ _ => rfl

theorem respects_pop (register : Register) : (pop register).Respects view :=
  (respects_emit rfl).bind fun _ => (respects_emit rfl).bind fun _ =>
    respects_count (fun _ => rfl) fun _ _ => rfl

theorem respects_drop (words : Nat) : (drop words).Respects view := by
  unfold drop
  split
  · exact (respects_emit rfl).bind fun _ => respects_count (fun _ => rfl) fun _ _ => rfl
  · exact respects_pure ()

/-! ## Values -/

section Values

variable {walk left right : Emitter Unit}

theorem respects_frameAddress (name : String) (shift : Nat) (target : Register) :
    (frameAddress name shift target).Respects view :=
  respects_context (fun _ => rfl) fun _ => (respects_note _).bind fun _ => respects_emit rfl

theorem respects_addressOf (name : String) (target : Register) :
    (addressOf name target).Respects view := by
  refine respects_context (fun before => ?_) fun seen => ?_
  · simp only [view.resolve_context]
  · dsimp only
    split
    · exact (respects_frameAddress name _ target).bind fun _ => respects_pure _
    · exact (respects_frameAddress name _ target).bind fun _ => respects_pure _
    · exact (respects_note _).bind fun _ => (respects_emit rfl).bind fun _ => respects_pure _

theorem respects_constant (value : Int32) : (constant value).Respects view :=
  respects_cursor.bind fun _ => respects_emit rfl

theorem respects_reference (name : String) : (reference name).Respects view := by
  refine respects_cursor.bind fun target =>
    (respects_addressOf name target).bind fun address => ?_
  split
  · exact respects_pure ()
  · exact respects_emit rfl

theorem respects_referenceAddress (name : String) : (referenceAddress name).Respects view :=
  respects_cursor.bind fun target =>
    (respects_addressOf name target).bind fun _ => respects_pure ()

theorem respects_binary (op : BinaryOperator) (first : left.Respects view)
    (second : right.Respects view) : (binary op left right).Respects view := by
  refine respects_cursor.bind fun target => first.bind fun _ =>
    respects_advanceCursor.bind fun above => second.bind fun _ =>
      respects_retreatCursor.bind fun _ => respects_emit ?_
  cases op <;> rfl

theorem respects_unary (op : UnaryOperator) (inner : walk.Respects view) :
    (unary op walk).Respects view := by
  refine respects_cursor.bind fun target => inner.bind fun _ => ?_
  cases op with
  | plus => exact respects_pure ()
  | minus => exact respects_emit rfl
  | not => exact respects_emit rfl
  | dereference => exact respects_emit rfl

theorem respects_effectAsValue (inner : walk.Respects view) :
    (effectAsValue walk).Respects view :=
  respects_context (fun _ => rfl) fun _ => (respects_note _).bind fun _ =>
    (respects_forM fun register _ => respects_push register).bind fun _ => inner.bind fun _ =>
      (respects_forM fun register _ => respects_pop register).bind fun _ =>
        (respects_setCursor _).bind fun _ => respects_cursor.bind fun _ => respects_emit rfl

end Values

/-! ## Statements -/

section Statements

variable {condition consequent body target value : Emitter Unit}

theorem respects_assign (first : target.Respects view) (second : value.Respects view) :
    (assign target value).Respects view :=
  (respects_setCursor _).bind fun _ => respects_cursor.bind fun _ => first.bind fun _ =>
    respects_advanceCursor.bind fun _ => second.bind fun _ =>
      respects_retreatCursor.bind fun _ => respects_emit rfl

theorem respects_branch {alternative : Option (Emitter Unit)} (test : condition.Respects view)
    (taken : consequent.Respects view) (otherwise : ∀ walk ∈ alternative, walk.Respects view) :
    (branch condition consequent alternative).Respects view := by
  refine (respects_setCursor _).bind fun _ => test.bind fun _ => respects_cursor.bind fun _ =>
    respects_freshLabel.bind fun _ => (respects_note _).bind fun _ =>
      (respects_emit rfl).bind fun _ => taken.bind fun _ => ?_
  cases alternative with
  | none => exact (respects_emit rfl).bind fun _ => respects_emit rfl
  | some walk =>
      exact (respects_emit rfl).bind fun _ => (respects_emit rfl).bind fun _ =>
        (otherwise walk rfl).bind fun _ => respects_emit rfl

theorem respects_loop (test : condition.Respects view) (round : body.Respects view) :
    (loop condition body).Respects view :=
  respects_freshLabel.bind fun _ => (respects_note _).bind fun _ =>
    (respects_emit rfl).bind fun _ => (respects_setCursor _).bind fun _ => test.bind fun _ =>
      respects_cursor.bind fun _ => (respects_emit rfl).bind fun _ => round.bind fun _ =>
        (respects_emit rfl).bind fun _ => respects_emit rfl

theorem respects_read (place : target.Respects view) : (read target).Respects view :=
  (respects_setCursor _).bind fun _ => respects_cursor.bind fun _ => (respects_note _).bind fun _ =>
    place.bind fun _ => respects_advanceCursor.bind fun _ => (respects_emit rfl).bind fun _ =>
      (respects_emit rfl).bind fun _ => respects_retreatCursor

theorem respects_write (source : value.Respects view) : (write value).Respects view :=
  (respects_setCursor _).bind fun _ => respects_cursor.bind fun _ => (respects_note _).bind fun _ =>
    source.bind fun _ => respects_emit rfl

theorem respects_pushArgument (source : value.Respects view) :
    (pushArgument value).Respects view :=
  (respects_setCursor _).bind fun _ => source.bind fun _ => respects_cursor.bind fun _ =>
    (respects_push _).bind fun _ => respects_count (fun _ => rfl) fun _ _ => rfl

theorem respects_setPending (pending : Nat) : (setPending pending).Respects view :=
  respects_change fun _ => rfl

theorem respects_callProcedure (name : String) {arguments : List (Emitter Unit)}
    (each : ∀ argument ∈ arguments, argument.Respects view) :
    (callProcedure name arguments).Respects view := by
  refine (respects_note _).bind fun _ => (respects_annotate _).bind fun _ =>
    (respects_push _).bind fun _ => respects_context (fun _ => rfl) fun _ =>
      (respects_setPending _).bind fun _ => (respects_forM ?_).bind fun _ =>
        (respects_emit rfl).bind fun _ => respects_context (fun _ => rfl) fun _ =>
          (respects_drop _).bind fun _ => (respects_pop _).bind fun _ => respects_setPending _
  intro argument member
  exact respects_pushArgument (each argument (List.mem_reverse.mp member))

theorem respects_noteExtra (name : String) (extra : Nat) :
    (noteExtra name extra).Respects view := by
  unfold noteExtra
  split
  · exact respects_note _
  · exact respects_pure ()

end Statements

end Emitter

/-! ## Trees -/

/-- All three ways to lower a node keep the equation. -/
structure Lowered.Respects (view : View) (lowered : Lowered) : Prop where
  value : lowered.value.Respects view
  address : lowered.address.Respects view
  effect : lowered.effect.Respects view

open Emitter

variable {view : View}

namespace Lowered

theorem respects_ofValue {value : Emitter Unit} (respects : value.Respects view) :
    (ofValue value).Respects view :=
  ⟨respects, (respects_note _).bind fun _ => respects,
    (respects_setCursor _).bind fun _ => respects⟩

theorem respects_ofPlace {value address : Emitter Unit} (respects : value.Respects view)
    (respects' : address.Respects view) : (ofPlace value address).Respects view :=
  ⟨respects, respects', (respects_setCursor _).bind fun _ => respects⟩

theorem respects_ofEffect {effect : Emitter Unit} (respects : effect.Respects view) :
    (ofEffect effect).Respects view :=
  ⟨respects_effectAsValue respects,
    (respects_note _).bind fun _ => respects_effectAsValue respects, respects⟩

end Lowered

theorem Emitter.respects_call (name : String) {arguments : List Lowered}
    (each : ∀ argument ∈ arguments, argument.Respects view) :
    (Emitter.call name arguments).Respects view := by
  unfold Emitter.call
  split
  · rename_i first rest _
    exact (respects_noteExtra _ _).bind fun _ =>
      respects_read (each first List.mem_cons_self).address
  · rename_i first rest _
    exact (respects_noteExtra _ _).bind fun _ =>
      respects_write (each first List.mem_cons_self).value
  · refine respects_callProcedure name fun argument member => ?_
    obtain ⟨lowered, listed, rfl⟩ := List.mem_map.mp member
    exact (each lowered listed).value

namespace Node

theorem respects_lowerAll {nodes : List Node}
    (each : ∀ node ∈ nodes, node.lower.Respects view) :
    ∀ lowered ∈ lowerAll nodes, lowered.Respects view := by
  induction nodes with
  | nil =>
      intro lowered member
      cases member
  | cons node nodes ih =>
      intro lowered member
      rw [lowerAll] at member
      rcases List.mem_cons.mp member with rfl | later
      · exact each node List.mem_cons_self
      · exact ih (fun other listed => each other (.tail _ listed)) lowered later

/-- **A tree of any shape is lowered alike with every view.** -/
theorem respects (node : Node) : node.lower.Respects view := by
  induction node with
  | program items ih =>
      rw [lower]
      exact Lowered.respects_ofEffect (respects_forM fun lowered member =>
        (respects_lowerAll ih lowered member).effect)
  | procedure heading locals body =>
      rw [lower]
      exact Lowered.respects_ofEffect (respects_note _)
  | header heading =>
      rw [lower]
      exact Lowered.respects_ofEffect (respects_pure ())
  | declarations declared =>
      rw [lower]
      exact Lowered.respects_ofEffect (respects_forM fun one _ => respects_reserveGlobal one)
  | declaration declared =>
      rw [lower]
      exact Lowered.respects_ofEffect (respects_reserveGlobal declared)
  | block statements ih =>
      rw [lower]
      exact Lowered.respects_ofEffect (respects_forM fun lowered member =>
        (respects_lowerAll ih lowered member).effect)
  | call name arguments ih =>
      rw [lower]
      exact Lowered.respects_ofEffect (respects_call name (respects_lowerAll ih))
  | assign target value ihTarget ihValue =>
      rw [lower]
      exact Lowered.respects_ofEffect (respects_assign ihTarget.address ihValue.value)
  | branch condition consequent ihCondition ihConsequent =>
      rw [lower]
      exact Lowered.respects_ofEffect
        (respects_branch ihCondition.value ihConsequent.effect (by simp))
  | branchElse condition consequent alternative ihCondition ihConsequent ihAlternative =>
      rw [lower]
      refine Lowered.respects_ofEffect
        (respects_branch ihCondition.value ihConsequent.effect ?_)
      rintro _ ⟨⟩
      exact ihAlternative.effect
  | loop condition body ihCondition ihBody =>
      rw [lower]
      exact Lowered.respects_ofEffect (respects_loop ihCondition.value ihBody.effect)
  | binary op left right ihLeft ihRight =>
      rw [lower]
      exact Lowered.respects_ofValue (respects_binary op ihLeft.value ihRight.value)
  | unary op operand ih =>
      cases op with
      | dereference =>
          rw [lower]
          exact Lowered.respects_ofPlace (respects_unary _ ih.value) ih.value
      | _ =>
          rw [lower]
          · exact Lowered.respects_ofValue (respects_unary _ ih.value)
          · intro same
            cases same
  | constant value =>
      rw [lower]
      exact Lowered.respects_ofValue (respects_constant value)
  | reference name =>
      rw [lower]
      exact Lowered.respects_ofPlace (respects_reference name) (respects_referenceAddress name)

end Node

/-! ## Items -/

namespace Emitter

theorem respects_enter (scope : Scope) : (enter scope).Respects view :=
  respects_change fun _ => rfl

theorem respects_procedure (heading : Header) (locals : List Declaration) {body : Emitter Unit}
    (inner : body.Respects view) : (procedure heading locals body).Respects view := by
  have reach : ∀ scope, (noteReach heading.name scope).Respects view := by
    intro scope
    unfold noteReach
    split
    · exact respects_note _
    · exact respects_pure ()
  have make : ∀ words, (makeFrame words).Respects view := by
    intro words
    unfold makeFrame
    split
    · exact respects_emit rfl
    · exact respects_pure ()
  have leave : ∀ words, (leaveFrame words).Respects view := by
    intro words
    unfold leaveFrame
    split
    · exact (respects_emit rfl).bind fun _ => respects_emit rfl
    · exact respects_emit rfl
  exact (respects_note _).bind fun _ => (reach _).bind fun _ => (respects_emit rfl).bind fun _ =>
    (respects_annotate _).bind fun _ => (respects_enter _).bind fun _ => (make _).bind fun _ =>
      inner.bind fun _ => leave _

/-- **An item of any shape is lowered alike with every view.** -/
theorem respects_item (node : Node) : (item node).Respects view := by
  have loose : ∀ node : Node, (enter .empty >>= fun _ => node.lower.effect).Respects view :=
    fun node => (respects_enter _).bind fun _ => node.respects.effect
  induction node with
  | program items ih =>
      rw [item]
      induction items with
      | nil => exact respects_pure ()
      | cons node rest ihRest =>
          exact (ih node List.mem_cons_self).bind fun _ =>
            ihRest fun other member => ih other (.tail _ member)
  | procedure heading locals body =>
      rw [item]
      exact respects_procedure heading locals body.respects.effect
  | _ => exact loose _

end Emitter

end ProcLang
