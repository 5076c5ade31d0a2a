import ProcLang.Proofs.Lowering.View

/-!
# Lowering without remarks

Whether remarks are wanted is part of the context of a walk, and nothing else
that a walk does depends on it. `Emitter.Mutes` says so in one equation: a walk
from a context that wants no remarks does what it does from the same context
otherwise, less the remarks it emits. It fails where the other fails.

The equation is that of a view in which no remarks are wanted (`View.muting`), so it
holds of a tree of any shape. A program is therefore lowered with remarks exactly if it
is lowered without, and whatever procedure it starts from (`isOk_lowerProgram`).
-/

set_option autoImplicit false

namespace ProcLang

/-- The context in which no remarks are wanted. -/
def Context.muted (context : Context) : Context :=
  { context with annotate := false }

/-- An output without its remarks. -/
def Output.muted (output : Output) : Output :=
  { output with code := output.code.filter fun instruction => !instruction.isRemark }

theorem Output.muted_append (first second : Output) :
    (first ++ second).muted = first.muted ++ second.muted := by
  show Output.mk _ _ _ = Output.mk _ _ _
  simp [muted]

/-- The view in which no remarks are wanted. -/
def View.muting : View where
  annotate := fun _ => false
  globals := id
  output := Output.muted
  size_eq := fun _ _ => rfl
  output_empty := rfl
  output_append := Output.muted_append
  output_code := by
    intro instruction needed
    simp [Output.muted, needed]
  output_data := fun _ => rfl
  output_event := fun _ => rfl
  output_remark := by
    intro wanted text
    cases wanted <;> rfl

namespace Emitter

variable {α β : Type}

/-- The end of a walk without the remarks it emitted. -/
def muteEnd (emitted : Emitted α) : Emitted α :=
  ⟨emitted.value, emitted.context.muted, emitted.output.muted⟩

/-- Without remarks, a walk does what it does with them, less the remarks. -/
def Mutes (walk : Emitter α) : Prop :=
  ∀ before, walk.run before.muted = (walk.run before).map muteEnd

theorem Respects.mutes {walk : Emitter α} (respects : walk.Respects .muting) : walk.Mutes :=
  respects

/-! ## Programs -/

theorem mutes_program (entry : String) (root : Node) : (program entry root).Mutes := by
  have start : (do
      emit (.loadAddress .stack Label.stackBegin.text)
      emit (.call (Label.procedure entry).text)
      emit .halt
      item root).Respects .muting :=
    (respects_emit rfl).bind fun _ => (respects_emit rfl).bind fun _ =>
      (respects_emit rfl).bind fun _ => respects_item root
  have record : ∀ declared, (recordGlobal declared).Respects .muting := fun _ =>
    respects_change fun _ => rfl
  refine Respects.mutes ((respects_forM fun one _ => record one).bind fun _ => ?_)
  split
  · exact start
  · exact (respects_note _).bind fun _ => start

theorem isOk_run_bind (first : Emitter α) (second : α → Emitter β) (before : Context) :
    ((first >>= second).run before).isOk =
      match first.run before with
      | .error _ => false
      | .ok between => ((second between.value).run between.context).isOk := by
  rw [run_bind]
  rcases first.run before with overflow | between
  · rfl
  · dsimp only
    rcases (second between.value).run between.context with overflow | after <;> rfl

/-- Whether a program is lowered depends on its items, not on where it starts. -/
theorem isOk_run_program (entry : String) (root : Node) (before : Context) :
    ((program entry root).run before).isOk =
      ((root.globalDeclarations.forM recordGlobal >>= fun _ => item root).run before).isOk := by
  unfold program
  rw [isOk_run_bind, isOk_run_bind]
  rcases (root.globalDeclarations.forM recordGlobal).run before with overflow | between
  · rfl
  · dsimp only
    split
    · simp only [isOk_run_bind, emit]
    · simp only [isOk_run_bind, emit, note]

end Emitter

open Emitter

/-- Neither the entry nor remarks decide whether a program is lowered. -/
theorem isOk_lowerProgram (options options' : LoweringOptions) (root : Node) :
    (lowerProgram options root).isOk = (lowerProgram options' root).isOk := by
  have plain : ∀ options : LoweringOptions, (lowerProgram options root).isOk =
      ((root.globalDeclarations.forM recordGlobal >>= fun _ => item root).run
        (Context.initial false)).isOk := by
    intro options
    have muted := mutes_program options.entry root (Context.initial options.annotate)
    have same : (Context.initial options.annotate).muted = Context.initial false := rfl
    rw [← isOk_run_program options.entry, ← same, muted, lowerProgram]
    rcases (program options.entry root).run (Context.initial options.annotate) with
      overflow | emitted <;> rfl
  rw [plain, plain]

end ProcLang
