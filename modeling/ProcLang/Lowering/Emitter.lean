import ProcLang.Assembly.Instruction
import ProcLang.Assembly.Label
import ProcLang.Event
import ProcLang.Syntax.Frame

/-!
# Emitting code

Lowering walks over a tree and emits instructions. An `Emitter` is one such
walk: it starts from a context, ends in a context, and adds to three outputs,
the code, the data, and the log. What was emitted before cannot be seen, so the
code of a walk depends on its context alone.

The context holds four counters. They are 32-bit: a walk that would take one
out of range does not finish (`Overflow`).
-/

set_option autoImplicit false

namespace ProcLang

/-- A counter would leave its range. -/
inductive Overflow where
  | addition
  | subtraction
  deriving DecidableEq, Repr, Inhabited

/-- The wording of an overflow. -/
def Overflow.message : Overflow → String
  | addition => "attempt to add with overflow"
  | subtraction => "attempt to subtract with overflow"

/-- Add to a counter. -/
def countUp (counter amount : Nat) : Except Overflow Nat :=
  if counter + amount ≤ maxCount then .ok (counter + amount) else .error .addition

/-- Subtract from a counter. -/
def countDown (counter amount : Nat) : Except Overflow Nat :=
  if amount ≤ counter then .ok (counter - amount) else .error .subtraction

/-- What a walk over a tree needs to know. -/
structure Context where
  /-- Whether remarks are emitted. -/
  annotate : Bool
  /-- The register in which the next value is to be left. -/
  cursor : Nat
  /-- The number of the next choice or loop. -/
  nextLabel : Nat
  /-- The arguments that the innermost call has pushed so far. -/
  pendingArguments : Nat
  /-- The words pushed above the frame. -/
  pushed : Nat
  /-- The names of the procedure being lowered. -/
  scope : Scope
  /-- The globals known so far, the latest first. -/
  globals : List Declaration
  deriving DecidableEq, Repr, Inhabited

namespace Context

/-- The context in which lowering starts. -/
def initial (annotate : Bool) : Context :=
  ⟨annotate, Register.scratchBase, 0, 0, 0, .empty, []⟩

/-- The size of a global; the latest declaration of a name counts. -/
def globalSize? (context : Context) (name : String) : Option UInt32 :=
  (context.globals.find? fun declared => declared.name == name).map Declaration.size

end Context

/-- What a walk adds to the outputs. -/
structure Output where
  code : List Instruction
  data : List Instruction
  events : List Event
  deriving DecidableEq, Repr, Inhabited

namespace Output

/-- No output. -/
def empty : Output := ⟨[], [], []⟩

/-- One output after another. -/
def append (first second : Output) : Output :=
  ⟨first.code ++ second.code, first.data ++ second.data, first.events ++ second.events⟩

instance : Append Output := ⟨append⟩

@[simp] theorem code_append (first second : Output) :
    (first ++ second).code = first.code ++ second.code := rfl

@[simp] theorem data_append (first second : Output) :
    (first ++ second).data = first.data ++ second.data := rfl

@[simp] theorem events_append (first second : Output) :
    (first ++ second).events = first.events ++ second.events := rfl

@[simp] theorem empty_append (output : Output) : empty ++ output = output := rfl

@[simp] theorem append_empty (output : Output) : output ++ empty = output := by
  show Output.mk _ _ _ = output
  simp [empty]

theorem append_assoc (first second third : Output) :
    first ++ second ++ third = first ++ (second ++ third) := by
  show Output.mk _ _ _ = Output.mk _ _ _
  simp

end Output

/-- Where a walk ends: its result, the context it leaves, and what it emitted. -/
structure Emitted (α : Type) where
  value : α
  context : Context
  output : Output

/-- A walk that emits code. -/
structure Emitter (α : Type) where
  run : Context → Except Overflow (Emitted α)

namespace Emitter

variable {α β : Type}

/-- Emit nothing. -/
protected def pure (value : α) : Emitter α :=
  ⟨fun context => .ok ⟨value, context, .empty⟩⟩

/-- One walk after another. -/
protected def bind (first : Emitter α) (second : α → Emitter β) : Emitter β :=
  ⟨fun context =>
    match first.run context with
    | .error overflow => .error overflow
    | .ok before =>
        match (second before.value).run before.context with
        | .error overflow => .error overflow
        | .ok after => .ok ⟨after.value, after.context, before.output ++ after.output⟩⟩

instance : Monad Emitter where
  pure := Emitter.pure
  bind := Emitter.bind

@[simp] theorem run_pure (value : α) (context : Context) :
    (pure value : Emitter α).run context = .ok ⟨value, context, .empty⟩ := rfl

theorem run_bind (first : Emitter α) (second : α → Emitter β) (context : Context) :
    (first >>= second).run context =
      match first.run context with
      | .error overflow => .error overflow
      | .ok before =>
          match (second before.value).run before.context with
          | .error overflow => .error overflow
          | .ok after => .ok ⟨after.value, after.context, before.output ++ after.output⟩ := rfl

theorem id_map (walk : Emitter α) : id <$> walk = walk := by
  show Emitter.mk _ = walk
  congr 1
  funext context
  cases walk.run context <;> simp [Emitter.pure]

theorem pure_bind (value : α) (next : α → Emitter β) : pure value >>= next = next value := by
  show Emitter.mk _ = next value
  congr 1
  funext context
  cases done : (next value).run context <;> simp [done]

theorem bind_assoc {γ : Type} (first : Emitter α) (second : α → Emitter β)
    (third : β → Emitter γ) :
    first >>= second >>= third = first >>= fun value => second value >>= third := by
  show Emitter.mk _ = Emitter.mk _
  congr 1
  funext context
  simp only [run_bind]
  cases first.run context with
  | error overflow => rfl
  | ok before =>
    simp only
    cases (second before.value).run before.context with
    | error overflow => rfl
    | ok between =>
      simp only
      cases (third between.value).run between.context with
      | error overflow => rfl
      | ok after => simp only [Output.append_assoc]

instance : LawfulMonad Emitter :=
  LawfulMonad.mk' _ id_map pure_bind bind_assoc

/-! ## Single steps -/

/-- Emit an instruction. -/
def emit (instruction : Instruction) : Emitter Unit :=
  ⟨fun context => .ok ⟨(), context, ⟨[instruction], [], []⟩⟩⟩

/-- Reserve storage for a global. -/
def reserveGlobal (declared : Declaration) : Emitter Unit :=
  ⟨fun context => .ok ⟨(), context,
    ⟨[], [.label (Label.global declared.name).text, .reserve declared.size], []⟩⟩⟩

/-- Log an event. -/
def note (event : Event) : Emitter Unit :=
  ⟨fun context => .ok ⟨(), context, ⟨[], [], [event]⟩⟩⟩

/-- Look at the context. -/
def context : Emitter Context :=
  ⟨fun context => .ok ⟨context, context, .empty⟩⟩

/-- Change the context. -/
def change (f : Context → Except Overflow Context) : Emitter Unit :=
  ⟨fun context =>
    match f context with
    | .ok changed => .ok ⟨(), changed, .empty⟩
    | .error overflow => .error overflow⟩

/-- Emit a remark if remarks are wanted. -/
def annotate (text : String) : Emitter Unit := do
  if (← context).annotate then emit (.comment text)

/-! ## Scratch registers -/

/-- The register in which the next value is to be left. -/
def cursor : Emitter Register := do
  return .general (← context).cursor

/-- Leave the next value in a given register. -/
def setCursor (index : Nat) : Emitter Unit :=
  change fun context => .ok { context with cursor := index }

/-- Leave the next value in the first scratch register. -/
def resetCursor : Emitter Unit :=
  setCursor Register.scratchBase

/-- Move to the next scratch register. -/
def advanceCursor : Emitter Register := do
  change fun context => do
    return { context with cursor := ← countUp context.cursor 1 }
  cursor

/-- Move back to the scratch register before. -/
def retreatCursor : Emitter Unit :=
  change fun context => do
    return { context with cursor := ← countDown context.cursor 1 }

/-! ## Labels, scopes and globals -/

/-- A number for a choice or a loop; each is given once. -/
def freshLabel : Emitter Nat := do
  let id := (← context).nextLabel
  change fun context => do
    return { context with nextLabel := ← countUp context.nextLabel 1 }
  return id

/-- Start on a procedure, with nothing pushed. -/
def enter (scope : Scope) : Emitter Unit :=
  change fun context =>
    .ok { context with
      scope := scope
      pushed := 0
      pendingArguments := 0
      cursor := Register.scratchBase }

/-- Make the size of a global known. -/
def recordGlobal (declared : Declaration) : Emitter Unit :=
  change fun context => .ok { context with globals := declared :: context.globals }

end Emitter

end ProcLang
