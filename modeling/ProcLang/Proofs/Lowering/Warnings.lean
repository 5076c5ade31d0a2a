import ProcLang.Proofs.Lowering.ProgramPlan

/-!
# Warnings of lowering

Lowering warns of a procedure inside a statement, of arguments that an intrinsic does
not use, of a frame that is out of reach, and of an entry that no procedure defines.
The grammar rules out the first three, so a program of procedures and declarations gives
at most the last (`keep_warn_lowerProgram`).
-/

set_option autoImplicit false

namespace ProcLang

/-- The warnings in the log of an output. -/
def Output.warnings (output : Output) : List Event :=
  Event.keep .warn output.events

theorem Output.aside_warnings : Output.Aside Output.warnings where
  append first second := List.filter_append first.events second.events
  code _ := rfl
  event event ordinary := by
    have later : ¬ event.level.rank ≤ Level.warn.rank := by
      cases same : event.level with
      | warn =>
          rw [same] at ordinary
          cases ordinary
      | _ => decide
    simp [warnings, Event.keep, later]

namespace Node

variable {annotate : Bool} {globals : List Declaration}

/-- An item that the grammar reads gives no warning. -/
theorem warnings_itemOutput {item : Node} (shape : item.Item) (label : Nat) :
    (item.itemOutput annotate globals label).warnings = [] := by
  have aside := Output.aside_warnings
  cases shape with
  | declarations declared => rfl
  | @procedure heading locals body reach command =>
      have reached : (Plan.reach heading.name ⟨locals, heading.parameters⟩).warnings = [] := by
        rw [Plan.reach, if_neg (by simpa using Option.ne_none_iff_isSome.mpr reach)]
        rfl
      have inner := (@Command.lacks _ _ aside annotate
        (Scope.resolve ⟨locals, heading.parameters⟩ globals) body command).effect
      simp [itemOutput, Plan.procedure, aside.append, aside.code, reached, inner,
        Plan.part_remark aside, fun frame => aside.event
          (.procedure heading.name locals.length heading.parameters.length frame) rfl]

theorem warnings_itemsOutput {items : List Node} (shape : ∀ item ∈ items, item.Item)
    (label : Nat) : (itemsOutput annotate globals items label).warnings = [] := by
  induction items generalizing label with
  | nil => rfl
  | cons item rest ih =>
      rw [itemsOutput, Output.aside_warnings.append,
        warnings_itemOutput (shape item List.mem_cons_self),
        ih fun item member => shape item (.tail _ member)]
      rfl

end Node

/-- **The only warning for a program that the grammar reads** is that its entry is not
defined. -/
theorem keep_warn_lowerProgram {options : LoweringOptions} {items : List Node}
    {program : LoweredProgram} (shape : ∀ item ∈ items, item.Item)
    (lowered : lowerProgram options (.program items) = .ok program) :
    Event.keep .warn program.events =
      if (Node.program items).procedureNames.contains options.entry then []
      else [.entryUndefined options.entry] := by
  have aside := Output.aside_warnings
  obtain ⟨after, ends⟩ := Emitter.ends_program options.entry shape options.annotate
  unfold lowerProgram at lowered
  split at lowered
  next => cases lowered
  next emitted ran =>
    obtain rfl := ends emitted ran
    cases lowered
    have noted : (Emitter.entryNote options.entry (.program items)).warnings =
        if (Node.program items).procedureNames.contains options.entry then []
        else [.entryUndefined options.entry] := by
      unfold Emitter.entryNote
      split <;> rfl
    have last : ∀ code data, Event.keep .warn [.lowered code data] = [] := fun _ _ => rfl
    have planned : (Node.programOutput options.annotate items).warnings = [] :=
      Node.warnings_itemsOutput shape 0
    rw [Event.keep, List.filter_append, ← Event.keep, ← Event.keep, last, List.append_nil]
    change Output.warnings _ = _
    rw [aside.append, aside.append, noted, planned, aside.code, List.append_nil, List.append_nil]

end ProcLang
