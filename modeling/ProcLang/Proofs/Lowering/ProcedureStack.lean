import ProcLang.Proofs.Lowering.StackHeight

/-!
# The stack of a procedure

The code of a procedure makes a frame, runs the body and takes the frame back.
The body is level code, so the height of the stack at a position does not depend
on the path that control takes to it, the frame is never given up early, and the
one return, at the end, finds the stack where the caller left it.
-/

set_option autoImplicit false

namespace ProcLang

section Framed

variable {before inner after code : List Instruction}

theorem displacement_append {position : Nat} (inside : position ≤ inner.length) :
    displacement (before ++ inner ++ after) (before.length + position) =
      stackMove before + displacement inner position := by
  rw [displacement, List.append_assoc, List.take_length_add_append,
    List.take_append_of_le_length inside, stackMove_append, displacement]

/-- An instruction of the whole that is in neither end is in the middle. -/
theorem exists_getElem?_of_not_mem {position : Nat} {instruction : Instruction}
    (found : (before ++ inner ++ after)[position]? = some instruction)
    (notBefore : instruction ∉ before) (notAfter : instruction ∉ after) :
    ∃ place, position = before.length + place ∧ inner[place]? = some instruction := by
  rcases Nat.lt_or_ge position before.length with early | late
  · rw [List.append_assoc, List.getElem?_append_left early] at found
    exact absurd (List.mem_of_getElem? found) notBefore
  · rw [List.append_assoc, List.getElem?_append_right late] at found
    rcases Nat.lt_or_ge (position - before.length) inner.length with inside | outside
    · rw [List.getElem?_append_left inside] at found
      exact ⟨position - before.length, by omega, found⟩
    · rw [List.getElem?_append_right outside] at found
      exact absurd (List.mem_of_getElem? found) notAfter

/-- Level code between two ends without jumps, of which the first has no label of
a choice or a loop. -/
structure Framed (before inner after : List Instruction) (low high : Nat) : Prop where
  level : StaysLevel low high (stackMove before) inner
  unused : usedLabels before = []
  unused' : usedLabels after = []
  undefined : ∀ place : Label, place.choice?.isSome → .label place.text ∉ before
  undefined' : definedLabels after = []

theorem Framed.getElem?_of_used {low high : Nat} (framed : Framed before inner after low high)
    {position : Nat} {instruction : Instruction} {name : String}
    (found : (before ++ inner ++ after)[position]? = some instruction)
    (used : instruction.usedLabel? = some name) :
    ∃ place, position = before.length + place ∧ inner[place]? = some instruction := by
  apply exists_getElem?_of_not_mem found
  · intro member
    have listed : name ∈ usedLabels before := List.mem_filterMap.mpr ⟨_, member, used⟩
    simp [framed.unused] at listed
  · intro member
    have listed : name ∈ usedLabels after := List.mem_filterMap.mpr ⟨_, member, used⟩
    simp [framed.unused'] at listed

/-- Wherever control continues at a label, the label is defined, and at the same
height. -/
theorem Framed.displacement_eq {low high : Nat} (framed : Framed before inner after low high)
    {position : Nat} {instruction : Instruction} {name : String}
    (found : (before ++ inner ++ after)[position]? = some instruction)
    (used : instruction.usedLabel? = some name) :
    (∃ target : Nat, (before ++ inner ++ after)[target]? = some (.label name)) ∧
      ∀ target : Nat, (before ++ inner ++ after)[target]? = some (.label name) →
        displacement (before ++ inner ++ after) position =
          displacement (before ++ inner ++ after) target := by
  obtain ⟨place, rfl, inside⟩ := framed.getElem?_of_used found used
  obtain ⟨heights, steady⟩ := framed.level.steady
  have listed : name ∈ usedLabels inner :=
    List.mem_filterMap.mpr ⟨_, List.mem_of_getElem? inside, used⟩
  have defined := mem_definedLabels.mp (framed.level.closed name listed)
  obtain ⟨label, id, choice, rfl, -, -, stands⟩ := steady.standsAt inside (.inr used)
  constructor
  · exact List.getElem?_of_mem (List.mem_append_left _ (List.mem_append_right _ defined))
  · intro target found'
    obtain ⟨place', rfl, inside'⟩ := exists_getElem?_of_not_mem found'
      (framed.undefined label (by simp [choice]))
      (by rw [← mem_definedLabels, framed.undefined']; exact List.not_mem_nil)
    obtain ⟨label', id', choice', spelled, -, -, stands'⟩ := steady.standsAt inside' (.inl rfl)
    -- Both places spell one label, so they belong to one choice or loop.
    obtain rfl := Label.text_injective spelled
    obtain rfl : id = id' := by simpa [choice] using choice'
    rw [displacement_append (Nat.le_of_lt (List.getElem?_eq_some_iff.mp inside).1),
      displacement_append (Nat.le_of_lt (List.getElem?_eq_some_iff.mp inside').1), ← stands,
      ← stands']

theorem Framed.le_displacement {low high : Nat} (framed : Framed before inner after low high)
    {position : Nat} (late : before.length ≤ position)
    (early : position ≤ before.length + inner.length) :
    stackMove before ≤ displacement (before ++ inner ++ after) position := by
  obtain ⟨heights, steady⟩ := framed.level.steady
  obtain ⟨place, rfl⟩ := Nat.exists_eq_add_of_le late
  have above := steady.floor_le (by rw [framed.level.net]; omega) place
  rw [displacement_append (by omega)]
  exact above

end Framed

/-- The code in front of the body of a procedure. -/
def prologue (annotate : Bool) (heading : Header) (words : Nat) : List Instruction :=
  .label (Label.procedure heading.name).text ::
    (Plan.remark annotate ("frame " ++ Decimal.text words ++ " words, " ++
      Decimal.text heading.parameters.length ++ " args")).code ++ frameCode words

/-- The code after the body of a procedure. -/
def epilogue (words : Nat) : List Instruction :=
  dropCode words ++ [.ret]

theorem Plan.code_procedure (annotate : Bool) (heading : Header) (locals : List Declaration)
    (body : Plan) (label : Nat) :
    (Plan.procedure annotate heading locals body label).code =
      prologue annotate heading (Scope.frameSize ⟨locals, heading.parameters⟩) ++
        (body.effect 0 label).code ++
        epilogue (Scope.frameSize ⟨locals, heading.parameters⟩) := by
  have reached : (reach heading.name ⟨locals, heading.parameters⟩).code = [] := by
    unfold reach
    split <;> rfl
  simp [Plan.procedure, prologue, epilogue, reached]

section Ends

variable (annotate : Bool) (heading : Header) (words : Nat)

theorem mem_prologue {instruction : Instruction}
    (member : instruction ∈ prologue annotate heading words) :
    instruction = .label (Label.procedure heading.name).text ∨
      (∃ text, instruction = .comment text) ∨
      instruction = .addImmediate .stack .stack (wordImmediate words) := by
  have remarked : ∀ text, instruction ∈ (Plan.remark annotate text).code →
      instruction = .comment text := by
    intro text
    cases annotate <;> simp [Plan.remark]
  have framed : instruction ∈ frameCode words →
      instruction = .addImmediate .stack .stack (wordImmediate words) := by
    unfold frameCode
    split <;> simp
  rcases List.mem_append.mp member with member | member
  · rcases List.mem_cons.mp member with same | member
    · exact .inl same
    · exact .inr (.inl ⟨_, remarked _ member⟩)
  · exact .inr (.inr (framed member))

theorem mem_epilogue {instruction : Instruction} (member : instruction ∈ epilogue words) :
    instruction = .addImmediate .stack .stack (-wordImmediate words) ∨ instruction = .ret := by
  unfold epilogue dropCode at member
  by_cases some : 0 < words
  · simpa [some] using member
  · exact .inr (by simpa [some] using member)

theorem stackMove_frameCode : stackMove (frameCode words) = (wordImmediate words).toInt := by
  unfold frameCode
  by_cases some : 0 < words
  · simp [some, Instruction.stackMove]
  · simp [toInt_wordImmediate, Nat.eq_zero_of_not_pos some]

theorem stackMove_prologue :
    stackMove (prologue annotate heading words) = (wordImmediate words).toInt := by
  have still : ∀ text, stackMove (Plan.remark annotate text).code = 0 := by
    intro text
    unfold Plan.remark
    split <;> rfl
  simp [prologue, still, stackMove_frameCode, Instruction.stackMove]

theorem framed_of_staysLevel {inner : List Instruction} {low high : Nat}
    (level : StaysLevel low high (wordImmediate words).toInt inner) :
    Framed (prologue annotate heading words) inner (epilogue words) low high where
  level := by rwa [stackMove_prologue]
  unused := by
    rw [usedLabels, List.filterMap_eq_nil_iff]
    intro instruction member
    rcases mem_prologue annotate heading words member with rfl | ⟨text, rfl⟩ | rfl <;> rfl
  unused' := by
    rw [usedLabels, List.filterMap_eq_nil_iff]
    intro instruction member
    rcases mem_epilogue words member with rfl | rfl <;> rfl
  undefined := by
    intro place choice member
    rcases mem_prologue annotate heading words member with same | ⟨text, same⟩ | same
    · obtain rfl := Label.text_injective (Instruction.label.inj same)
      simp [Label.choice?] at choice
    · cases same
    · cases same
  undefined' := by
    rw [definedLabels, List.filterMap_eq_nil_iff]
    intro instruction member
    rcases mem_epilogue words member with rfl | rfl <;> rfl

/-- The return is the last instruction and no other. -/
theorem getElem?_eq_ret_iff {inner : List Instruction} (notRet : .ret ∉ inner) (position : Nat) :
    (prologue annotate heading words ++ inner ++ epilogue words)[position]? = some .ret ↔
      position + 1 = (prologue annotate heading words ++ inner ++ epilogue words).length := by
  have notBefore : .ret ∉ prologue annotate heading words := by
    intro member
    rcases mem_prologue annotate heading words member with same | ⟨text, same⟩ | same <;> cases same
  have notDrop : .ret ∉ dropCode words := by
    unfold dropCode
    split <;> simp
  have absent : .ret ∉ prologue annotate heading words ++ inner ++ dropCode words := by
    simp [notBefore, notRet, notDrop]
  rw [epilogue, ← List.append_assoc, List.length_append]
  constructor
  · intro found
    rcases Nat.lt_or_ge position
      (prologue annotate heading words ++ inner ++ dropCode words).length with early | late
    · rw [List.getElem?_append_left early] at found
      exact absurd (List.mem_of_getElem? found) absent
    · rw [List.getElem?_append_right late] at found
      have last := (List.getElem?_eq_some_iff.mp found).1
      simp only [List.length_singleton] at last ⊢
      omega
  · intro last
    obtain rfl := Nat.succ.inj last
    exact List.getElem?_concat_length

theorem displacement_last {inner : List Instruction} (level : stackMove inner = 0) :
    displacement (prologue annotate heading words ++ inner ++ epilogue words)
      ((prologue annotate heading words ++ inner ++ epilogue words).length - 1) = 0 := by
  rw [epilogue, ← List.append_assoc, List.length_append, List.length_singleton,
    Nat.add_sub_cancel, displacement, List.take_left]
  simp only [stackMove_append, stackMove_prologue, stackMove_dropCode, level]
  omega

theorem returned_ends {inner : List Instruction} {calls : List (String × Nat)}
    (returned : Returned inner calls) :
    Returned (prologue annotate heading words ++ inner ++ epilogue words) calls := by
  have first : Returned (prologue annotate heading words) [] := by
    refine returned_of_not_mem fun name member => ?_
    rcases mem_prologue annotate heading words member with same | ⟨text, same⟩ | same <;> cases same
  have last : Returned (epilogue words) [] := by
    refine returned_of_not_mem fun name member => ?_
    rcases mem_epilogue words member with same | same <;> cases same
  simpa using (first.append returned).append last

end Ends

namespace Emitter

/-- **The height of the stack is the same on every path through a procedure.**
Wherever the code of a procedure jumps, the label is in the code and stands at
the height of the jump; the body never goes below the frame; the one return is
the last instruction, at the height of the entry; and every call is followed by
the code that drops its arguments and pops the link register. -/
theorem item_procedure_level (heading : Header) (locals : List Declaration) (body : Node)
    (before : Context) (emitted : Emitted Unit)
    (few : ∀ call ∈ body.generalCalls, call.2 < 2 ^ 31)
    (lowered : (item (.procedure heading locals body)).run before = .ok emitted) :
    let code := emitted.output.code
    let words := Scope.frameSize ⟨locals, heading.parameters⟩
    (∀ (position : Nat) (name : String),
      (code[position]? = some (.jump name) ∨
        ∃ register, code[position]? = some (.branchIfZero register name)) →
      (∃ target : Nat, code[target]? = some (.label name)) ∧
        ∀ target : Nat, code[target]? = some (.label name) →
          displacement code position = displacement code target) ∧
    (∃ inner, code = prologue before.annotate heading words ++ inner ++ epilogue words ∧
      ∀ position, (prologue before.annotate heading words).length ≤ position →
        position ≤ (prologue before.annotate heading words).length + inner.length →
        (wordImmediate words).toInt ≤ displacement code position) ∧
    (∀ position : Nat, code[position]? = some .ret ↔ position + 1 = code.length) ∧
    displacement code (code.length - 1) = 0 ∧
    Returned code body.generalCalls := by
  intro code words
  have counted : Node.Few body.generalCalls := fun call member =>
    Nat.le_of_lt_succ (few call member)
  obtain ⟨cursor, ends⟩ := ends_procedure heading locals body before
  have emittedPlan := congrArg (fun result => result.output.code) (ends emitted lowered)
  simp only [Plan.code_procedure] at emittedPlan
  have level := (body.plan_isLevel before.annotate
    (Scope.resolve ⟨locals, heading.parameters⟩ before.globals) counted).effect 0 before.nextLabel
    (wordImmediate words).toInt
  have framed := framed_of_staysLevel before.annotate heading words level
  obtain ⟨heights, steady⟩ := level.steady
  simp only [code, emittedPlan]
  refine ⟨?_, ⟨_, rfl, ?_⟩, getElem?_eq_ret_iff _ _ _ steady.ret_not_mem,
    displacement_last _ _ _ level.net,
    returned_ends _ _ _ ((body.plan_returns _ _ counted).effect 0 before.nextLabel)⟩
  · rintro position name (found | ⟨register, found⟩)
    · exact framed.displacement_eq found rfl
    · exact framed.displacement_eq found rfl
  · intro position late early
    rw [← stackMove_prologue before.annotate heading words]
    exact framed.le_displacement late early

/-- A procedure `f(n)` whose loop has a choice, and in it a call inside a call. -/
theorem item_procedure_level_nested :
    ∃ emitted, (item (.procedure ⟨"f", ["n"]⟩ [⟨"x", 1⟩]
        (.loop (.reference "n") (.branch (.reference "x")
          (.call "f" [.call "f" [.reference "x"]]) none)))).run (Context.initial false) =
        .ok emitted ∧
      (∀ position : Nat, emitted.output.code[position]? = some .ret ↔
        position + 1 = emitted.output.code.length) ∧
      displacement emitted.output.code (emitted.output.code.length - 1) = 0 ∧
      Returned emitted.output.code [("f", 1), ("f", 1)] := by
  have lowered : ∃ emitted, (item (.procedure ⟨"f", ["n"]⟩ [⟨"x", 1⟩]
      (.loop (.reference "n") (.branch (.reference "x")
        (.call "f" [.call "f" [.reference "x"]]) none)))).run (Context.initial false) =
      .ok emitted := ⟨_, rfl⟩
  obtain ⟨emitted, ran⟩ := lowered
  refine ⟨emitted, ran, (item_procedure_level _ _ _ _ emitted ?_ ran).2.2⟩
  decide

end Emitter

end ProcLang
