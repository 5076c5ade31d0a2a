import ProcLang.Proofs.Lowering.ProgramItems
import ProcLang.Proofs.Lowering.Renumbering

/-!
# Procedures are lowered on their own

The code of a procedure depends on the options, on the globals, and on how many
choices and loops were lowered before it, and on nothing else. That number shows only
in the labels of the choices and loops of the procedure itself.
-/

set_option autoImplicit false

namespace ProcLang

namespace Emitter

variable (heading : Header) (locals : List Declaration) (body : Node)

/-- Counting from a later number on renumbers the code of a procedure. -/
theorem renumbers_procedure {annotate : Bool} {globals : List Declaration} {label : Nat}
    {first later : Emitted Unit}
    (ran : (procedure heading locals body.lower.effect).run (.fresh annotate globals 0) = .ok first)
    (ran' : (procedure heading locals body.lower.effect).run (.fresh annotate globals label) =
      .ok later) :
    later.output.code = renumberCode label first.output.code := by
  obtain ⟨cursor, ends⟩ := ends_procedure heading locals body (.fresh annotate globals 0)
  obtain ⟨cursor', ends'⟩ := ends_procedure heading locals body (.fresh annotate globals label)
  obtain rfl := ends first ran
  obtain rfl := ends' later ran'
  have renumbers : (body.plan annotate
      (Scope.resolve ⟨locals, heading.parameters⟩ globals)).Renumbers label := body.renumbers_plan
  have renumbered := Plan.renumbers_procedure annotate heading locals renumbers 0
  rw [Nat.zero_add] at renumbered
  exact renumbered

end Emitter

/-- **Procedures are lowered independently of their surroundings.** The code of a
program is that of its items in order. Each item emits what it emits from a fresh
context that knows the same globals, and in which the choices and loops lowered before
it have been counted. A procedure does the same from any context as from a fresh one
with the same globals and the same count, and a later count does no more than renumber
its choices and loops. From a count that leaves room for its nodes it is lowered. -/
theorem lowerProgram_independent (options : LoweringOptions) (root : Node) :
    (∀ program, lowerProgram options root = .ok program → ∃ outputs : List Output,
      program.instructions = startCode options.entry ++ outputs.flatMap Output.code ++
        outputs.flatMap Output.data ++ [.label Label.stackBegin.text] ∧
      outputs.length = root.leaves.length ∧
      ∀ earlier item later, root.leaves = earlier ++ item :: later →
        ∃ final, (Emitter.item item).run (.fresh options.annotate root.globalDeclarations.reverse
            (earlier.map Node.itemCount).sum) = .ok final ∧
          outputs[earlier.length]? = some final.output) ∧
    ∀ (heading : Header) (locals : List Declaration) (body : Node),
      let walk := Emitter.procedure heading locals body.lower.effect
      Emitter.item (.procedure heading locals body) = walk ∧
      (∀ before : Context, walk.run before =
        walk.run (.fresh before.annotate before.globals before.nextLabel)) ∧
      ∀ (annotate : Bool) (globals : List Declaration) (label : Nat),
        (∀ first later, walk.run (.fresh annotate globals 0) = .ok first →
          walk.run (.fresh annotate globals label) = .ok later →
          later.output.code = renumberCode label first.output.code) ∧
        (label + body.size ≤ maxCount → body.size + 6 ≤ maxCount →
          ∃ final, walk.run (.fresh annotate globals label) = .ok final) := by
  refine ⟨fun program lowered => ?_, fun heading locals body => ⟨rfl,
    Emitter.forgets_procedure heading locals _, fun annotate globals label =>
      ⟨fun first later => Emitter.renumbers_procedure heading locals body, fun labels small => ?_⟩⟩⟩
  · obtain ⟨outputs, itemized, whole⟩ := lowerProgram_itemized lowered
    refine ⟨outputs, whole, itemized.length_eq, fun earlier item later listed => ?_⟩
    have placed := itemized.exists_output listed
    rwa [Nat.zero_add] at placed
  · obtain ⟨after, output, yields, -⟩ :=
      Emitter.passes_procedure heading locals body (.fresh annotate globals label) labels small
    exact ⟨_, yields⟩

/-- A procedure after another with a loop, and after a choice outside both: its choice
is number two of the program. -/
theorem lowerProgram_independent_third :
    let body : Node := .branch (.reference "n") (.block []) none
    let root : Node := .program [.procedure ⟨"f", []⟩ [] (.loop (.constant 0) (.block [])),
      .program [.branch (.constant 1) (.block []) none], .procedure ⟨"main", ["n"]⟩ [] body]
    (∃ program, lowerProgram .standard root = .ok program) ∧
      ∃ first later, (Emitter.procedure ⟨"main", ["n"]⟩ [] body.lower.effect).run
          (.fresh false [] 0) = .ok first ∧
        (Emitter.procedure ⟨"main", ["n"]⟩ [] body.lower.effect).run (.fresh false [] 2) =
          .ok later ∧
        .label "if_0_end" ∈ first.output.code ∧ .label "if_2_end" ∈ later.output.code ∧
        later.output.code = renumberCode 2 first.output.code := by
  intro body root
  obtain ⟨program, lowered⟩ : ∃ program, lowerProgram .standard root = .ok program := ⟨_, rfl⟩
  obtain ⟨outputs, -, -, placed⟩ := (lowerProgram_independent .standard root).1 program lowered
  obtain ⟨later, ran, -⟩ := placed [_, _] _ [] rfl
  obtain ⟨-, -, counted⟩ := (lowerProgram_independent .standard root).2 ⟨"main", ["n"]⟩ [] body
  obtain ⟨first, start⟩ := (counted false [] 0).2 (by decide) (by decide)
  have renumbered := (counted false [] 2).1 first later start ran
  refine ⟨⟨program, lowered⟩, first, later, start, ran, ?_, ?_, renumbered⟩
  · cases start
    decide +kernel
  · cases ran
    decide +kernel

end ProcLang
