import ProcLang.Proofs.Lowering.LegibleCode
import ProcLang.Proofs.Lowering.Remarks
import ProcLang.Proofs.Lowering.StaticStorage

/-!
# Remarks are all that annotation adds

A program that is lowered with remarks and one that is lowered without differ in the
remarks alone, whatever the shape of the tree: the walk over the tree is muted, and there
are no remarks among the storage (`filter_reserve`). For a program that was read from a
source text this shows in the listing as well, where the remarks are the lines that start
with a tab and a semicolon (`lowerProgram_unannotated`).
-/

set_option autoImplicit false

namespace ProcLang

/-- The storage of a program of any shape. -/
theorem Emitter.data_of_run_program {entry : String} {root : Node} {annotate : Bool}
    {emitted : Emitted Unit}
    (ran : (program entry root).run (Context.initial annotate) = .ok emitted) :
    emitted.output.data = (Plan.reserve root.staticStorage).data := by
  rw [program_eq, item_eq_forM] at ran
  obtain ⟨middle, last, first, second, whole⟩ := exists_of_run_bind ran
  obtain rfl := ends_opening entry root annotate middle first
  obtain ⟨outputs, itemized, -, data⟩ := exists_itemized root.isProgram_of_mem_leaves second
  rw [whole, Output.data_append, data, itemized.data_eq root.isProgram_of_mem_leaves]
  simp [Node.staticStorage]

/-- There are no remarks among the storage. -/
theorem filter_reserve (declared : List Declaration) :
    ((Plan.reserve declared).data.filter fun instruction => !instruction.isRemark) =
      (Plan.reserve declared).data := by
  rw [List.filter_eq_self]
  intro instruction member
  obtain ⟨entry, -, listed⟩ := List.mem_flatMap.mp member
  rcases List.mem_pair.mp listed with rfl | rfl <;> rfl

theorem lowerProgram_muted (entry : String) (root : Node) :
    (lowerProgram ⟨entry, false⟩ root).map LoweredProgram.instructions =
      (lowerProgram ⟨entry, true⟩ root).map fun program =>
        program.instructions.filter fun instruction => !instruction.isRemark := by
  have muted := Emitter.mutes_program entry root (Context.initial true)
  have plain : (Context.initial true).muted = Context.initial false := rfl
  rw [plain] at muted
  unfold lowerProgram
  cases ran : (Emitter.program entry root).run (Context.initial true) with
  | error overflow =>
      rw [ran] at muted
      simp only [muted]
      rfl
  | ok emitted =>
      rw [ran] at muted
      have stored := Emitter.data_of_run_program ran
      simp only [muted]
      show Except.ok (emitted.output.muted.code ++ emitted.output.data ++ [_]) =
        Except.ok (List.filter _ (emitted.output.code ++ emitted.output.data ++ [_]))
      rw [List.filter_append, List.filter_append, stored, filter_reserve]
      rfl

/-- **Remarks never change the code.** Whatever is lowered, taking the remarks out of the
annotated program gives the program that is not annotated. If the tree was read from a
source text and the entry is spelled like an identifier, taking the lines that start with
a tab and a semicolon out of the annotated listing gives the other listing. -/
theorem lowerProgram_unannotated (entry : String) (root : Node) :
    ((lowerProgram ⟨entry, false⟩ root).map fun program => program.instructions) =
      ((lowerProgram ⟨entry, true⟩ root).map fun program =>
        program.instructions.filter fun instruction => !instruction.isRemark) ∧
    ∀ source events, parse source = (.ok root, events) → isIdentifier entry →
      ((lowerProgram ⟨entry, false⟩ root).map fun program => listing program.instructions) =
        (lowerProgram ⟨entry, true⟩ root).map fun program =>
          withoutRemarks (listing program.instructions) := by
  have muted := lowerProgram_muted entry root
  refine ⟨muted, fun source events parsed named => ?_⟩
  have listed : ((lowerProgram ⟨entry, false⟩ root).map fun program =>
      listing program.instructions) =
      ((lowerProgram ⟨entry, false⟩ root).map LoweredProgram.instructions).map listing := by
    cases lowerProgram ⟨entry, false⟩ root <;> rfl
  rw [listed, muted]
  cases lowered : lowerProgram ⟨entry, true⟩ root with
  | error overflow => rfl
  | ok program =>
      have legible := legible_lowerProgram parsed named lowered
      exact congrArg Except.ok (withoutRemarks_listing legible).symm

/-- A procedure that calls itself. -/
def selfText : String :=
  "proc main() begin main() end"

/-- The tree of the program. -/
def selfTree : Node :=
  .program [.procedure ⟨"main", []⟩ [] (.block [.call "main" []])]

set_option maxRecDepth 8000 in
/-- The program has two remarks if it is annotated, and none otherwise. -/
theorem lowerProgram_unannotated_self :
    (parse selfText).1 = .ok selfTree ∧ isIdentifier "main" ∧
      ∃ plain annotated, lowerProgram ⟨"main", false⟩ selfTree = .ok plain ∧
        lowerProgram ⟨"main", true⟩ selfTree = .ok annotated ∧
        annotated.instructions.filter Instruction.isRemark =
          [.comment "frame 0 words, 0 args", .comment "call main (0 args)"] ∧
        plain.instructions =
          (annotated.instructions.filter fun instruction => !instruction.isRemark) ∧
        listing plain.instructions = withoutRemarks (listing annotated.instructions) := by
  have outcome : (parse selfText).1 = .ok selfTree := by with_unfolding_all rfl
  have parsed : parse selfText = (.ok selfTree, (parse selfText).2) := Prod.ext outcome rfl
  have named : isIdentifier "main" := by decide
  obtain ⟨code, text⟩ := lowerProgram_unannotated "main" selfTree
  have text := text selfText (parse selfText).2 parsed named
  have remarks : ((lowerProgram ⟨"main", true⟩ selfTree).map fun program =>
      program.instructions.filter Instruction.isRemark) =
      .ok [.comment "frame 0 words, 0 args", .comment "call main (0 args)"] := by
    with_unfolding_all rfl
  obtain ⟨plain, lowered⟩ : ∃ plain, lowerProgram ⟨"main", false⟩ selfTree = .ok plain := ⟨_, rfl⟩
  obtain ⟨annotated, remarked⟩ :
      ∃ annotated, lowerProgram ⟨"main", true⟩ selfTree = .ok annotated := ⟨_, rfl⟩
  rw [remarked] at remarks
  rw [lowered, remarked] at code text
  exact ⟨outcome, named, plain, annotated, lowered, remarked, Except.ok.inj remarks,
    Except.ok.inj code, Except.ok.inj text⟩

end ProcLang
