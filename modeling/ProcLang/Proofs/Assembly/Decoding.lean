import ProcLang.Proofs.Assembly.Label
import ProcLang.Proofs.Json.RoundTrip
import ProcLang.Proofs.Lowering.Completion
import ProcLang.Proofs.Lowering.LegibleCode

/-!
# A listing tells its instructions

Programs of legible instructions that have the same listing are the same program
(`listing_injective`). The lines of the listing are the lines of the instructions. How a line
starts shows whether it is a label or a remark, and any other line falls into words at its
blanks, which tell the instruction (`Instruction.words_injective`).

Instructions of different kinds rarely share their first word. A constant and the address of
a label are both loaded by `li`, but no label is spelled like a number; a jump and a call are
both `jal`, but they keep the return address in different registers.

A program that was read from a source text is lowered to legible instructions, so its
listing tells all of them, one on each line (`lowerProgram_listing_decodes`).
-/

set_option autoImplicit false

namespace ProcLang

/-! ## Spellings that differ -/

/-- A number is not spelled like an identifier. -/
theorem signedText_ne_of_isIdentifier {word : String} (named : isIdentifier word) (n : Int) :
    Decimal.signedText n ≠ word := by
  rintro rfl
  obtain ⟨c, run, spelled, start, -⟩ := exists_of_isIdentifier named
  obtain ⟨first, others, digits, numeric⟩ := Decimal.exists_signedDigits_cons n
  rw [Decimal.signedText, String.toList_ofList, digits] at spelled
  obtain ⟨rfl, -⟩ := List.cons.inj spelled
  rcases numeric with rfl | digit
  · exact absurd start (by decide)
  · rw [isNameStart_of_isDigit digit] at start
    cases start

/-- Characters of names are none of the others. -/
theorem not_mem_of_isNameChar {word : List Char} (all : ∀ c ∈ word, isNameChar c) {c : Char}
    (other : isNameChar c = false) : c ∉ word := by
  intro member
  rw [all c member] at other
  cases other

@[simp] theorem blank_not_mem_digits (n : Nat) : ' ' ∉ Decimal.digits n :=
  not_mem_of_isNameChar (fun _ => isNameChar_of_mem_digits) (by decide)

@[simp] theorem blank_not_mem_signedDigits (n : Int) : ' ' ∉ Decimal.signedDigits n := by
  cases n <;> simp [Decimal.signedDigits]

/-- Registers that have their numbers to themselves are told apart by their spelling. -/
theorem Register.text_inj {first second : Register} (proper : first.IsProper)
    (proper' : second.IsProper) : first.text = second.text ↔ first = second := by
  refine ⟨fun same => ?_, congrArg text⟩
  have numbers : first.number = second.number := by
    simpa [text, Decimal.text_inj] using same
  cases first <;> cases second <;> simp_all [number, scratchBase] <;> omega

namespace Operation

theorem text_inj {first second : Operation} : first.text = second.text ↔ first = second := by
  cases first <;> cases second <;> simp [text]

/-- The other instructions with three operands have mnemonics of their own. -/
theorem text_ne (op : Operation) : op.text ≠ "addi" ∧ op.text ≠ "lw" ∧ op.text ≠ "sw" := by
  cases op <;> simp [text]

end Operation

/-! ## Words of an instruction -/

namespace Instruction

/-- The words of an instruction, with blanks between them. A remark is one word, whatever
it holds. -/
def words : Instruction → List String
  | operate op target left right => [op.text, target.text, left.text, right.text]
  | addImmediate target source amount =>
      ["addi", target.text, source.text, Decimal.signedText amount.toInt]
  | complement target source => ["not", target.text, source.text]
  | loadImmediate target value => ["li", target.text, Decimal.signedText value.toInt]
  | loadAddress target place => ["li", target.text, place]
  | load target base offset => ["lw", target.text, base.text, Decimal.signedText offset.toInt]
  | store source base offset => ["sw", source.text, base.text, Decimal.signedText offset.toInt]
  | jump place => ["jal", Register.zero.text, place]
  | branchIfZero tested place => ["beqz", tested.text, place]
  | call place => ["jal", Register.link.text, place]
  | ret => ["jalr", Register.zero.text, Register.link.text]
  | read target => ["eread", target.text]
  | write source => ["ewrite", source.text]
  | halt => ["ehlt"]
  | label name => [name ++ ":"]
  | reserve words => ["data", "0", Decimal.text words.toNat]
  | comment remark => [";", remark]

theorem text_eq_intercalate (instruction : Instruction) :
    instruction.text = " ".intercalate instruction.words := by
  apply String.toList_inj.mp
  cases instruction <;> simp [text, words]

theorem words_ne_nil (instruction : Instruction) : instruction.words ≠ [] := by
  cases instruction <;> simp [words]

variable {instruction first second : Instruction}

/-- The words of a legible instruction have no blanks in them, but for a remark. -/
theorem blank_not_mem_words (legible : instruction.IsLegible)
    (needed : instruction.isRemark = false) : ∀ word ∈ instruction.words, ' ' ∉ word.toList := by
  have blankless : ∀ place : String, isIdentifier place → ' ' ∉ place.toList := fun place named =>
    not_mem_of_isNameChar (isNameChar_of_isIdentifier named) (by decide)
  cases instruction with
  | operate op => cases op <;> simp [words, Operation.text, Register.text, Decimal.text]
  | jump place | call place | label place =>
      simpa [words, Register.text, Decimal.text] using blankless place legible
  | loadAddress _ place | branchIfZero _ place =>
      simpa [words, Register.text, Decimal.text] using blankless place legible.2
  | comment remark => cases needed
  | _ => simp [words, Register.text, Decimal.text, Decimal.signedText]

/-- An instruction falls into its words at the blanks. -/
theorem splitOn_text (legible : instruction.IsLegible) (needed : instruction.isRemark = false) :
    instruction.text.toList.splitOn ' ' = instruction.words.map String.toList := by
  rw [text_eq_intercalate, String.toList_intercalate]
  apply List.splitOn_intercalate
  · exact List.forall_mem_map.mpr (blank_not_mem_words legible needed)
  · exact mt List.map_eq_nil_iff.mp instruction.words_ne_nil

/-- **The words tell the instruction.** -/
theorem words_injective (legible : first.IsLegible) (legible' : second.IsLegible)
    (same : first.words = second.words) : first = second := by
  have operates : ∀ op : Operation, "addi" ≠ op.text ∧ "lw" ≠ op.text ∧ "sw" ≠ op.text := fun op =>
    ⟨op.text_ne.1.symm, op.text_ne.2.1.symm, op.text_ne.2.2.symm⟩
  have keeps : Register.zero.text ≠ Register.link.text := by
    simp [Register.text_inj]
  have ends : ∀ name : String, name ++ ":" ≠ "ehlt" := by
    intro name same
    have last := congrArg (fun word => word.toList.getLast?) same
    simp at last
  cases first <;> cases second <;>
    simp [words, Operation.text_inj, Operation.text_ne, operates, keeps, keeps.symm, ends,
      (ends _).symm, Decimal.text_inj, Decimal.signedText_inj, Int32.toInt_inj,
      UInt32.toNat_inj] at same
  case loadImmediate.loadAddress => exact absurd same.2 (signedText_ne_of_isIdentifier legible'.2 _)
  case loadAddress.loadImmediate =>
      exact absurd same.2.symm (signedText_ne_of_isIdentifier legible.2 _)
  -- Both are of one kind now, so only the spelling of registers is left to be undone.
  all_goals simp_all [Register.text_inj]

theorem text_injective (legible : first.IsLegible) (legible' : second.IsLegible)
    (alike : first.isRemark = second.isRemark) (same : first.text = second.text) :
    first = second := by
  apply words_injective legible legible'
  cases remark : first.isRemark with
  | false =>
      have split := congrArg (fun text => text.toList.splitOn ' ') same
      simp only [splitOn_text legible remark, splitOn_text legible' (alike ▸ remark)] at split
      exact (List.map_inj_right fun _ _ => String.toList_inj.mp).mp split
  | true =>
      rw [remark] at alike
      cases first <;> cases remark
      cases second <;> cases alike
      simpa [text, words] using same

/-- How the line of a legible instruction starts shows its indentation. -/
theorem indentation_eq (legible : instruction.IsLegible) :
    instruction.indentation = if instruction.line.toList.head? = some '\t' then "\t" else "" := by
  cases instruction with
  | label name =>
      obtain ⟨c, run, spelled, start, -⟩ := exists_of_isIdentifier legible
      have visible : c ≠ '\t' := by
        rintro rfl
        exact absurd start (by decide)
      simp [indentation, line, text, spelled, visible]
  | _ => simp [indentation, line]

/-- **The line tells the instruction.** -/
theorem line_injective (legible : first.IsLegible) (legible' : second.IsLegible)
    (same : first.line = second.line) : first = second := by
  have alike : first.isRemark = second.isRemark := by
    rw [← isRemarkLine_line legible, ← isRemarkLine_line legible', same]
  have indented : first.indentation = second.indentation := by
    rw [indentation_eq legible, indentation_eq legible', same]
  apply text_injective legible legible' alike
  simpa [line, indented] using same

end Instruction

/-! ## Programs -/

/-- **The listing tells the instructions.** -/
theorem listing_injective {first second : List Instruction} (legible : Legible first)
    (legible' : Legible second) (same : listing first = listing second) : first = second := by
  have lines : first.map (fun instruction => instruction.line.toList) =
      second.map fun instruction => instruction.line.toList := by
    rw [← textLines_listing legible, ← textLines_listing legible', same]
  refine eq_of_map_eq (fun instruction member instruction' member' line => ?_) lines
  exact Instruction.line_injective (legible instruction member) (legible' instruction' member')
    (String.toList_inj.mp line)

/-- **A listing can be read back.** Legible programs with the same listing are the same. The
lowered form of a tree that was read from a source text is legible, with remarks or without,
if the entry is spelled like an identifier, and its listing has one line for each
instruction. Lowering does not fail on a tree whose nodes can be counted. -/
theorem lowerProgram_listing_decodes :
    (∀ first second, Legible first → Legible second → listing first = listing second →
      first = second) ∧
    ∀ source tree events, parse source = (.ok tree, events) →
      ∀ options : LoweringOptions, isIdentifier options.entry →
        (tree.size + 6 ≤ maxCount → ∃ program, lowerProgram options tree = .ok program) ∧
        ∀ program, lowerProgram options tree = .ok program →
          Legible program.instructions ∧
            textLines (listing program.instructions).toList =
              program.instructions.map fun instruction => instruction.line.toList := by
  refine ⟨fun first second => listing_injective, fun source tree events parsed options named =>
    ⟨exists_lowerProgram options, fun program lowered => ?_⟩⟩
  have legible := legible_lowerProgram parsed named lowered
  exact ⟨legible, textLines_listing legible⟩

/-- A choice on a global, with a call inside. -/
def guardedText : String :=
  "var g proc main() begin if g then main() end end"

/-- The tree of the program. -/
def guardedTree : Node :=
  .program [.declarations [⟨"g", 1⟩],
    .procedure ⟨"main", []⟩ [] (.block [
      .branch (.reference "g") (.block [.call "main" []]) none])]

set_option maxRecDepth 8000 in
/-- The annotated program is listed line by line. A number and a label that are loaded into
the same register are told apart, also if the label is spelled like a register. -/
theorem lowerProgram_listing_decodes_guarded :
    (parse guardedText).1 = .ok guardedTree ∧ isIdentifier "main" ∧
      (∃ program, lowerProgram ⟨"main", true⟩ guardedTree = .ok program ∧
        Legible program.instructions ∧
        (textLines (listing program.instructions).toList).length = program.instructions.length) ∧
      listing [.loadImmediate (.general 3) 7] ≠ listing [.loadAddress (.general 3) "x7"] := by
  have outcome : (parse guardedText).1 = .ok guardedTree := by with_unfolding_all rfl
  have parsed : parse guardedText = (.ok guardedTree, (parse guardedText).2) := Prod.ext outcome rfl
  have named : isIdentifier "main" := by decide
  obtain ⟨injective, read⟩ := lowerProgram_listing_decodes
  obtain ⟨finishes, legible⟩ := read _ _ _ parsed ⟨"main", true⟩ named
  obtain ⟨program, lowered⟩ := finishes (by decide)
  obtain ⟨legible, lines⟩ := legible program lowered
  have counted : (textLines (listing program.instructions).toList).length =
      program.instructions.length := by
    rw [lines, List.length_map]
  refine ⟨outcome, named, ⟨program, lowered, legible, counted⟩, fun same => ?_⟩
  have place : isIdentifier "x7" := by decide
  have equal := injective [.loadImmediate (.general 3) 7] [.loadAddress (.general 3) "x7"]
    (by simp [Register.scratchBase]) (by simp [Register.scratchBase, place]) same
  cases equal

end ProcLang
