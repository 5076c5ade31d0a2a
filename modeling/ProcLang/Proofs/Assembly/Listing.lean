import ProcLang.Proofs.Lowering.View
import ProcLang.Proofs.Token.Spacing

/-!
# Listings line by line

A listing has a line for each instruction, but its text alone shows this only if no
instruction is spelled with a newline in it. An instruction is legible if no other register
is spelled like one of its own, its label is spelled like an identifier, and its remark
stays on its line (`Instruction.IsLegible`).

The listing of legible instructions falls into their lines (`textLines_listing`), and the
lines of remarks can be told from the others by how they start. So taking these lines out
of the text takes the remarks out of the program (`withoutRemarks_listing`).
-/

set_option autoImplicit false

namespace ProcLang

/-! ## Lines of a text -/

/-- The lines of a text, each with the newline that ends it. -/
def textLines : List Char → List (List Char)
  | [] => []
  | c :: rest =>
      if c = '\n' then ['\n'] :: textLines rest
      else
        match textLines rest with
        | [] => [[c]]
        | line :: later => (c :: line) :: later

theorem textLines_append {line : List Char} (whole : '\n' ∉ line) (rest : List Char) :
    textLines (line ++ '\n' :: rest) = (line ++ ['\n']) :: textLines rest := by
  induction line with
  | nil => simp [textLines]
  | cons c line ih =>
      obtain ⟨other, later⟩ := not_or.mp (mt List.mem_cons.mpr whole)
      rw [List.cons_append, textLines, if_neg (Ne.symm other), ih later]
      rfl

/-- A text of whole lines falls into these lines. -/
theorem textLines_flatMap {α : Type} {line : α → List Char} {items : List α}
    (whole : ∀ item ∈ items, '\n' ∉ line item) :
    textLines (items.flatMap fun item => line item ++ ['\n']) =
      items.map fun item => line item ++ ['\n'] := by
  induction items with
  | nil => rfl
  | cons item rest ih =>
      obtain ⟨first, others⟩ := List.forall_mem_cons.mp whole
      rw [List.flatMap_cons, List.append_assoc, List.singleton_append, textLines_append first,
        ih others, List.map_cons]

/-- Lists with the same image are the same, if no two of their items have the same one. -/
theorem eq_of_map_eq {α β : Type} {f : α → β} {first second : List α}
    (injective : ∀ item ∈ first, ∀ item' ∈ second, f item = f item' → item = item')
    (same : first.map f = second.map f) : first = second := by
  induction first generalizing second with
  | nil => exact (List.map_eq_nil_iff.mp same.symm).symm
  | cons item rest ih =>
      cases second with
      | nil => cases same
      | cons item' rest' =>
          obtain ⟨head, tail⟩ := List.cons.inj same
          rw [injective item List.mem_cons_self item' List.mem_cons_self head,
            ih (fun item member item' member' =>
              injective item (.tail _ member) item' (.tail _ member')) tail]

/-- A line that starts with a tab and a semicolon. -/
def isRemarkLine (line : List Char) : Bool :=
  ['\t', ';'].isPrefixOf line

/-- A text without the lines that start with a tab and a semicolon. -/
def withoutRemarks (text : String) : String :=
  .ofList ((textLines text.toList).filter fun line => !isRemarkLine line).flatten

/-! ## Spellings -/

/-- A word that is spelled like an identifier, be it a keyword or not. -/
def isIdentifier (word : String) : Bool :=
  match word.toList with
  | [] => false
  | c :: rest => isNameStart c && rest.all isNameChar

theorem isIdentifier_of_isName {word : String} (named : isName word) : isIdentifier word := by
  obtain ⟨-, c, run, spelled, start, all⟩ := exists_of_isName named
  simp only [isIdentifier, spelled, start, List.all_eq_true.mpr all, Bool.and_self]

theorem exists_of_isIdentifier {word : String} (named : isIdentifier word) :
    ∃ c run, word.toList = c :: run ∧ isNameStart c ∧ ∀ c ∈ run, isNameChar c := by
  rw [isIdentifier] at named
  split at named
  next => cases named
  next c run spelled =>
    rw [Bool.and_eq_true, List.all_eq_true] at named
    exact ⟨c, run, spelled, named⟩

theorem isNameChar_of_isIdentifier {word : String} (named : isIdentifier word) :
    ∀ c ∈ word.toList, isNameChar c := by
  obtain ⟨c, run, spelled, start, all⟩ := exists_of_isIdentifier named
  rw [spelled]
  exact List.forall_mem_cons.mpr ⟨by rw [isNameChar, start, Bool.true_or], all⟩

/-- A word of characters of names does not go on to another line. -/
theorem newline_not_mem_of_isNameChar {word : List Char} (all : ∀ c ∈ word, isNameChar c) :
    '\n' ∉ word := fun member =>
  absurd (all _ member) (by decide)

theorem isNameChar_of_mem_digits {n : Nat} {c : Char} (member : c ∈ Decimal.digits n) :
    isNameChar c := by
  rw [isNameChar, Decimal.isDigit_of_mem_digits member, Bool.or_true]

@[simp] theorem newline_not_mem_digits (n : Nat) : '\n' ∉ Decimal.digits n :=
  newline_not_mem_of_isNameChar fun _ => isNameChar_of_mem_digits

@[simp] theorem newline_not_mem_signedDigits (n : Int) : '\n' ∉ Decimal.signedDigits n := by
  cases n <;> simp [Decimal.signedDigits]

namespace Label

@[simp] theorem isIdentifier_named {name : String} (named : isIdentifier name) :
    isIdentifier (procedure name).text ∧ isIdentifier (global name).text := by
  have all := isNameChar_of_isIdentifier named
  constructor
  all_goals simpa [isIdentifier, text, isNameStart, isNameChar] using all

@[simp] theorem isIdentifier_stackBegin : isIdentifier stackBegin.text := by
  decide

@[simp] theorem isIdentifier_numbered (id : Nat) :
    isIdentifier (branchFalse id).text ∧ isIdentifier (branchEnd id).text ∧
      isIdentifier (loopBegin id).text ∧ isIdentifier (loopEnd id).text := by
  have all : ∀ c ∈ Decimal.digits id, isNameChar c := fun _ => isNameChar_of_mem_digits
  refine ⟨?_, ?_, ?_, ?_⟩
  all_goals simpa [isIdentifier, text, Decimal.text, isNameStart, isNameChar] using all

end Label

/-! ## Legible instructions -/

/-- A register that has its number to itself: one with a role, or a scratch register. -/
def Register.IsProper : Register → Prop
  | zero | stack | link => True
  | general index => scratchBase ≤ index

@[simp] theorem Register.isProper_zero : zero.IsProper := trivial

@[simp] theorem Register.isProper_stack : stack.IsProper := trivial

@[simp] theorem Register.isProper_link : link.IsProper := trivial

@[simp] theorem Register.isProper_general {index : Nat} :
    (general index).IsProper ↔ scratchBase ≤ index := Iff.rfl

namespace Instruction

/-- An instruction that can be read off its line. -/
@[simp] def IsLegible : Instruction → Prop
  | operate _ target left right => target.IsProper ∧ left.IsProper ∧ right.IsProper
  | addImmediate target source _ | complement target source => target.IsProper ∧ source.IsProper
  | load target base _ => target.IsProper ∧ base.IsProper
  | store source base _ => source.IsProper ∧ base.IsProper
  | loadImmediate target _ | read target => target.IsProper
  | write source => source.IsProper
  | loadAddress register place | branchIfZero register place =>
      register.IsProper ∧ isIdentifier place
  | jump place | call place | label place => isIdentifier place
  | comment remark => '\n' ∉ remark.toList
  | ret | halt | reserve _ => True

variable {instruction : Instruction}

theorem newline_not_mem_text (legible : instruction.IsLegible) :
    '\n' ∉ instruction.text.toList := by
  cases instruction with
  | operate op => cases op <;> simp [text, Operation.text, Register.text, Decimal.text]
  | jump place | call place | label place =>
      have named := newline_not_mem_of_isNameChar (isNameChar_of_isIdentifier legible)
      simpa [text, Register.text, Decimal.text] using named
  | loadAddress _ place | branchIfZero _ place =>
      have named := newline_not_mem_of_isNameChar (isNameChar_of_isIdentifier legible.2)
      simpa [text, Register.text, Decimal.text] using named
  | comment remark => simpa [text] using legible
  | _ => simp [text, Register.text, Decimal.text, Decimal.signedText]

/-- The line of a legible instruction starts with a tab and a semicolon exactly if the
instruction is a remark. -/
theorem isRemarkLine_line (legible : instruction.IsLegible) :
    isRemarkLine instruction.line.toList = instruction.isRemark := by
  cases instruction with
  | label name =>
      obtain ⟨c, run, spelled, start, -⟩ := exists_of_isIdentifier legible
      have visible : c ≠ '\t' := by
        rintro rfl
        exact absurd start (by decide)
      simp [isRemarkLine, List.isPrefixOf, line, indentation, text, spelled, isRemark, visible.symm]
  | operate op =>
      cases op <;>
        simp [isRemarkLine, List.isPrefixOf, line, indentation, text, Operation.text, isRemark]
  | _ => simp [isRemarkLine, List.isPrefixOf, line, indentation, text, isRemark]

end Instruction

/-! ## Listings -/

variable {code : List Instruction}

theorem toList_listing (code : List Instruction) :
    (listing code).toList = code.flatMap fun instruction => instruction.line.toList := by
  simp [listing, String.toList_join, List.flatMap_map]

/-- **A listing has a line for each instruction.** -/
theorem textLines_listing (legible : ∀ instruction ∈ code, instruction.IsLegible) :
    textLines (listing code).toList = code.map fun instruction => instruction.line.toList := by
  have ends : ∀ instruction : Instruction, instruction.line.toList =
      (instruction.indentation ++ instruction.text).toList ++ ['\n'] := by
    intro instruction
    rw [Instruction.line, String.toList_append]
    rfl
  rw [toList_listing]
  simp only [ends]
  apply textLines_flatMap
  intro instruction member
  have inner := Instruction.newline_not_mem_text (legible instruction member)
  cases instruction <;> simpa [Instruction.indentation] using inner

/-- **A listing without its lines of remarks is the listing without remarks.** -/
theorem withoutRemarks_listing (legible : ∀ instruction ∈ code, instruction.IsLegible) :
    withoutRemarks (listing code) =
      listing (code.filter fun instruction => !instruction.isRemark) := by
  have told : code.filter (fun instruction => !isRemarkLine instruction.line.toList) =
      code.filter fun instruction => !instruction.isRemark :=
    List.filter_congr fun instruction member => by
      rw [Instruction.isRemarkLine_line (legible instruction member)]
  rw [withoutRemarks, textLines_listing legible, List.filter_map, ← List.flatMap_def]
  apply String.toList_inj.mp
  rw [String.toList_ofList, toList_listing, ← told]
  rfl

end ProcLang
