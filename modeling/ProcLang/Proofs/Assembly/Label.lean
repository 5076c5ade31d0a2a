import Mathlib
import ProcLang.Assembly.Instruction
import ProcLang.Assembly.Label

/-!
# Labels and their spellings

Labels with the same spelling are the same label (`Label.text_injective`): the
five families start with different letters or words, and a number that stands
between underscores can be read off the spelling.

`definedLabels` are the labels that code defines, and `usedLabels` those that it
may continue at without a call.
-/

set_option autoImplicit false

namespace ProcLang

namespace Decimal

theorem digits_injective {first second : Nat} (same : digits first = digits second) :
    first = second := by
  rw [← value_digits first, ← value_digits second, same]

theorem text_inj {first second : Nat} : text first = text second ↔ first = second :=
  ⟨fun same => digits_injective (String.ofList_injective same), congrArg text⟩

theorem signedDigits_injective {first second : Int}
    (same : signedDigits first = signedDigits second) : first = second := by
  have unsigned : ∀ m n : Nat, digits m ≠ '-' :: digits n := by
    intro m n same
    have sign := isDigit_of_mem_digits (same ▸ List.mem_cons_self : '-' ∈ digits m)
    exact absurd sign (by decide)
  cases first with
  | ofNat m =>
      cases second with
      | ofNat n => exact congrArg Int.ofNat (digits_injective same)
      | negSucc n => exact absurd same (unsigned m (n + 1))
  | negSucc m =>
      cases second with
      | ofNat n => exact absurd same.symm (unsigned n (m + 1))
      | negSucc n =>
          have shifted := digits_injective (List.cons.inj same).2
          exact congrArg Int.negSucc (Nat.succ.inj shifted)

theorem signedText_inj {first second : Int} :
    signedText first = signedText second ↔ first = second :=
  ⟨fun same => signedDigits_injective (String.ofList_injective same), congrArg signedText⟩

/-- A number followed by something that does not start with a digit can be told
from what follows. -/
theorem digits_append_inj {first second : Nat} {c c' : Char} {rest rest' : List Char}
    (stop : isDigit c = false) (stop' : isDigit c' = false)
    (same : digits first ++ c :: rest = digits second ++ c' :: rest') :
    first = second ∧ c :: rest = c' :: rest' := by
  have split : ∀ (n : Nat) (d : Char) (tail : List Char), isDigit d = false →
      (digits n ++ d :: tail).takeWhile isDigit = digits n := by
    intro n d tail stop
    rw [List.takeWhile_append_of_pos fun c member => isDigit_of_mem_digits member]
    simp [stop]
  have front : digits first = digits second := by
    rw [← split first c rest stop, same, split second c' rest' stop']
  refine ⟨digits_injective front, ?_⟩
  rw [front] at same
  exact List.append_cancel_left same

end Decimal

namespace Label

/-- The number of the choice or loop that a label belongs to. -/
def choice? : Label → Option Nat
  | branchFalse id | branchEnd id | loopBegin id | loopEnd id => some id
  | procedure _ | global _ | stackBegin => none

/-- Labels with the same spelling are the same label. -/
theorem text_injective {first second : Label} (same : first.text = second.text) :
    first = second := by
  have spelled : first.text.toList = second.text.toList := congrArg String.toList same
  cases first <;> cases second <;>
    simp [text, Decimal.text, String.toList_append] at spelled
  case procedure.procedure => exact congrArg procedure (String.toList_inj.mp spelled)
  case global.global => exact congrArg global (String.toList_inj.mp spelled)
  case stackBegin.stackBegin => rfl
  case branchFalse.branchFalse => exact congrArg branchFalse (Decimal.digits_injective spelled)
  case branchEnd.branchEnd => exact congrArg branchEnd (Decimal.digits_injective spelled)
  case loopBegin.loopBegin => exact congrArg loopBegin (Decimal.digits_injective spelled)
  case loopEnd.loopEnd => exact congrArg loopEnd (Decimal.digits_injective spelled)
  -- The number ends at the underscore, so what is left would have to be the same word.
  all_goals
    have words := (Decimal.digits_append_inj (by decide) (by decide) spelled).2
    simp at words

theorem text_inj {first second : Label} : first.text = second.text ↔ first = second :=
  ⟨text_injective, congrArg text⟩

end Label

/-! ## Labels of code -/

/-- The label that an instruction defines. -/
def Instruction.definedLabel? : Instruction → Option String
  | .label name => some name
  | _ => none

/-- The label at which an instruction may continue, other than by a call. -/
def Instruction.usedLabel? : Instruction → Option String
  | .jump name => some name
  | .branchIfZero _ name => some name
  | _ => none

/-- The labels that code defines, in order. -/
def definedLabels (code : List Instruction) : List String :=
  code.filterMap Instruction.definedLabel?

/-- The labels at which code may continue, other than by a call. -/
def usedLabels (code : List Instruction) : List String :=
  code.filterMap Instruction.usedLabel?

@[simp] theorem definedLabels_nil : definedLabels [] = [] := rfl

@[simp] theorem definedLabels_append (first second : List Instruction) :
    definedLabels (first ++ second) = definedLabels first ++ definedLabels second :=
  List.filterMap_append

@[simp] theorem usedLabels_nil : usedLabels [] = [] := rfl

@[simp] theorem usedLabels_append (first second : List Instruction) :
    usedLabels (first ++ second) = usedLabels first ++ usedLabels second :=
  List.filterMap_append

@[simp] theorem definedLabels_label (name : String) : definedLabels [.label name] = [name] := rfl

@[simp] theorem definedLabels_jump (name : String) : definedLabels [.jump name] = [] := rfl

@[simp] theorem definedLabels_branchIfZero (register : Register) (name : String) :
    definedLabels [.branchIfZero register name] = [] := rfl

@[simp] theorem usedLabels_label (name : String) : usedLabels [.label name] = [] := rfl

@[simp] theorem usedLabels_jump (name : String) : usedLabels [.jump name] = [name] := rfl

@[simp] theorem usedLabels_branchIfZero (register : Register) (name : String) :
    usedLabels [.branchIfZero register name] = [name] := rfl

theorem mem_definedLabels {code : List Instruction} {name : String} :
    name ∈ definedLabels code ↔ .label name ∈ code := by
  simp only [definedLabels, List.mem_filterMap]
  constructor
  · rintro ⟨instruction, member, defined⟩
    cases instruction <;> simp_all [Instruction.definedLabel?]
  · exact fun member => ⟨.label name, member, rfl⟩

/-- A label that code defines stands there once, if no label is defined twice. -/
theorem count_label_eq_one {code : List Instruction} {name : String}
    (nodup : (definedLabels code).Nodup) (member : .label name ∈ code) :
    code.count (.label name) = 1 := by
  induction code with
  | nil => cases member
  | cons instruction rest ih =>
      rw [← List.singleton_append, definedLabels_append] at nodup
      by_cases same : instruction = .label name
      · subst same
        have later : .label name ∉ rest := fun member =>
          (List.nodup_cons.mp nodup).1 (mem_definedLabels.mpr member)
        rw [List.count_cons_self, List.count_eq_zero.mpr later]
      · rw [List.count_cons_of_ne same]
        exact ih (List.nodup_append.mp nodup).2.1
          ((List.mem_cons.mp member).resolve_left (Ne.symm same))

end ProcLang
