import ProcLang.Proofs.Machine.Basic

/-!
# Addresses of positions

Addresses grow along a program. In a program that fits into the memory, a
position after an instruction that takes room is the first one with its address,
so a return goes to the instruction after the call (`Machine.positionAt?_link`).
-/

set_option autoImplicit false

namespace ProcLang.Machine

variable {machine : Machine} {position other : Nat} {instruction : Instruction}

theorem address_succ (found : machine.program[position]? = some instruction) :
    machine.address (position + 1) = machine.address position + machine.extent instruction := by
  rw [address, address, List.take_add_one, found, List.map_append, List.sum_append, Nat.add_assoc]
  rfl

theorem address_le_succ (machine : Machine) (position : Nat) :
    machine.address position ≤ machine.address (position + 1) := by
  cases found : machine.program[position]? with
  | none =>
      refine Nat.le_of_eq ?_
      rw [address, address, List.take_add_one, found, Option.toList_none, List.append_nil]
  | some instruction =>
      rw [address_succ found]
      exact Nat.le_add_right _ _

theorem address_mono (machine : Machine) (order : position ≤ other) :
    machine.address position ≤ machine.address other := by
  induction order with
  | refl => exact Nat.le_refl _
  | step _ ih => exact Nat.le_trans ih (machine.address_le_succ _)

/-- What stands at a position ends before any later position. -/
theorem address_add_extent_le (found : machine.program[position]? = some instruction)
    (later : position < other) :
    machine.address position + machine.extent instruction ≤ machine.address other := by
  rw [← address_succ found]
  exact machine.address_mono later

/-- In a program that fits into the memory, addresses are words. -/
theorem toNat_link (fits : machine.address machine.program.length < 2 ^ 32)
    (inside : position ≤ machine.program.length) :
    (machine.link position).toNat = machine.address position := by
  have small := Nat.lt_of_le_of_lt (machine.address_mono inside) fits
  rw [link, BitVec.toNat_ofNat, Nat.mod_eq_of_lt small]

/-- **The position after an instruction that takes room is found by its address.** -/
theorem positionAt?_link (fits : machine.address machine.program.length < 2 ^ 32)
    (found : machine.program[position]? = some instruction)
    (positive : 0 < machine.extent instruction) :
    machine.positionAt? (machine.link (position + 1)) = some (position + 1) := by
  have inside : position + 1 ≤ machine.program.length := (List.getElem?_eq_some_iff.mp found).1
  rw [positionAt?, List.find?_range_eq_some]
  refine ⟨beq_self_eq_true _, List.mem_range.mpr (by omega), fun earlier before => ?_⟩
  have lower := machine.address_mono (Nat.le_of_lt_succ before)
  have upper := address_succ found
  have different : machine.link earlier ≠ machine.link (position + 1) := by
    intro same
    have numbers := congrArg BitVec.toNat same
    rw [toNat_link fits (by omega), toNat_link fits inside] at numbers
    omega
  simpa using different

theorem labelAddress_eq_link {name : String} (target : machine.target? name = some position) :
    machine.labelAddress name = machine.link position := by
  rw [labelAddress, target, Option.getD_some, link]

end ProcLang.Machine
