import Mathlib
import ProcLang.Lowering.Storage

/-!
# Words of a frame

A frame that is in reach has room for its locals and its arguments without any
count being cut off, so the distances at which names are found are exact: a
parameter lies as far below the frame as its place among the parameters
(`Scope.find_parameter`), and no two words of a frame share a distance
(`Scope.cell?_injective`).
-/

set_option autoImplicit false

namespace ProcLang

/-- The distance below the top of the frame at which a word of a variable lies. -/
def Address.cell? : Address → Nat → Option Nat
  | .frameLocal shift size, index => if index < size.toNat then some (shift - index) else none
  | .parameter shift, index => if index = 0 then some shift else none
  | .global .., _ => none

namespace Scope

/-- The words that locals take. -/
def localWords (locals : List Declaration) : Nat :=
  (locals.map Declaration.words).sum

@[simp] theorem localWords_nil : localWords [] = 0 := rfl

@[simp] theorem localWords_cons (declared : Declaration) (rest : List Declaration) :
    localWords (declared :: rest) = declared.words + localWords rest := by
  simp [localWords]

theorem addCount_eq {first second : Nat} (few : first + second ≤ maxCount) :
    addCount first second = first + second :=
  Nat.min_eq_left few

/-! ## Frames in reach -/

theorem eq_of_foldlM_addOffset? {words : List Nat} {start total : Nat} (low : start ≤ maxOffset)
    (kept : words.foldlM addOffset? start = some total) :
    total = start + words.sum ∧ total ≤ maxOffset := by
  induction words generalizing start with
  | nil =>
      obtain rfl : start = total := by simpa using kept
      exact ⟨rfl, low⟩
  | cons first rest ih =>
      rw [List.foldlM_cons, addOffset?] at kept
      split at kept
      next few =>
        obtain ⟨rfl, reach⟩ := ih few kept
        exact ⟨by rw [List.sum_cons, Nat.add_assoc], reach⟩
      next => cases kept

theorem frameExtent?_eq {scope : Scope} {extent : Nat} (reach : scope.frameExtent? = some extent) :
    extent = localWords scope.locals + scope.parameters.length ∧ extent ≤ maxOffset := by
  obtain ⟨same, few⟩ := eq_of_foldlM_addOffset? (Nat.zero_le _) reach
  refine ⟨?_, few⟩
  simpa [localWords, List.map_const'] using same

theorem foldl_addCount {locals : List Declaration} {start : Nat}
    (few : start + localWords locals ≤ maxCount) :
    locals.foldl (fun total declared => addCount total declared.words) start =
      start + localWords locals := by
  induction locals generalizing start with
  | nil => rfl
  | cons declared rest ih =>
      rw [localWords_cons] at few ⊢
      rw [List.foldl_cons, addCount_eq (by omega), ih (by omega), Nat.add_assoc]

theorem frameSize_eq {scope : Scope} {extent : Nat} (reach : scope.frameExtent? = some extent) :
    scope.frameSize = localWords scope.locals := by
  obtain ⟨same, few⟩ := frameExtent?_eq reach
  rw [frameSize, foldl_addCount, Nat.zero_add]
  unfold maxOffset at few
  unfold maxCount
  omega

/-! ## Where names are found -/

section Find

variable {name name' : String} {parameters : List String} {locals : List Declaration}
  {shift index index' distance : Nat} {address address' : Address}

theorem findParameter_of_mem (few : shift + parameters.length ≤ maxCount)
    (listed : parameters[index]? = some name) (first : name ∉ parameters.take index) :
    findParameter name shift parameters = some (.parameter (shift + index + 1)) := by
  induction parameters generalizing shift index with
  | nil => simp at listed
  | cons parameter rest ih =>
      rw [List.length_cons] at few
      cases index with
      | zero =>
          obtain rfl : parameter = name := by simpa using listed
          rw [findParameter, if_pos rfl, addCount_eq (by omega), Nat.add_zero]
      | succ index =>
          rw [List.take_succ_cons, List.mem_cons, not_or] at first
          rw [findParameter, if_neg (Ne.symm first.1), addCount_eq (by omega),
            ih (by omega) (by simpa using listed) first.2, Nat.add_right_comm shift 1 index,
            Nat.add_assoc shift index 1]

theorem findParameter_of_not_mem (absent : name ∉ parameters) :
    findParameter name shift parameters = none := by
  induction parameters generalizing shift with
  | nil => rfl
  | cons parameter rest ih =>
      rw [List.mem_cons, not_or] at absent
      rw [findParameter, if_neg (Ne.symm absent.1), ih absent.2]

theorem findLocal_of_not_mem (few : shift + localWords locals ≤ maxCount)
    (absent : ∀ declared ∈ locals, declared.name ≠ name) :
    findLocal name parameters shift locals =
      findParameter name (shift + localWords locals) parameters := by
  induction locals generalizing shift with
  | nil => rfl
  | cons declared rest ih =>
      rw [localWords_cons] at few ⊢
      rw [findLocal, if_neg (absent declared List.mem_cons_self), addCount_eq (by omega),
        ih (by omega) fun other member => absent other (.tail _ member), Nat.add_assoc]

/-- **A parameter lies below the frame, at its place among the parameters**, if no
local and no earlier parameter has its name. -/
theorem find_parameter {scope : Scope} {extent : Nat} (reach : scope.frameExtent? = some extent)
    (listed : scope.parameters[index]? = some name) (first : name ∉ scope.parameters.take index)
    (absent : ∀ declared ∈ scope.locals, declared.name ≠ name) :
    scope.find name = some (.parameter (scope.frameSize + index + 1)) := by
  obtain ⟨same, few⟩ := frameExtent?_eq reach
  have room : extent ≤ maxCount := Nat.le_trans few (by decide)
  rw [find, findLocal_of_not_mem (by omega) absent,
    findParameter_of_mem (by omega) listed first, frameSize_eq reach, Nat.zero_add]

/-! ## Words that are apart -/

theorem findParameter_cell (few : shift + parameters.length ≤ maxCount)
    (found : findParameter name shift parameters = some address)
    (cell : address.cell? index = some distance) :
    shift < distance ∧ distance ≤ shift + parameters.length ∧ index = 0 := by
  induction parameters generalizing shift with
  | nil => cases found
  | cons parameter rest ih =>
      rw [List.length_cons] at few ⊢
      rw [findParameter, addCount_eq (by omega)] at found
      split at found
      · cases found
        simp only [Address.cell?, Option.ite_none_right_eq_some, Option.some.injEq] at cell
        omega
      · have := ih (by omega) found
        omega

theorem local_cell {declared : Declaration} (few : shift + declared.words ≤ maxCount)
    (cell : (Address.frameLocal (addCount shift declared.words) declared.size).cell? index =
      some distance) :
    shift < distance ∧ distance + index = shift + declared.words := by
  rw [addCount_eq few] at cell
  simp only [Address.cell?, Option.ite_none_right_eq_some, Option.some.injEq] at cell
  have : index < declared.words := cell.1
  omega

theorem findLocal_cell (few : shift + localWords locals + parameters.length ≤ maxCount)
    (found : findLocal name parameters shift locals = some address)
    (cell : address.cell? index = some distance) :
    shift < distance ∧ distance ≤ shift + localWords locals + parameters.length := by
  induction locals generalizing shift with
  | nil =>
      rw [localWords_nil, Nat.add_zero] at few ⊢
      exact (findParameter_cell few found cell).imp_right And.left
  | cons declared rest ih =>
      rw [localWords_cons] at few ⊢
      rw [findLocal] at found
      split at found
      · cases found
        have := local_cell (by omega) cell
        omega
      · rw [addCount_eq (by omega)] at found
        have := ih (by omega) found
        omega

/-- Parameters at the same distance are the same. -/
theorem findParameter_injective (few : shift + parameters.length ≤ maxCount)
    (found : findParameter name shift parameters = some address)
    (found' : findParameter name' shift parameters = some address')
    (cell : address.cell? index = some distance) (cell' : address'.cell? index' = some distance) :
    name = name' := by
  induction parameters generalizing shift with
  | nil => cases found
  | cons parameter rest ih =>
      rw [List.length_cons] at few
      rw [findParameter, addCount_eq (by omega)] at found found'
      -- What is found at the head is nearer than what is found in the rest.
      have nearer : ∀ {address : Address} {index : Nat},
          some (.parameter (shift + 1)) = some address → address.cell? index = some distance →
          distance = shift + 1 := by
        rintro _ _ ⟨⟩ cell
        simp only [Address.cell?, Option.ite_none_right_eq_some, Option.some.injEq] at cell
        exact cell.2.symm
      split at found <;> split at found'
      next here here' => exact here.symm.trans here'
      next =>
        have := nearer found cell
        have := findParameter_cell (by omega) found' cell'
        omega
      next =>
        have := nearer found' cell'
        have := findParameter_cell (by omega) found cell
        omega
      next => exact ih (by omega) found found'

theorem findLocal_injective (few : shift + localWords locals + parameters.length ≤ maxCount)
    (found : findLocal name parameters shift locals = some address)
    (found' : findLocal name' parameters shift locals = some address')
    (cell : address.cell? index = some distance) (cell' : address'.cell? index' = some distance) :
    name = name' ∧ index = index' := by
  induction locals generalizing shift with
  | nil =>
      rw [localWords_nil, Nat.add_zero] at few
      have first := (findParameter_cell few found cell).2.2
      have first' := (findParameter_cell few found' cell').2.2
      exact ⟨findParameter_injective few found found' cell cell', first.trans first'.symm⟩
  | cons declared rest ih =>
      rw [localWords_cons] at few
      rw [findLocal] at found found'
      split at found <;> split at found'
      next here here' =>
        cases found
        cases found'
        have := local_cell (by omega) cell
        have := local_cell (by omega) cell'
        exact ⟨here.symm.trans here', by omega⟩
      next =>
        cases found
        rw [addCount_eq (by omega)] at found'
        have := local_cell (by omega) cell
        have := findLocal_cell (by omega) found' cell'
        omega
      next =>
        cases found'
        rw [addCount_eq (by omega)] at found
        have := local_cell (by omega) cell'
        have := findLocal_cell (by omega) found cell
        omega
      next =>
        rw [addCount_eq (by omega)] at found found'
        exact ih (by omega) found found'

end Find

variable {scope : Scope} {extent index index' distance : Nat} {name name' : String}
  {address address' : Address}

/-- The words of a frame lie between its top and its extent. -/
theorem cell?_bounds (reach : scope.frameExtent? = some extent)
    (found : scope.find name = some address) (cell : address.cell? index = some distance) :
    0 < distance ∧ distance ≤ extent := by
  obtain ⟨same, few⟩ := frameExtent?_eq reach
  have room : extent ≤ maxCount := Nat.le_trans few (by decide)
  have := findLocal_cell (by omega) found cell
  omega

/-- **No two words of a frame share a distance.** -/
theorem cell?_injective (reach : scope.frameExtent? = some extent)
    (found : scope.find name = some address) (found' : scope.find name' = some address')
    (cell : address.cell? index = some distance) (cell' : address'.cell? index' = some distance) :
    name = name' ∧ index = index' := by
  obtain ⟨same, few⟩ := frameExtent?_eq reach
  have room : extent ≤ maxCount := Nat.le_trans few (by decide)
  exact findLocal_injective (by omega) found found' cell cell'

end Scope

end ProcLang
