import ProcLang.Proofs.Assembly.Label
import ProcLang.Proofs.Lowering.CallSites

/-!
# The height of the stack

Code moves the stack register only by constants, so the height of the stack at
a position is the sum of the constants before it, as long as control does not
jump. `Steady` says of code that the height is also right after a jump: every
label of a choice or a loop is defined and used at one height. It is a property
of the code read from left to right, so it composes by concatenation.

All code lowered from a tree is steady, never goes below the height at which it
starts, and ends there (`Node.plan_isLevel`).
-/

set_option autoImplicit false

namespace ProcLang

/-- By how much an instruction moves the stack register. -/
def Instruction.stackMove : Instruction → Int
  | .addImmediate .stack .stack amount => amount.toInt
  | _ => 0

/-- By how much code moves the stack register. -/
def stackMove (code : List Instruction) : Int :=
  (code.map Instruction.stackMove).sum

/-- By how much the code in front of a position moves the stack register. -/
def displacement (code : List Instruction) (position : Nat) : Int :=
  stackMove (code.take position)

@[simp] theorem stackMove_nil : stackMove [] = 0 := rfl

@[simp] theorem stackMove_cons (instruction : Instruction) (code : List Instruction) :
    stackMove (instruction :: code) = instruction.stackMove + stackMove code := by
  simp [stackMove]

@[simp] theorem stackMove_append (first second : List Instruction) :
    stackMove (first ++ second) = stackMove first + stackMove second := by
  simp [stackMove]

/-! ## Steady code -/

/-- A label of one of the choices and loops numbered from `low` to before
`high`, and the height at which it stands. -/
def StandsAt (heights : Nat → Int) (low high : Nat) (height : Int) (name : String) : Prop :=
  ∃ place : Label, ∃ id, place.choice? = some id ∧ place.text = name ∧
    low ≤ id ∧ id < high ∧ heights id = height

/-- Code that starts at a height, stays on or above a floor, does not return, and
has each of its labels at the height given for it. -/
def Steady (heights : Nat → Int) (low high : Nat) (floor : Int) : Int → List Instruction → Prop
  | _, [] => True
  | height, instruction :: rest =>
      floor ≤ height ∧ instruction ≠ .ret ∧
        (∀ name, instruction.definedLabel? = some name ∨ instruction.usedLabel? = some name →
          StandsAt heights low high height name) ∧
        Steady heights low high floor (height + instruction.stackMove) rest

section Steady

variable {heights heights' : Nat → Int} {low high low' high' : Nat} {floor floor' height : Int}
  {code first second : List Instruction}

theorem steady_append :
    Steady heights low high floor height (first ++ second) ↔
      Steady heights low high floor height first ∧
        Steady heights low high floor (height + stackMove first) second := by
  induction first generalizing height with
  | nil => simp [Steady]
  | cons instruction rest ih =>
      simp only [List.cons_append, Steady, ih, stackMove_cons, Int.add_assoc, and_assoc]

/-- Steady code stays steady over a lower floor, with more labels in range, and
with other heights outside its range. -/
theorem Steady.mono (steady : Steady heights low high floor height code)
    (below : floor' ≤ floor) (lowest : low' ≤ low) (highest : high ≤ high')
    (same : ∀ id, low ≤ id → id < high → heights' id = heights id) :
    Steady heights' low' high' floor' height code := by
  induction code generalizing height with
  | nil => trivial
  | cons instruction rest ih =>
      obtain ⟨above, notRet, labels, others⟩ := steady
      refine ⟨Int.le_trans below above, notRet, ?_, ih others⟩
      intro name named
      obtain ⟨place, id, choice, spelled, lower, upper, stands⟩ := labels name named
      exact ⟨place, id, choice, spelled, Nat.le_trans lowest lower,
        Nat.lt_of_lt_of_le upper highest, (same id lower upper).trans stands⟩

/-- The height at every position of steady code. -/
theorem Steady.floor_le (steady : Steady heights low high floor height code)
    (last : floor ≤ height + stackMove code) (position : Nat) :
    floor ≤ height + displacement code position := by
  induction code generalizing height position with
  | nil => simpa [displacement] using last
  | cons instruction rest ih =>
      obtain ⟨above, -, -, others⟩ := steady
      cases position with
      | zero => simpa [displacement] using above
      | succ position =>
          have later := ih others (by simpa [Int.add_assoc] using last) position
          simpa [displacement, Int.add_assoc] using later

/-- A label that steady code defines or uses at a position stands at the height
of that position. -/
theorem Steady.standsAt (steady : Steady heights low high floor height code) {position : Nat}
    {instruction : Instruction} {name : String} (found : code[position]? = some instruction)
    (named : instruction.definedLabel? = some name ∨ instruction.usedLabel? = some name) :
    StandsAt heights low high (height + displacement code position) name := by
  induction code generalizing height position with
  | nil => simp at found
  | cons head rest ih =>
      obtain ⟨-, -, labels, others⟩ := steady
      cases position with
      | zero =>
          obtain rfl : head = instruction := by simpa using found
          simpa [displacement] using labels name named
      | succ position =>
          have later := ih others (by simpa using found)
          simpa [displacement, Int.add_assoc] using later

theorem Steady.ret_not_mem (steady : Steady heights low high floor height code) :
    .ret ∉ code := by
  induction code generalizing height with
  | nil => exact List.not_mem_nil
  | cons instruction rest ih =>
      obtain ⟨-, notRet, -, others⟩ := steady
      intro member
      rcases List.mem_cons.mp member with same | member
      · exact notRet same.symm
      · exact ih others member

/-- Code without labels, jumps and returns is steady if it stays above the floor. -/
theorem steady_of_plain {instruction : Instruction} (above : floor ≤ height)
    (notRet : instruction ≠ .ret) (undefined : instruction.definedLabel? = none)
    (unused : instruction.usedLabel? = none) :
    Steady heights low high floor height [instruction] := by
  refine ⟨above, notRet, ?_, trivial⟩
  rintro name (named | named)
  · simp [undefined] at named
  · simp [unused] at named

section Label

variable (place : Label) {id : Nat} (above : floor ≤ height) (choice : place.choice? = some id)
  (lower : low ≤ id) (upper : id < high) (stands : heights id = height)
include above choice lower upper stands

theorem steady_label : Steady heights low high floor height [.label place.text] := by
  refine ⟨above, nofun, ?_, trivial⟩
  rintro name (named | named)
  · cases named
    exact ⟨place, id, choice, rfl, lower, upper, stands⟩
  · cases named

theorem steady_jump : Steady heights low high floor height [.jump place.text] := by
  refine ⟨above, nofun, ?_, trivial⟩
  rintro name (named | named)
  · cases named
  · cases named
    exact ⟨place, id, choice, rfl, lower, upper, stands⟩

theorem steady_branchIfZero (register : Register) :
    Steady heights low high floor height [.branchIfZero register place.text] := by
  refine ⟨above, nofun, ?_, trivial⟩
  rintro name (named | named)
  · cases named
  · cases named
    exact ⟨place, id, choice, rfl, lower, upper, stands⟩

end Label

end Steady

/-! ## Code that climbs -/

/-- Steady code from a height, with its labels in a range, that uses only labels
it defines and moves the stack register by `rise` in all. -/
structure Climbs (low high : Nat) (floor height : Int) (code : List Instruction) (rise : Int) :
    Prop where
  net : stackMove code = rise
  steady : ∃ heights, Steady heights low high floor height code
  closed : ∀ name ∈ usedLabels code, name ∈ definedLabels code

/-- Code that ends at the height where it starts and never goes below it. -/
abbrev StaysLevel (low high : Nat) (height : Int) (code : List Instruction) : Prop :=
  Climbs low high height height code 0

section Climbs

variable {low middle high low' high' : Nat} {floor floor' height rise rise' : Int}
  {code first second : List Instruction}

theorem climbs_nil : Climbs low high floor height [] 0 :=
  ⟨rfl, ⟨fun _ => 0, trivial⟩, by simp⟩

theorem Climbs.mono (climbs : Climbs low high floor height code rise) (below : floor' ≤ floor)
    (lowest : low' ≤ low) (highest : high ≤ high') :
    Climbs low' high' floor' height code rise := by
  obtain ⟨net, ⟨heights, steady⟩, closed⟩ := climbs
  exact ⟨net, ⟨heights, steady.mono below lowest highest fun _ _ _ => rfl⟩, closed⟩

/-- Code with lower numbered labels, followed by code with higher numbered ones. -/
theorem Climbs.append (start : Climbs low middle floor height first rise)
    (next : Climbs middle high floor (height + rise) second rise')
    (lower : low ≤ middle) (upper : middle ≤ high) :
    Climbs low high floor height (first ++ second) (rise + rise') := by
  obtain ⟨net, ⟨heights, steady⟩, closed⟩ := start
  obtain ⟨net', ⟨heights', steady'⟩, closed'⟩ := next
  refine ⟨by rw [stackMove_append, net, net'],
    ⟨fun id => if id < middle then heights id else heights' id, ?_⟩, ?_⟩
  · rw [steady_append, net]
    refine ⟨steady.mono (Int.le_refl _) (Nat.le_refl _) upper ?_,
      steady'.mono (Int.le_refl _) lower (Nat.le_refl _) ?_⟩
    · intro id _ below
      exact if_pos below
    · intro id above _
      exact if_neg (Nat.not_lt.mpr above)
  · intro name used
    rw [usedLabels_append] at used
    rw [definedLabels_append]
    rcases List.mem_append.mp used with used | used
    · exact List.mem_append_left _ (closed name used)
    · exact List.mem_append_right _ (closed' name used)

theorem Climbs.congr (climbs : Climbs low high floor height code rise) (same : rise = rise') :
    Climbs low high floor height code rise' :=
  same ▸ climbs

/-- One instruction that neither returns nor has a label. -/
theorem climbs_plain {instruction : Instruction} (above : floor ≤ height)
    (notRet : instruction ≠ .ret) (undefined : instruction.definedLabel? = none)
    (unused : instruction.usedLabel? = none) :
    Climbs low high floor height [instruction] instruction.stackMove := by
  refine ⟨by simp, ⟨fun _ => 0, steady_of_plain above notRet undefined unused⟩, ?_⟩
  simp [usedLabels, unused]

theorem steady_pushCode {heights : Nat → Int} (registers : List Register)
    (above : floor ≤ height) : Steady heights low high floor height (pushCode registers) := by
  induction registers generalizing height with
  | nil => trivial
  | cons register rest ih =>
      refine ⟨above, nofun, ?_, Int.le_trans above (by simp [Instruction.stackMove]), nofun, ?_,
        ih (Int.le_trans above ?_)⟩
      · rintro name (named | named) <;> cases named
      · rintro name (named | named) <;> cases named
      · have one : Instruction.stackMove (.addImmediate .stack .stack 1) = 1 := rfl
        have none : Instruction.stackMove (.store register .stack 0) = 0 := rfl
        omega

theorem stackMove_pushCode (registers : List Register) :
    stackMove (pushCode registers) = registers.length := by
  induction registers with
  | nil => rfl
  | cons register rest ih =>
      have one : stackMove [.store register .stack 0, .addImmediate .stack .stack 1] = 1 := rfl
      rw [pushCode, List.flatMap_cons, ← pushCode, stackMove_append, ih, one, List.length_cons]
      omega

theorem steady_popCode {heights : Nat → Int} (registers : List Register)
    (above : floor + registers.length ≤ height) :
    Steady heights low high floor height (popCode registers) := by
  induction registers generalizing height with
  | nil => trivial
  | cons register rest ih =>
      rw [List.length_cons] at above
      have one : Instruction.stackMove (.addImmediate .stack .stack (-1)) = -1 := rfl
      have none : Instruction.stackMove (.load register .stack 0) = 0 := rfl
      refine ⟨by omega, nofun, ?_, by omega, nofun, ?_, ih (by omega)⟩
      · rintro name (named | named) <;> cases named
      · rintro name (named | named) <;> cases named

theorem stackMove_popCode (registers : List Register) :
    stackMove (popCode registers) = -registers.length := by
  induction registers with
  | nil => rfl
  | cons register rest ih =>
      have one : stackMove [.addImmediate .stack .stack (-1), .load register .stack 0] = -1 := rfl
      rw [popCode, List.flatMap_cons, ← popCode, stackMove_append, ih, one, List.length_cons]
      omega

theorem stackMove_dropCode (words : Nat) :
    stackMove (dropCode words) = -(wordImmediate words).toInt := by
  unfold dropCode
  by_cases some : 0 < words
  · rw [if_pos some, stackMove_cons, stackMove_nil, Instruction.stackMove,
      toInt_neg_wordImmediate, toInt_wordImmediate, Int.add_zero]
  · simp [toInt_wordImmediate, Nat.eq_zero_of_not_pos some]

theorem usedLabels_pushCode (registers : List Register) : usedLabels (pushCode registers) = [] := by
  simp [usedLabels, pushCode, List.filterMap_flatMap, Instruction.usedLabel?]

theorem usedLabels_popCode (registers : List Register) : usedLabels (popCode registers) = [] := by
  simp [usedLabels, popCode, List.filterMap_flatMap, Instruction.usedLabel?]

theorem climbs_pushCode (registers : List Register) (above : floor ≤ height) :
    Climbs low high floor height (pushCode registers) registers.length :=
  ⟨stackMove_pushCode registers, ⟨fun _ => 0, steady_pushCode registers above⟩,
    by simp [usedLabels_pushCode]⟩

theorem climbs_popCode (registers : List Register) (above : floor + registers.length ≤ height) :
    Climbs low high floor height (popCode registers) (-registers.length) :=
  ⟨stackMove_popCode registers, ⟨fun _ => 0, steady_popCode registers above⟩,
    by simp [usedLabels_popCode]⟩

/-- Dropping words that a constant can express moves the stack register by their
number. -/
theorem climbs_dropCode {words : Nat} (few : words ≤ maxOffset) (above : floor ≤ height) :
    Climbs low high floor height (dropCode words) (-words) := by
  unfold dropCode
  by_cases some : 0 < words
  · rw [if_pos some]
    have moved : Instruction.stackMove (.addImmediate .stack .stack (-wordImmediate words)) =
        -words := by
      rw [Instruction.stackMove, toInt_neg_wordImmediate, Nat.min_eq_left few]
    exact moved ▸ climbs_plain above nofun rfl rfl
  · obtain rfl : words = 0 := by omega
    exact climbs_nil

/-- Level code, followed by level code with higher numbered labels. -/
theorem StaysLevel.append (start : StaysLevel low middle height first)
    (next : StaysLevel middle high height second) (lower : low ≤ middle) (upper : middle ≤ high) :
    StaysLevel low high height (first ++ second) :=
  (Climbs.append start (by rwa [Int.add_zero]) lower upper).congr rfl

/-- One instruction that leaves the stack register alone, after level code. -/
theorem StaysLevel.concat (start : StaysLevel low high height code) (instruction : Instruction)
    (ordered : low ≤ high) (notRet : instruction ≠ .ret)
    (undefined : instruction.definedLabel? = none) (unused : instruction.usedLabel? = none)
    (still : instruction.stackMove = 0) :
    StaysLevel low high height (code ++ [instruction]) :=
  start.append ((climbs_plain (Int.le_refl _) notRet undefined unused).congr still) ordered
    (Nat.le_refl _)

/-- Level code between pushing registers and popping as many is level. -/
theorem StaysLevel.between (registers registers' : List Register)
    (inner : StaysLevel low high (height + registers.length) code)
    (same : registers'.length = registers.length) (ordered : low ≤ high) :
    StaysLevel low high height (pushCode registers ++ code ++ popCode registers') := by
  have pushes : Climbs low low height height (pushCode registers) registers.length :=
    climbs_pushCode registers (Int.le_refl _)
  have inside : Climbs low high height (height + registers.length) code 0 :=
    inner.mono (by omega) (Nat.le_refl _) (Nat.le_refl _)
  have pops : Climbs high high height (height + (registers.length + 0)) (popCode registers')
      (-registers'.length) :=
    climbs_popCode registers' (by omega)
  refine (((pushes.append inside (Nat.le_refl _) ordered).append pops ordered
    (Nat.le_refl _)).congr ?_)
  omega

end Climbs

/-! ## Plans -/

/-- All code of a plan is level, with its labels among those it takes. -/
structure Plan.IsLevel (plan : Plan) : Prop where
  value : ∀ cursor pushed label height,
    StaysLevel label (label + plan.choices) height (plan.value cursor pushed label).code
  address : ∀ cursor pushed label height,
    StaysLevel label (label + plan.choices) height (plan.address cursor pushed label).code
  effect : ∀ pushed label height,
    StaysLevel label (label + plan.choices) height (plan.effect pushed label).code

namespace Plan

theorem isLevel_ofValue {value : Nat → Nat → Nat → Output} {choices : Nat}
    (level : ∀ cursor pushed label height,
      StaysLevel label (label + choices) height (value cursor pushed label).code) :
    (ofValue value choices).IsLevel where
  value := level
  address := by
    intro cursor pushed label height
    simpa [ofValue] using level cursor pushed label height
  effect := level Register.scratchBase

theorem isLevel_ofPlace {value address : Nat → Nat → Nat → Output} {choices : Nat}
    (level : ∀ cursor pushed label height,
      StaysLevel label (label + choices) height (value cursor pushed label).code)
    (levelAddress : ∀ cursor pushed label height,
      StaysLevel label (label + choices) height (address cursor pushed label).code) :
    (ofPlace value address choices).IsLevel :=
  ⟨level, levelAddress, level Register.scratchBase⟩

theorem isLevel_ofEffect {effect : Nat → Nat → Output} {choices : Nat}
    (level : ∀ pushed label height,
      StaysLevel label (label + choices) height (effect pushed label).code) :
    (ofEffect effect choices).IsLevel := by
  have value : ∀ cursor pushed label height,
      StaysLevel label (label + choices) height (parked effect cursor pushed label).code := by
    intro cursor pushed label height
    have inner := level (pushed + (Emitter.scratchBelow cursor).length) label
      (height + (Emitter.scratchBelow cursor).length)
    have whole := (StaysLevel.between _ (Emitter.scratchBelow cursor).reverse inner
      List.length_reverse (Nat.le_add_right _ _)).concat (.loadImmediate (.general cursor) 0)
      (Nat.le_add_right _ _) nofun rfl rfl rfl
    simpa [parked] using whole
  refine ⟨value, ?_, level⟩
  intro cursor pushed label height
  simpa [ofEffect] using value cursor pushed label height

theorem staysLevel_addressOf (resolve : String → Address) (name : String) (cursor pushed : Nat)
    {low high : Nat} {height : Int} :
    StaysLevel low high height (addressOf resolve name (.general cursor) pushed).code := by
  unfold addressOf frameAddress
  cases resolve name <;> exact climbs_plain (Int.le_refl _) nofun rfl rfl

theorem staysLevel_reference (resolve : String → Address) (name : String) (cursor pushed : Nat)
    {low : Nat} {height : Int} :
    StaysLevel low low height (reference resolve name cursor pushed).code := by
  unfold reference
  split
  · simpa using staysLevel_addressOf resolve name cursor pushed
  · simpa using (staysLevel_addressOf resolve name cursor pushed).concat
      (.load (.general cursor) (.general cursor) 0) (Nat.le_refl _) nofun rfl rfl rfl

theorem staysLevel_sequence {plans : List Plan} (level : ∀ plan ∈ plans, plan.IsLevel)
    (pushed label : Nat) (height : Int) :
    StaysLevel label (label + choicesOf plans) height (sequence plans pushed label).code := by
  induction plans generalizing label with
  | nil => exact climbs_nil
  | cons plan rest ih =>
      have first := (level plan List.mem_cons_self).effect pushed label height
      have others := ih (fun other member => level other (.tail _ member)) (label + plan.choices)
      have whole := first.append others (Nat.le_add_right _ _) (Nat.le_add_right _ _)
      simpa [sequence, Nat.add_assoc] using whole

/-- Pushing arguments climbs by one word for each. -/
theorem climbs_pushArguments {plans : List Plan} (level : ∀ plan ∈ plans, plan.IsLevel)
    (pushed label : Nat) {floor height : Int} (above : floor ≤ height) :
    Climbs label (label + choicesOf plans) floor height (pushArguments plans pushed label).code
      plans.length := by
  induction plans generalizing pushed label height with
  | nil => exact climbs_nil
  | cons plan rest ih =>
      have value := ((level plan List.mem_cons_self).value Register.scratchBase pushed label
        height).mono above (Nat.le_refl _) (Nat.le_refl _)
      have push : Climbs (label + plan.choices) (label + plan.choices) floor (height + 0)
          (pushCode [.general Register.scratchBase]) 1 :=
        climbs_pushCode _ (by omega)
      have others := ih (fun other member => level other (.tail _ member)) (pushed + 1)
        (label + plan.choices) (show floor ≤ height + (0 + 1) by omega)
      have whole := (value.append push (Nat.le_add_right _ _) (Nat.le_refl _)).append others
        (Nat.le_add_right _ _) (Nat.le_add_right _ _)
      have rise : (0 + 1 + (rest.length : Int)) = ((plan :: rest).length : Nat) := by
        rw [List.length_cons]
        omega
      rw [rise] at whole
      simpa [pushArguments, Nat.add_assoc] using whole

theorem staysLevel_callProcedure (annotate : Bool) (name : String) {plans : List Plan}
    (level : ∀ plan ∈ plans, plan.IsLevel) (few : plans.length ≤ maxOffset)
    (pushed label : Nat) (height : Int) :
    StaysLevel label (label + choicesOf plans) height
      (callProcedure annotate name plans pushed label).code := by
  have comment : StaysLevel label label height (remark annotate
      ("call " ++ name ++ " (" ++ Decimal.text plans.length ++ " args)")).code := by
    unfold remark
    split
    · exact climbs_plain (Int.le_refl _) nofun rfl rfl
    · exact climbs_nil
  have arguments : Climbs label (label + choicesOf plans) (height + 1) (height + 1)
      (pushArguments plans.reverse (pushed + 1) label).code plans.length := by
    simpa using climbs_pushArguments (fun plan member => level plan (List.mem_reverse.mp member))
      (pushed + 1) label (Int.le_refl (height + 1))
  have enter : Climbs (label + choicesOf plans) (label + choicesOf plans) (height + 1)
      (height + 1 + plans.length) [.call (Label.procedure name).text] 0 :=
    climbs_plain (by omega) nofun rfl rfl
  have leave : Climbs (label + choicesOf plans) (label + choicesOf plans) (height + 1)
      (height + 1 + (plans.length + 0)) (dropCode plans.length) (-plans.length) :=
    climbs_dropCode few (by omega)
  have inner : StaysLevel label (label + choicesOf plans) (height + 1)
      ((pushArguments plans.reverse (pushed + 1) label).code ++
        [.call (Label.procedure name).text] ++ dropCode plans.length) :=
    ((arguments.append enter (Nat.le_add_right _ _) (Nat.le_refl _)).append leave
      (Nat.le_add_right _ _) (Nat.le_refl _)).congr (by omega)
  have saved := StaysLevel.between [.link] [.link] inner rfl (Nat.le_add_right _ _)
  have whole := comment.append saved (Nat.le_refl _) (Nat.le_add_right _ _)
  simpa [callProcedure] using whole

theorem staysLevel_read {target : Plan} (level : target.IsLevel) (pushed label : Nat)
    (height : Int) :
    StaysLevel label (label + target.choices) height (read target pushed label).code := by
  have whole := ((level.address Register.scratchBase pushed label height).concat
    (.read (.general (Register.scratchBase + 1))) (Nat.le_add_right _ _) nofun rfl rfl rfl).concat
    (.store (.general (Register.scratchBase + 1)) (.general Register.scratchBase) 0)
    (Nat.le_add_right _ _) nofun rfl rfl rfl
  simpa [read] using whole

theorem staysLevel_write {value : Plan} (level : value.IsLevel) (pushed label : Nat)
    (height : Int) :
    StaysLevel label (label + value.choices) height (write value pushed label).code := by
  have whole := (level.value Register.scratchBase pushed label height).concat
    (.write (.general Register.scratchBase)) (Nat.le_add_right _ _) nofun rfl rfl rfl
  simpa [write] using whole

theorem staysLevel_assign {target value : Plan} (level : target.IsLevel)
    (level' : value.IsLevel) (pushed label : Nat) (height : Int) :
    StaysLevel label (label + (target.choices + value.choices)) height
      (assign target value pushed label).code := by
  have both := (level.address Register.scratchBase pushed label height).append
    (level'.value (Register.scratchBase + 1) pushed (label + target.choices) height)
    (Nat.le_add_right _ _) (Nat.le_add_right _ _)
  have whole := both.concat
    (.store (.general (Register.scratchBase + 1)) (.general Register.scratchBase) 0) (by omega)
    nofun rfl rfl rfl
  simpa [assign, Nat.add_assoc] using whole

theorem staysLevel_binary (op : BinaryOperator) {left right : Plan} (level : left.IsLevel)
    (level' : right.IsLevel) (cursor pushed label : Nat) (height : Int) :
    StaysLevel label (label + (left.choices + right.choices)) height
      (binary op left right cursor pushed label).code := by
  have both := (level.value cursor pushed label height).append
    (level'.value (cursor + 1) pushed (label + left.choices) height)
    (Nat.le_add_right _ _) (Nat.le_add_right _ _)
  have whole : StaysLevel label (label + left.choices + right.choices) height _ := both.concat
    (Emitter.combine op (.general cursor) (.general (cursor + 1))) (by omega)
    (by cases op <;> nofun) (by cases op <;> rfl) (by cases op <;> rfl) (by cases op <;> rfl)
  simpa [binary, Nat.add_assoc] using whole

theorem staysLevel_unary (op : UnaryOperator) {operand : Plan} (level : operand.IsLevel)
    (cursor pushed label : Nat) (height : Int) :
    StaysLevel label (label + operand.choices) height
      (unary op operand cursor pushed label).code := by
  have value := level.value cursor pushed label height
  have ordered : label ≤ label + operand.choices := Nat.le_add_right _ _
  unfold unary
  cases op with
  | plus => simpa [unaryCode] using value
  | minus => exact value.concat (.operate .sub _ .zero _) ordered nofun rfl rfl rfl
  | not => exact value.concat (.complement _ _) ordered nofun rfl rfl rfl
  | dereference => exact value.concat (.load _ _ 0) ordered nofun rfl rfl rfl

/-- Level code with labels below and above a number is steady under common
heights, which give the number the height of the code. -/
theorem exists_heights {low id middle high : Nat} {height : Int}
    {first second third : List Instruction} (before : StaysLevel low id height first)
    (after : StaysLevel (id + 1) middle height second) (last : StaysLevel middle high height third)
    (lower : low ≤ id) (upper : id + 1 ≤ middle) (uppest : middle ≤ high) :
    ∃ heights : Nat → Int, heights id = height ∧
      Steady heights low high height height first ∧
      Steady heights low high height height second ∧
      Steady heights low high height height third := by
  obtain ⟨heights, steady⟩ := before.steady
  obtain ⟨heights', steady'⟩ := (after.append last upper uppest).steady
  rw [steady_append, after.net, Int.add_zero] at steady'
  have same : ∀ x, id + 1 ≤ x → x < high →
      (if x < id then heights x else if x = id then height else heights' x) = heights' x := by
    intro x above _
    rw [if_neg (by omega), if_neg (by omega)]
  refine ⟨fun x => if x < id then heights x else if x = id then height else heights' x, ?_, ?_,
    steady'.1.mono (Int.le_refl _) (by omega) (Nat.le_refl _) same,
    steady'.2.mono (Int.le_refl _) (by omega) (Nat.le_refl _) same⟩
  · simp
  · refine steady.mono (Int.le_refl _) (Nat.le_refl _) (by omega) ?_
    intro x _ below
    exact if_pos below

theorem staysLevel_branch {condition consequent : Plan} (level : condition.IsLevel)
    (level' : consequent.IsLevel) (pushed label : Nat) (height : Int) :
    StaysLevel label (label + (condition.choices + 1 + consequent.choices)) height
      (branch condition consequent pushed label).code := by
  have tested := level.value Register.scratchBase pushed label height
  have inner := level'.effect pushed (label + condition.choices + 1) height
  have lower : label ≤ label + condition.choices := Nat.le_add_right _ _
  have upper : label + condition.choices < label + condition.choices + 1 + consequent.choices := by
    omega
  obtain ⟨heights, stands, steady, steady', -⟩ := exists_heights tested inner
    (climbs_nil : StaysLevel _ (label + condition.choices + 1 + consequent.choices) height [])
    lower upper (Nat.le_refl _)
  simp only [← Nat.add_assoc]
  refine ⟨?_, ⟨heights, ?_⟩, ?_⟩
  · simp [branch, tested.net, inner.net, Instruction.stackMove]
  · simp only [branch, Output.code_append, Output.code_ofCode, Output.code_ofEvent,
      List.append_nil, steady_append, stackMove_append, stackMove_cons, stackMove_nil, tested.net,
      inner.net, Instruction.stackMove, Int.add_zero]
    have label' := fun place choice =>
      steady_label place (Int.le_refl height) choice lower upper stands
    exact ⟨⟨⟨⟨steady,
      steady_branchIfZero (.branchFalse _) (Int.le_refl _) rfl lower upper stands _⟩,
      steady'⟩, label' (.branchFalse _) rfl⟩, label' (.branchEnd _) rfl⟩
  · intro name used
    simp only [branch, Output.code_append, Output.code_ofCode, Output.code_ofEvent,
      List.append_nil, usedLabels_append, definedLabels_append, usedLabels_label,
      usedLabels_branchIfZero, definedLabels_label, definedLabels_branchIfZero, List.mem_append,
      List.mem_singleton] at used ⊢
    rcases used with (used | rfl) | used
    · exact .inl (.inl (.inl (tested.closed name used)))
    · exact .inl (.inr rfl)
    · exact .inl (.inl (.inr (inner.closed name used)))

theorem staysLevel_branchElse {condition consequent alternative : Plan} (level : condition.IsLevel)
    (level' : consequent.IsLevel) (level'' : alternative.IsLevel) (pushed label : Nat)
    (height : Int) :
    StaysLevel label
      (label + (condition.choices + 1 + consequent.choices + alternative.choices)) height
      (branchElse condition consequent alternative pushed label).code := by
  have tested := level.value Register.scratchBase pushed label height
  have inner := level'.effect pushed (label + condition.choices + 1) height
  have other := level''.effect pushed (label + condition.choices + 1 + consequent.choices) height
  have lower : label ≤ label + condition.choices := Nat.le_add_right _ _
  have upper : label + condition.choices <
      label + condition.choices + 1 + consequent.choices + alternative.choices := by
    omega
  obtain ⟨heights, stands, steady, steady', steady''⟩ := exists_heights tested inner other
    lower (by omega) (by omega)
  simp only [← Nat.add_assoc]
  refine ⟨?_, ⟨heights, ?_⟩, ?_⟩
  · simp [branchElse, tested.net, inner.net, other.net, Instruction.stackMove]
  · simp only [branchElse, Output.code_append, Output.code_ofCode, Output.code_ofEvent,
      List.append_nil, steady_append, stackMove_append, stackMove_cons, stackMove_nil, tested.net,
      inner.net, other.net, Instruction.stackMove, Int.add_zero]
    have label' := fun place choice =>
      steady_label place (Int.le_refl height) choice lower upper stands
    exact ⟨⟨⟨⟨⟨⟨steady,
      steady_branchIfZero (.branchFalse _) (Int.le_refl _) rfl lower upper stands _⟩, steady'⟩,
      steady_jump (.branchEnd _) (Int.le_refl _) rfl lower upper stands⟩,
      label' (.branchFalse _) rfl⟩, steady''⟩, label' (.branchEnd _) rfl⟩
  · intro name used
    simp only [branchElse, Output.code_append, Output.code_ofCode, Output.code_ofEvent,
      List.append_nil, usedLabels_append, definedLabels_append, usedLabels_label, usedLabels_jump,
      usedLabels_branchIfZero, definedLabels_label, definedLabels_jump,
      definedLabels_branchIfZero, List.mem_append, List.mem_singleton] at used ⊢
    rcases used with (((used | rfl) | used) | rfl) | used
    · exact .inl (.inl (.inl (.inl (tested.closed name used))))
    · exact .inl (.inl (.inr rfl))
    · exact .inl (.inl (.inl (.inr (inner.closed name used))))
    · exact .inr rfl
    · exact .inl (.inr (other.closed name used))

theorem staysLevel_loop {condition body : Plan} (level : condition.IsLevel)
    (level' : body.IsLevel) (pushed label : Nat) (height : Int) :
    StaysLevel label (label + (1 + condition.choices + body.choices)) height
      (loop condition body pushed label).code := by
  have tested := level.value Register.scratchBase pushed (label + 1) height
  have inner := level'.effect pushed (label + 1 + condition.choices) height
  have upper : label < label + 1 + condition.choices + body.choices := by omega
  obtain ⟨heights, stands, -, steady, steady'⟩ := exists_heights
    (climbs_nil : StaysLevel label label height []) tested inner (Nat.le_refl _) (by omega)
    (by omega)
  simp only [← Nat.add_assoc]
  refine ⟨?_, ⟨heights, ?_⟩, ?_⟩
  · simp [loop, tested.net, inner.net, Instruction.stackMove]
  · simp only [loop, Output.code_append, Output.code_ofCode, Output.code_ofEvent,
      List.nil_append, steady_append, stackMove_append, stackMove_cons, stackMove_nil, tested.net,
      inner.net, Instruction.stackMove, Int.add_zero]
    have label' := fun place choice =>
      steady_label place (Int.le_refl height) choice (Nat.le_refl label) upper stands
    exact ⟨⟨⟨⟨⟨label' (.loopBegin _) rfl, steady⟩,
      steady_branchIfZero (.loopEnd _) (Int.le_refl _) rfl (Nat.le_refl _) upper stands _⟩,
      steady'⟩, steady_jump (.loopBegin _) (Int.le_refl _) rfl (Nat.le_refl _) upper stands⟩,
      label' (.loopEnd _) rfl⟩
  · intro name used
    simp only [loop, Output.code_append, Output.code_ofCode, Output.code_ofEvent,
      List.nil_append, usedLabels_append, definedLabels_append, usedLabels_label, usedLabels_jump,
      usedLabels_branchIfZero, definedLabels_label, definedLabels_jump,
      definedLabels_branchIfZero, List.mem_append, List.mem_singleton, List.not_mem_nil,
      or_false] at used ⊢
    rcases used with ((used | rfl) | used) | rfl
    · exact .inl (.inl (.inr (tested.closed name used)))
    · exact .inr rfl
    · exact .inl (.inr (inner.closed name used))
    · exact .inl (.inl (.inl rfl))

end Plan

namespace Node

section

variable (annotate : Bool) (resolve : String → Address)

theorem isLevel_of_mem_planAll {nodes : List Node}
    (level : ∀ node ∈ nodes, (node.plan annotate resolve).IsLevel) :
    ∀ plan ∈ planAll annotate resolve nodes, plan.IsLevel := by
  intro plan member
  rw [planAll_eq_map] at member
  obtain ⟨node, listed, rfl⟩ := List.mem_map.mp member
  exact level node listed

theorem staysLevel_call (name : String) {arguments : List Node}
    (level : ∀ node ∈ arguments, Few node.generalCalls → (node.plan annotate resolve).IsLevel)
    (few : Few (generalCalls (.call name arguments))) (pushed label : Nat) (height : Int) :
    StaysLevel label (label + Plan.callChoices name (planAll annotate resolve arguments)) height
      (Plan.call annotate name (planAll annotate resolve arguments) pushed label).code := by
  rcases Plan.general_or_intrinsic name arguments with
    general | ⟨intrinsic, first, rest, known, rfl⟩
  · rw [generalCalls_call general] at few
    have planned : Intrinsic.ofName? name = none ∨ planAll annotate resolve arguments = [] :=
      general.imp_right (by rintro rfl; rfl)
    have counted : (planAll annotate resolve arguments).length ≤ maxOffset := by
      simpa [length_planAll] using few (name, arguments.length) (by simp)
    rw [Plan.call_general annotate planned, Plan.callChoices_general planned]
    exact Plan.staysLevel_callProcedure annotate name
      (isLevel_of_mem_planAll annotate resolve fun node member =>
        level node member (few.left.of_back member)) counted pushed label height
  · rw [generalCalls_intrinsic first rest known] at few
    have argument := level first List.mem_cons_self few
    rw [planAll, Plan.callChoices_intrinsic _ _ known]
    cases intrinsic with
    | read =>
        simpa [Plan.call_read annotate _ _ known] using
          Plan.staysLevel_read argument pushed label height
    | write =>
        simpa [Plan.call_write annotate _ _ known] using
          Plan.staysLevel_write argument pushed label height

/-- **All code of a node ends at the height where it starts, never goes below it,
and continues only at labels of its own that stand at the same height.** -/
theorem plan_isLevel (node : Node) (few : Few node.generalCalls) :
    (node.plan annotate resolve).IsLevel := by
  induction node with
  | program items ih =>
      exact Plan.isLevel_ofEffect (Plan.staysLevel_sequence
        (isLevel_of_mem_planAll annotate resolve fun item member =>
          ih item member (Few.of_all few member)))
  | procedure heading locals body => exact Plan.isLevel_ofEffect fun _ _ _ => climbs_nil
  | header heading => exact Plan.isLevel_ofEffect fun _ _ _ => climbs_nil
  | declarations declared => exact Plan.isLevel_ofEffect fun _ _ _ => climbs_nil
  | declaration declared => exact Plan.isLevel_ofEffect fun _ _ _ => climbs_nil
  | block statements ih =>
      exact Plan.isLevel_ofEffect (Plan.staysLevel_sequence
        (isLevel_of_mem_planAll annotate resolve fun statement member =>
          ih statement member (Few.of_all few member)))
  | call name arguments ih =>
      exact Plan.isLevel_ofEffect (staysLevel_call annotate resolve name ih few)
  | assign target value ihTarget ihValue =>
      exact Plan.isLevel_ofEffect
        (Plan.staysLevel_assign (ihTarget (Few.left few)) (ihValue (Few.right few)))
  | branch condition consequent ihCondition ihConsequent =>
      exact Plan.isLevel_ofEffect
        (Plan.staysLevel_branch (ihCondition (Few.left few)) (ihConsequent (Few.right few)))
  | branchElse condition consequent alternative ihCondition ihConsequent ihAlternative =>
      exact Plan.isLevel_ofEffect (Plan.staysLevel_branchElse (ihCondition (Few.left few).left)
        (ihConsequent (Few.left few).right) (ihAlternative (Few.right few)))
  | loop condition body ihCondition ihBody =>
      exact Plan.isLevel_ofEffect
        (Plan.staysLevel_loop (ihCondition (Few.left few)) (ihBody (Few.right few)))
  | binary op left right ihLeft ihRight =>
      exact Plan.isLevel_ofValue
        (Plan.staysLevel_binary op (ihLeft (Few.left few)) (ihRight (Few.right few)))
  | unary op operand ih =>
      have value := Plan.staysLevel_unary op (ih few)
      cases op with
      | dereference => exact Plan.isLevel_ofPlace value (ih few).value
      | plus => exact Plan.isLevel_ofValue value
      | minus => exact Plan.isLevel_ofValue value
      | not => exact Plan.isLevel_ofValue value
  | constant value =>
      exact Plan.isLevel_ofValue fun _ _ _ _ => climbs_plain (Int.le_refl _) nofun rfl rfl
  | reference name =>
      exact Plan.isLevel_ofPlace
        (fun cursor pushed _ _ => Plan.staysLevel_reference resolve name cursor pushed)
        (fun cursor pushed _ _ => Plan.staysLevel_addressOf resolve name cursor pushed)

end

end Node

end ProcLang
