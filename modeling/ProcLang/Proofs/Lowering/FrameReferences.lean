import ProcLang.Proofs.Lowering.Completion

/-!
# References to the frame

A word of the frame is addressed from the stack register, which moves while
registers and arguments are pushed. `frameReferences` lists the frame-relative
addresses of code, each with its constant and with the height of the stack at
that position.

`Node.visits` lists the names that lowering looks up, in the order in which it
does, each with the number of words that are pushed at that moment. It says
nothing of instructions: a call pushes the link register and then its arguments,
the last one first, and a statement where a value is needed pushes the registers
below the cursor.

The two lists belong together (`Node.plan_refers`): every name that lives in the
frame has one reference, whose constant makes up for the words pushed.

That is so while calls have no more arguments than a constant can count. A call with
more leaves words on the stack, and a reference behind it is off by their number
(`Node.getLast?_frameReferences_call`).
-/

set_option autoImplicit false

namespace ProcLang

/-- The distance below the top of the frame, of what lives in the frame. -/
def Address.shift? : Address → Option Nat
  | .frameLocal shift _ => some shift
  | .parameter shift => some shift
  | .global .. => none

/-! ## References in code -/

/-- A frame-relative address in code: its constant, and by how much the code in
front of it has moved the stack register. -/
structure FrameReference where
  amount : Int
  displacement : Int
  deriving DecidableEq, Repr

/-- The constant of a frame-relative address. -/
def Instruction.frameOffset? : Instruction → Option Int
  | .addImmediate (.general _) .stack amount => some amount.toInt
  | _ => none

/-- The frame-relative addresses of code, in order. -/
def frameReferences (code : List Instruction) : List FrameReference :=
  code.zipIdx.filterMap fun (instruction, position) =>
    instruction.frameOffset?.map fun amount => ⟨amount, displacement code position⟩

/-- The frame-relative addresses of code that starts at a height. -/
def referencesFrom : Int → List Instruction → List FrameReference
  | _, [] => []
  | height, instruction :: rest =>
      (instruction.frameOffset?.map fun amount => ⟨amount, height⟩).toList ++
        referencesFrom (height + instruction.stackMove) rest

section Code

variable {height : Int} {code first second front : List Instruction}

theorem referencesFrom_append :
    referencesFrom height (first ++ second) =
      referencesFrom height first ++ referencesFrom (height + stackMove first) second := by
  induction first generalizing height with
  | nil => simp [referencesFrom]
  | cons instruction rest ih =>
      simp only [List.cons_append, referencesFrom, ih, stackMove_cons, List.append_assoc,
        Int.add_assoc]

theorem filterMap_zipIdx_eq (front code : List Instruction) :
    ((code.zipIdx front.length).filterMap fun (instruction, position) =>
      instruction.frameOffset?.map fun amount =>
        (⟨amount, displacement (front ++ code) position⟩ : FrameReference)) =
      referencesFrom (stackMove front) code := by
  induction code generalizing front with
  | nil => rfl
  | cons instruction rest ih =>
      have later := ih (front ++ [instruction])
      rw [List.append_assoc, List.singleton_append, List.length_append, List.length_singleton,
        stackMove_append] at later
      have here : displacement (front ++ instruction :: rest) front.length = stackMove front := by
        rw [displacement, List.take_left]
      rw [List.zipIdx_cons, List.filterMap_cons, later, referencesFrom]
      cases found : instruction.frameOffset? <;> simp [found, here]

/-- References are found by walking over the code and adding up its moves. -/
theorem frameReferences_eq (code : List Instruction) :
    frameReferences code = referencesFrom 0 code :=
  filterMap_zipIdx_eq [] code

theorem mem_of_mem_frameReferences {reference : FrameReference}
    (listed : reference ∈ frameReferences code) :
    ∃ instruction ∈ code, instruction.frameOffset? = some reference.amount := by
  obtain ⟨⟨instruction, position⟩, member, found⟩ := List.mem_filterMap.mp listed
  obtain ⟨amount, offset, rfl⟩ := Option.map_eq_some_iff.mp found
  exact ⟨instruction, (List.mem_zipIdx' member).2 ▸ List.getElem_mem _, offset⟩

theorem referencesFrom_eq_nil (none : ∀ instruction ∈ code, instruction.frameOffset? = none) :
    referencesFrom height code = [] := by
  induction code generalizing height with
  | nil => rfl
  | cons instruction rest ih =>
      rw [referencesFrom, none instruction List.mem_cons_self,
        ih fun other member => none other (.tail _ member)]
      rfl

@[simp] theorem referencesFrom_pushCode (registers : List Register) :
    referencesFrom height (pushCode registers) = [] := by
  refine referencesFrom_eq_nil fun instruction member => ?_
  obtain ⟨register, -, listed⟩ := List.mem_flatMap.mp member
  simp only [List.mem_cons, List.not_mem_nil, or_false] at listed
  rcases listed with rfl | rfl <;> rfl

@[simp] theorem referencesFrom_popCode (registers : List Register) :
    referencesFrom height (popCode registers) = [] := by
  refine referencesFrom_eq_nil fun instruction member => ?_
  obtain ⟨register, -, listed⟩ := List.mem_flatMap.mp member
  simp only [List.mem_cons, List.not_mem_nil, or_false] at listed
  rcases listed with rfl | rfl <;> rfl

@[simp] theorem referencesFrom_dropCode (words : Nat) :
    referencesFrom height (dropCode words) = [] := by
  unfold dropCode
  split <;> rfl

@[simp] theorem referencesFrom_remark (annotate : Bool) (text : String) :
    referencesFrom height (Plan.remark annotate text).code = [] := by
  cases annotate <;> rfl

@[simp] theorem stackMove_remark (annotate : Bool) (text : String) :
    stackMove (Plan.remark annotate text).code = 0 := by
  cases annotate <;> rfl

end Code

/-! ## Names that are looked up -/

/-- A name that is looked up, and the words that are pushed at that moment. -/
structure Visit where
  name : String
  pushed : Nat
  deriving DecidableEq, Repr

/-- The names that are looked up for a node, in order, by the way in which the
node is lowered. -/
structure Visits where
  value : (cursor pushed : Nat) → List Visit
  address : (cursor pushed : Nat) → List Visit
  effect : (pushed : Nat) → List Visit

namespace Visits

/-- The names in an expression without an address. -/
def ofValue (value : Nat → Nat → List Visit) : Visits :=
  ⟨value, value, value Register.scratchBase⟩

/-- The names in an expression with an address. -/
def ofPlace (value address : Nat → Nat → List Visit) : Visits :=
  ⟨value, address, value Register.scratchBase⟩

/-- The names in a statement. Where a value is needed, the registers below the
cursor are pushed first. -/
def ofEffect (effect : Nat → List Visit) : Visits :=
  ⟨fun cursor pushed => effect (pushed + (cursor - Register.scratchBase)),
    fun cursor pushed => effect (pushed + (cursor - Register.scratchBase)), effect⟩

/-- The names in statements one after the other. -/
def sequence (all : List Visits) (pushed : Nat) : List Visit :=
  all.flatMap fun visits => visits.effect pushed

/-- The names in arguments, the last of which is pushed first. -/
def arguments : List Visits → Nat → List Visit
  | [], _ => []
  | visits :: rest, pushed =>
      arguments rest pushed ++ visits.value Register.scratchBase (pushed + rest.length)

/-- The names in a call. A procedure is called with the link register pushed
below the arguments. -/
def call (name : String) (all : List Visits) (pushed : Nat) : List Visit :=
  match Intrinsic.ofName? name, all with
  | some .read, first :: _ => first.address Register.scratchBase pushed
  | some .write, first :: _ => first.value Register.scratchBase pushed
  | _, all => arguments all (pushed + 1)

theorem call_general {name : String} {all : List Visits}
    (general : Intrinsic.ofName? name = none ∨ all = []) (pushed : Nat) :
    call name all pushed = arguments all (pushed + 1) := by
  rcases general with unknown | rfl
  · simp [call, unknown]
  · simp [call]

end Visits

namespace Node

open Visits

mutual
/-- The names that are looked up for a node, in order. -/
def visits : Node → Visits
  | .program items => .ofEffect (sequence (visitsAll items))
  | .procedure .. | .header _ | .declarations _ | .declaration _ => .ofEffect fun _ => []
  | .block statements => .ofEffect (sequence (visitsAll statements))
  | .call name arguments => .ofEffect (Visits.call name (visitsAll arguments))
  | .assign target value =>
      .ofEffect fun pushed => (visits target).address Register.scratchBase pushed ++
        (visits value).value (Register.scratchBase + 1) pushed
  | .branch condition consequent none =>
      .ofEffect fun pushed => (visits condition).value Register.scratchBase pushed ++
        (visits consequent).effect pushed
  | .branch condition consequent (some alternative) =>
      .ofEffect fun pushed => (visits condition).value Register.scratchBase pushed ++
        (visits consequent).effect pushed ++ (visits alternative).effect pushed
  | .loop condition body =>
      .ofEffect fun pushed => (visits condition).value Register.scratchBase pushed ++
        (visits body).effect pushed
  | .binary _ left right =>
      .ofValue fun cursor pushed =>
        (visits left).value cursor pushed ++ (visits right).value (cursor + 1) pushed
  | .unary .dereference operand => .ofPlace (visits operand).value (visits operand).value
  | .unary _ operand => .ofValue (visits operand).value
  | .constant _ => .ofValue fun _ _ => []
  | .reference name => .ofPlace (fun _ pushed => [⟨name, pushed⟩]) fun _ pushed => [⟨name, pushed⟩]

/-- The names that are looked up for nodes. -/
def visitsAll : List Node → List Visits
  | [] => []
  | node :: rest => visits node :: visitsAll rest
end

theorem visitsAll_eq_map (nodes : List Node) : visitsAll nodes = nodes.map visits := by
  induction nodes with
  | nil => rfl
  | cons node rest ih => rw [visitsAll, ih, List.map_cons]

end Node

/-! ## References of names -/

/-- A word of the frame, and the words that are pushed when it is reached. -/
structure Slot where
  shift : Nat
  pushed : Nat
  deriving DecidableEq, Repr

/-- The word of the frame that a name stands for. -/
def Visit.slot? (resolve : String → Address) (visit : Visit) : Option Slot :=
  (resolve visit.name).shift?.map fun shift => ⟨shift, visit.pushed⟩

/-- The words of the frame that names stand for, in order. -/
def slots (resolve : String → Address) (visits : List Visit) : List Slot :=
  visits.filterMap (Visit.slot? resolve)

/-- One constant reaches the word over all that is pushed. -/
def Slot.InReach (slot : Slot) : Prop :=
  slot.shift + slot.pushed ≤ maxOffset

instance : DecidablePred Slot.InReach :=
  fun slot => inferInstanceAs (Decidable (slot.shift + slot.pushed ≤ maxOffset))

/-- The reference to a word, in code that has the top of the frame at a height. A
constant out of reach stops at the greatest one. -/
def Slot.reference (base : Int) (slot : Slot) : FrameReference :=
  ⟨-(min (slot.shift + slot.pushed) maxOffset : Nat), base + slot.pushed⟩

theorem Slot.reference_of_inReach {slot : Slot} (inReach : slot.InReach) (base : Int) :
    slot.reference base = ⟨-(slot.shift + slot.pushed : Nat), base + slot.pushed⟩ := by
  rw [reference, Nat.min_eq_left inReach]

/-- The references to the names that live in the frame. -/
def references (resolve : String → Address) (base : Int) (visits : List Visit) :
    List FrameReference :=
  (slots resolve visits).map (Slot.reference base)

section References

variable {resolve : String → Address} {base : Int}

@[simp] theorem references_nil : references resolve base [] = [] := rfl

@[simp] theorem references_append (first second : List Visit) :
    references resolve base (first ++ second) =
      references resolve base first ++ references resolve base second := by
  simp [references, slots]

theorem referencesFrom_addressOf (resolve : String → Address) (base : Int) (name : String)
    (cursor pushed : Nat) :
    referencesFrom (base + pushed) (Plan.addressOf resolve name (.general cursor) pushed).code =
      references resolve base [⟨name, pushed⟩] := by
  have amount : ∀ shift, (-wordImmediate (addCount shift pushed)).toInt =
      -(min (shift + pushed) maxOffset : Nat) := by
    intro shift
    rw [toInt_neg_wordImmediate]
    unfold addCount maxCount maxOffset
    omega
  unfold Plan.addressOf
  cases found : resolve name <;>
    simp [references, slots, Visit.slot?, Slot.reference, found, Address.shift?,
      Plan.frameAddress, referencesFrom, Instruction.frameOffset?, amount]

end References

/-! ## Plans -/

namespace Plan

section

variable (resolve : String → Address)

/-- The references in all code of a plan are those of the names looked up. -/
structure Refers (plan : Plan) (visits : Visits) : Prop where
  value : ∀ (cursor pushed label : Nat) (base : Int),
    referencesFrom (base + pushed) (plan.value cursor pushed label).code =
      references resolve base (visits.value cursor pushed)
  address : ∀ (cursor pushed label : Nat) (base : Int),
    referencesFrom (base + pushed) (plan.address cursor pushed label).code =
      references resolve base (visits.address cursor pushed)
  effect : ∀ (pushed label : Nat) (base : Int),
    referencesFrom (base + pushed) (plan.effect pushed label).code =
      references resolve base (visits.effect pushed)

end

variable {resolve : String → Address} {choices : Nat}

theorem refers_ofValue {value : Nat → Nat → Nat → Output} {visits : Nat → Nat → List Visit}
    (refers : ∀ (cursor pushed label : Nat) (base : Int),
      referencesFrom (base + pushed) (value cursor pushed label).code =
        references resolve base (visits cursor pushed)) :
    (ofValue value choices).Refers resolve (.ofValue visits) :=
  ⟨refers, refers, refers Register.scratchBase⟩

theorem refers_ofPlace {value address : Nat → Nat → Nat → Output}
    {visits visits' : Nat → Nat → List Visit}
    (refers : ∀ (cursor pushed label : Nat) (base : Int),
      referencesFrom (base + pushed) (value cursor pushed label).code =
        references resolve base (visits cursor pushed))
    (refers' : ∀ (cursor pushed label : Nat) (base : Int),
      referencesFrom (base + pushed) (address cursor pushed label).code =
        references resolve base (visits' cursor pushed)) :
    (ofPlace value address choices).Refers resolve (.ofPlace visits visits') :=
  ⟨refers, refers', refers Register.scratchBase⟩

theorem refers_ofEffect {effect : Nat → Nat → Output} {visits : Nat → List Visit}
    (refers : ∀ (pushed label : Nat) (base : Int),
      referencesFrom (base + pushed) (effect pushed label).code =
        references resolve base (visits pushed)) :
    (ofEffect effect choices).Refers resolve (.ofEffect visits) := by
  have parked : ∀ (cursor pushed label : Nat) (base : Int),
      referencesFrom (base + pushed) (parked effect cursor pushed label).code =
        references resolve base (visits (pushed + (cursor - Register.scratchBase))) := by
    intro cursor pushed label base
    have count : (Emitter.scratchBelow cursor).length = cursor - Register.scratchBase := by
      simp [Emitter.scratchBelow]
    have inner := refers (pushed + (cursor - Register.scratchBase)) label base
    have load : ∀ height, referencesFrom height [.loadImmediate (.general cursor) 0] = [] :=
      fun _ => rfl
    simp only [Plan.parked, Output.code_append, Output.code_ofCode, Output.code_ofEvent,
      List.nil_append, referencesFrom_append, referencesFrom_pushCode, referencesFrom_popCode, load,
      List.append_nil, stackMove_pushCode, count]
    rw [← inner, Int.add_assoc, Int.natCast_add]
  exact ⟨parked, parked, refers⟩

section Constructs

variable {left right operand target value condition consequent alternative body : Plan}
  {visits visits' visits'' : Visits}

theorem refers_binary (op : BinaryOperator) (refers : left.Refers resolve visits)
    (refers' : right.Refers resolve visits') (level : left.IsLevel)
    (cursor pushed label : Nat) (base : Int) :
    referencesFrom (base + pushed) (binary op left right cursor pushed label).code =
      references resolve base
        (visits.value cursor pushed ++ visits'.value (cursor + 1) pushed) := by
  have last : ∀ height, referencesFrom height
      [Emitter.combine op (.general cursor) (.general (cursor + 1))] = [] := by
    intro height
    cases op <;> rfl
  simp only [binary, Output.code_append, Output.code_ofCode, referencesFrom_append, last,
    List.append_nil, (level.value cursor pushed label 0).net, Int.add_zero, refers.value,
    refers'.value, references_append]

theorem refers_unary (op : UnaryOperator) (refers : operand.Refers resolve visits)
    (cursor pushed label : Nat) (base : Int) :
    referencesFrom (base + pushed) (unary op operand cursor pushed label).code =
      references resolve base (visits.value cursor pushed) := by
  have last : ∀ height, referencesFrom height (unaryCode op (.general cursor)) = [] := by
    intro height
    cases op <;> rfl
  simp only [unary, Output.code_append, Output.code_ofCode, referencesFrom_append, last,
    List.append_nil, refers.value]

theorem refers_assign (refers : target.Refers resolve visits)
    (refers' : value.Refers resolve visits') (level : target.IsLevel) (pushed label : Nat)
    (base : Int) :
    referencesFrom (base + pushed) (assign target value pushed label).code =
      references resolve base (visits.address Register.scratchBase pushed ++
        visits'.value (Register.scratchBase + 1) pushed) := by
  have last : ∀ height, referencesFrom height
      [.store (.general (Register.scratchBase + 1)) (.general Register.scratchBase) 0] = [] :=
    fun _ => rfl
  simp only [assign, Output.code_append, Output.code_ofCode, referencesFrom_append, last,
    List.append_nil, (level.address Register.scratchBase pushed label 0).net, Int.add_zero,
    refers.address, refers'.value, references_append]

section Jumps

variable {height : Int} (name : String)

@[simp] theorem referencesFrom_label : referencesFrom height [.label name] = [] := rfl

@[simp] theorem referencesFrom_jump : referencesFrom height [.jump name] = [] := rfl

@[simp] theorem referencesFrom_branchIfZero (register : Register) :
    referencesFrom height [.branchIfZero register name] = [] := rfl

end Jumps

theorem refers_branch (refers : condition.Refers resolve visits)
    (refers' : consequent.Refers resolve visits') (level : condition.IsLevel)
    (pushed label : Nat) (base : Int) :
    referencesFrom (base + pushed) (branch condition consequent pushed label).code =
      references resolve base
        (visits.value Register.scratchBase pushed ++ visits'.effect pushed) := by
  simp only [branch, Output.code_append, Output.code_ofCode, Output.code_ofEvent,
    referencesFrom_append, referencesFrom_label, referencesFrom_branchIfZero, List.append_nil,
    stackMove_append, stackMove_cons, stackMove_nil, Instruction.stackMove,
    (level.value Register.scratchBase pushed label 0).net, Int.add_zero, refers.value,
    refers'.effect, references_append]

theorem refers_branchElse (refers : condition.Refers resolve visits)
    (refers' : consequent.Refers resolve visits') (refers'' : alternative.Refers resolve visits'')
    (level : condition.IsLevel) (level' : consequent.IsLevel) (pushed label : Nat) (base : Int) :
    referencesFrom (base + pushed)
      (branchElse condition consequent alternative pushed label).code =
      references resolve base (visits.value Register.scratchBase pushed ++ visits'.effect pushed ++
        visits''.effect pushed) := by
  simp only [branchElse, Output.code_append, Output.code_ofCode, Output.code_ofEvent,
    referencesFrom_append, referencesFrom_label, referencesFrom_jump, referencesFrom_branchIfZero,
    List.append_nil, stackMove_append, stackMove_cons, stackMove_nil, Instruction.stackMove,
    (level.value Register.scratchBase pushed label 0).net,
    (level'.effect pushed (label + condition.choices + 1) 0).net, Int.add_zero, refers.value,
    refers'.effect, refers''.effect, references_append]

theorem refers_loop (refers : condition.Refers resolve visits)
    (refers' : body.Refers resolve visits') (level : condition.IsLevel) (pushed label : Nat)
    (base : Int) :
    referencesFrom (base + pushed) (loop condition body pushed label).code =
      references resolve base
        (visits.value Register.scratchBase pushed ++ visits'.effect pushed) := by
  simp only [loop, Output.code_append, Output.code_ofCode, Output.code_ofEvent,
    referencesFrom_append, referencesFrom_label, referencesFrom_jump, referencesFrom_branchIfZero,
    List.append_nil, List.nil_append, stackMove_append, stackMove_cons, stackMove_nil,
    Instruction.stackMove, (level.value Register.scratchBase pushed (label + 1) 0).net,
    Int.add_zero, refers.value, refers'.effect, references_append]

theorem refers_read (refers : target.Refers resolve visits) (pushed label : Nat) (base : Int) :
    referencesFrom (base + pushed) (read target pushed label).code =
      references resolve base (visits.address Register.scratchBase pushed) := by
  have last : ∀ height, referencesFrom height [.read (.general (Register.scratchBase + 1)),
      .store (.general (Register.scratchBase + 1)) (.general Register.scratchBase) 0] = [] :=
    fun _ => rfl
  simp only [read, Output.code_append, Output.code_ofCode, Output.code_ofEvent, List.nil_append,
    referencesFrom_append, last, List.append_nil, refers.address]

theorem refers_write (refers : value.Refers resolve visits) (pushed label : Nat) (base : Int) :
    referencesFrom (base + pushed) (write value pushed label).code =
      references resolve base (visits.value Register.scratchBase pushed) := by
  have last : ∀ height, referencesFrom height [.write (.general Register.scratchBase)] = [] :=
    fun _ => rfl
  simp only [write, Output.code_append, Output.code_ofCode, Output.code_ofEvent, List.nil_append,
    referencesFrom_append, last, List.append_nil, refers.value]

end Constructs

/-- A call leaves on the stack the arguments that no constant counts. -/
theorem stackMove_callProcedure (annotate : Bool) (name : String) {plans : List Plan}
    (level : ∀ plan ∈ plans, plan.IsLevel) (pushed label : Nat) :
    stackMove (callProcedure annotate name plans pushed label).code =
      (plans.length - maxOffset : Nat) := by
  have back : ∀ plan ∈ plans.reverse, plan.IsLevel :=
    fun plan member => level plan (List.mem_reverse.mp member)
  have risen := (climbs_pushArguments back (pushed + 1) label (Int.le_refl 0)).net
  have enter : stackMove [.call (Label.procedure name).text] = 0 := rfl
  simp only [callProcedure, Output.code_append, Output.code_ofCode, Output.code_ofEvent,
    List.nil_append, stackMove_append, stackMove_remark, stackMove_pushCode, stackMove_popCode,
    stackMove_dropCode, risen, enter, List.length_reverse, List.length_singleton,
    toInt_wordImmediate]
  omega

end Plan

/-! ## Nodes -/

namespace Node

section

variable (annotate : Bool) (resolve : String → Address)

theorem refers_sequence {nodes : List Node} (few : Few (generalCallsAll nodes))
    (refers : ∀ node ∈ nodes, (node.plan annotate resolve).Refers resolve node.visits)
    (pushed label : Nat) (base : Int) :
    referencesFrom (base + pushed)
      (Plan.sequence (planAll annotate resolve nodes) pushed label).code =
      references resolve base (Visits.sequence (visitsAll nodes) pushed) := by
  induction nodes generalizing label with
  | nil => rfl
  | cons node rest ih =>
      have first := (refers node List.mem_cons_self).effect pushed label base
      have others := ih (Few.right few) (fun other member => refers other (.tail _ member))
        (label + (node.plan annotate resolve).choices)
      have net := ((node.plan_isLevel annotate resolve (Few.left few)).effect pushed label 0).net
      simp only [planAll, Plan.sequence, Output.code_append, referencesFrom_append, net,
        Int.add_zero, first, others, visitsAll, Visits.sequence, List.flatMap_cons,
        references_append]

/-- Each argument is evaluated with the later ones pushed. -/
theorem refers_pushArguments {nodes : List Node} (few : Few (generalCallsBack nodes))
    (refers : ∀ node ∈ nodes, (node.plan annotate resolve).Refers resolve node.visits)
    (pushed label : Nat) (base : Int) :
    referencesFrom (base + pushed)
      (Plan.pushArguments (planAll annotate resolve nodes).reverse pushed label).code =
      references resolve base (Visits.arguments (visitsAll nodes) pushed) := by
  induction nodes generalizing pushed label with
  | nil => rfl
  | cons node rest ih =>
      have others := ih (Few.left few) (fun other member => refers other (.tail _ member)) pushed
        label
      have last := (refers node List.mem_cons_self).value Register.scratchBase
        (pushed + rest.length) (label + Plan.choicesOf (planAll annotate resolve rest)) base
      have level : ∀ plan ∈ (planAll annotate resolve rest).reverse, plan.IsLevel :=
        fun plan member => isLevel_of_mem_planAll annotate resolve
          (fun other listed =>
            other.plan_isLevel annotate resolve (Few.of_back (Few.left few) listed))
          plan (List.mem_reverse.mp member)
      have risen := (Plan.climbs_pushArguments level pushed label (Int.le_refl 0)).net
      rw [List.length_reverse, length_planAll] at risen
      rw [Int.natCast_add, ← Int.add_assoc] at last
      simp only [planAll, List.reverse_cons, Plan.pushArguments_append, Plan.pushArguments,
        Output.append_empty, Output.code_append, Output.code_ofCode, referencesFrom_append,
        referencesFrom_pushCode, List.append_nil, others, risen, List.length_reverse,
        length_planAll, Plan.choicesOf_reverse, last, visitsAll, Visits.arguments,
        visitsAll_eq_map, List.length_map, references_append]

theorem refers_callProcedure (name : String) {nodes : List Node}
    (few : Few (generalCallsBack nodes))
    (refers : ∀ node ∈ nodes, (node.plan annotate resolve).Refers resolve node.visits)
    (pushed label : Nat) (base : Int) :
    referencesFrom (base + pushed)
      (Plan.callProcedure annotate name (planAll annotate resolve nodes) pushed label).code =
      references resolve base (Visits.arguments (visitsAll nodes) (pushed + 1)) := by
  have inner := refers_pushArguments annotate resolve few refers (pushed + 1) label base
  have enter : ∀ height, referencesFrom height [.call (Label.procedure name).text] = [] :=
    fun _ => rfl
  rw [Int.natCast_add, ← Int.add_assoc] at inner
  simp only [Plan.callProcedure, Output.code_append, Output.code_ofCode, Output.code_ofEvent,
    List.nil_append, referencesFrom_append, referencesFrom_remark, stackMove_remark,
    stackMove_append,
    referencesFrom_pushCode, referencesFrom_popCode, referencesFrom_dropCode, enter,
    List.append_nil, stackMove_pushCode, List.length_singleton, Int.zero_add]
  exact inner

theorem refers_call (name : String) {arguments : List Node}
    (refers : ∀ node ∈ arguments, Few node.generalCalls →
      (node.plan annotate resolve).Refers resolve node.visits)
    (few : Few (generalCalls (.call name arguments))) (pushed label : Nat) (base : Int) :
    referencesFrom (base + pushed)
      (Plan.call annotate name (planAll annotate resolve arguments) pushed label).code =
      references resolve base (Visits.call name (visitsAll arguments) pushed) := by
  rcases Plan.general_or_intrinsic name arguments with
    general | ⟨intrinsic, first, rest, known, rfl⟩
  · rw [generalCalls_call general] at few
    rw [Plan.call_general annotate (general.imp_right (by rintro rfl; rfl)),
      Visits.call_general (general.imp_right (by rintro rfl; rfl))]
    exact refers_callProcedure annotate resolve name (Few.left few)
      (fun node member => refers node member (few.left.of_back member)) pushed label base
  · rw [generalCalls_intrinsic first rest known] at few
    have argument := refers first List.mem_cons_self few
    rw [planAll, visitsAll]
    cases intrinsic with
    | read =>
        simpa [Plan.call_read annotate _ _ known, Visits.call, known] using
          Plan.refers_read argument pushed label base
    | write =>
        simpa [Plan.call_write annotate _ _ known, Visits.call, known] using
          Plan.refers_write argument pushed label base

/-- **The references in lowered code are those of the names looked up**, each made
up for the words that are pushed when the name is reached. -/
theorem plan_refers (node : Node) (few : Few node.generalCalls) :
    (node.plan annotate resolve).Refers resolve node.visits := by
  induction node with
  | program items ih =>
      exact Plan.refers_ofEffect (refers_sequence annotate resolve few fun item member =>
        ih item member (Few.of_all few member))
  | procedure heading locals body => exact Plan.refers_ofEffect fun _ _ _ => rfl
  | header heading => exact Plan.refers_ofEffect fun _ _ _ => rfl
  | declarations declared => exact Plan.refers_ofEffect fun _ _ _ => rfl
  | declaration declared => exact Plan.refers_ofEffect fun _ _ _ => rfl
  | block statements ih =>
      exact Plan.refers_ofEffect (refers_sequence annotate resolve few fun statement member =>
        ih statement member (Few.of_all few member))
  | call name arguments ih =>
      exact Plan.refers_ofEffect (refers_call annotate resolve name ih few)
  | assign target value ihTarget ihValue =>
      exact Plan.refers_ofEffect (Plan.refers_assign (ihTarget (Few.left few))
        (ihValue (Few.right few)) (target.plan_isLevel annotate resolve (Few.left few)))
  | branch condition consequent ihCondition ihConsequent =>
      exact Plan.refers_ofEffect (Plan.refers_branch (ihCondition (Few.left few))
        (ihConsequent (Few.right few)) (condition.plan_isLevel annotate resolve (Few.left few)))
  | branchElse condition consequent alternative ihCondition ihConsequent ihAlternative =>
      have both := Few.left few
      exact Plan.refers_ofEffect (Plan.refers_branchElse (ihCondition both.left)
        (ihConsequent both.right) (ihAlternative (Few.right few))
        (condition.plan_isLevel annotate resolve both.left)
        (consequent.plan_isLevel annotate resolve both.right))
  | loop condition body ihCondition ihBody =>
      exact Plan.refers_ofEffect (Plan.refers_loop (ihCondition (Few.left few))
        (ihBody (Few.right few)) (condition.plan_isLevel annotate resolve (Few.left few)))
  | binary op left right ihLeft ihRight =>
      exact Plan.refers_ofValue (Plan.refers_binary op (ihLeft (Few.left few))
        (ihRight (Few.right few)) (left.plan_isLevel annotate resolve (Few.left few)))
  | unary op operand ih =>
      have value := Plan.refers_unary op (ih few)
      cases op with
      | dereference => exact Plan.refers_ofPlace value (ih few).value
      | plus => exact Plan.refers_ofValue value
      | minus => exact Plan.refers_ofValue value
      | not => exact Plan.refers_ofValue value
  | constant value => exact Plan.refers_ofValue fun _ _ _ _ => rfl
  | reference name =>
      refine Plan.refers_ofPlace (fun cursor pushed _ base => ?_) fun cursor pushed _ base =>
        referencesFrom_addressOf resolve base name cursor pushed
      have address := referencesFrom_addressOf resolve base name cursor pushed
      have load : ∀ height,
          referencesFrom height [.load (.general cursor) (.general cursor) 0] = [] := fun _ => rfl
      unfold Plan.reference
      split
      · simpa using address
      · simpa [referencesFrom_append, load] using address

end

/-- The references in the code of a statement that starts on a bare frame. -/
theorem frameReferences_lower_effect (node : Node) (few : Few node.generalCalls)
    {before : Context} {emitted : Emitted Unit} (bare : before.pushed = 0)
    (lowered : node.lower.effect.run before = .ok emitted) :
    frameReferences emitted.output.code =
      (slots before.resolve (node.visits.effect 0)).map (Slot.reference 0) := by
  obtain ⟨cursor, performs⟩ := (Node.lower_follows node).effect before ⟨rfl, rfl⟩
  have code := congrArg (fun result => result.output.code) (performs emitted lowered)
  rw [frameReferences_eq, code, bare]
  exact (node.plan_refers before.annotate before.resolve few).effect 0 before.nextLabel 0

/-- **A reference after a call is off by the arguments that no constant counts**,
which the call leaves on the stack. -/
theorem getLast?_frameReferences_call {callee name : String} {arguments : List Node}
    {shift : Nat} {before : Context} {emitted : Emitted Unit}
    (general : Intrinsic.ofName? callee = none) (few : Few (generalCallsBack arguments))
    (bare : before.pushed = 0) (found : (before.resolve name).shift? = some shift)
    (inReach : shift ≤ maxOffset)
    (lowered : (Node.lower (.block [.call callee arguments, .reference name])).effect.run before =
      .ok emitted) :
    (frameReferences emitted.output.code).getLast? =
      some ⟨-shift, (arguments.length - maxOffset : Nat)⟩ := by
  obtain ⟨cursor, performs⟩ := (Node.lower_follows _).effect before ⟨rfl, rfl⟩
  have code := congrArg (fun result => result.output.code) (performs emitted lowered)
  have level : ∀ plan ∈ planAll before.annotate before.resolve arguments, plan.IsLevel :=
    isLevel_of_mem_planAll _ _ fun node member => node.plan_isLevel _ _ (few.of_back member)
  have moved := Plan.stackMove_callProcedure before.annotate callee level 0 before.nextLabel
  rw [length_planAll] at moved
  generalize arguments.length - maxOffset = left at moved ⊢
  have last : ∀ label, referencesFrom left
      ((plan before.annotate before.resolve (.reference name)).effect 0 label).code =
        [⟨-shift, left⟩] := by
    intro label
    have refers := (plan_refers before.annotate before.resolve (.reference name) nofun).effect 0
      label left
    have inside : Slot.InReach ⟨shift, 0⟩ := inReach
    simpa [visits, Visits.ofPlace, references, slots, Visit.slot?, found,
      Slot.reference_of_inReach inside] using refers
  have parts : (plan before.annotate before.resolve
      (.block [.call callee arguments, .reference name])).effect 0 before.nextLabel =
      Plan.callProcedure before.annotate callee (planAll before.annotate before.resolve arguments) 0
          before.nextLabel ++
        (plan before.annotate before.resolve (.reference name)).effect 0 (before.nextLabel +
          Plan.callChoices callee (planAll before.annotate before.resolve arguments)) := by
    simp [plan, planAll, Plan.ofEffect, Plan.sequence, Plan.call_general _ (.inl general)]
  rw [frameReferences_eq, code, bare, parts, Output.code_append, referencesFrom_append, moved,
    Int.zero_add, last, List.getLast?_concat]

/-- **Every reference makes up for the words pushed.** The references in the code
of a statement are those to the words of the frame that lowering visits, in
order. Each reaches its word from wherever the stack register is, and where
nothing is pushed its constant is the distance to the word.

A call with more arguments than a constant can count would leave some of them on
the stack when it drops them, so such calls are left out. -/
theorem lower_effect_compensates (node : Node) (before : Context) (emitted : Emitted Unit)
    (few : ∀ call ∈ node.generalCalls, call.2 < 2 ^ 31) (bare : before.pushed = 0)
    (reach : ∀ slot ∈ slots before.resolve (node.visits.effect 0), slot.InReach)
    (lowered : node.lower.effect.run before = .ok emitted) :
    (frameReferences emitted.output.code).map
        (fun reference => -(reference.amount + reference.displacement)) =
      (slots before.resolve (node.visits.effect 0)).map (fun slot => (slot.shift : Int)) ∧
    List.Forall₂
      (fun reference slot => reference.displacement = slot.pushed ∧
        (reference.displacement = 0 → reference.amount = -slot.shift))
      (frameReferences emitted.output.code) (slots before.resolve (node.visits.effect 0)) := by
  have counted : Few node.generalCalls := fun call member => Nat.le_of_lt_succ (few call member)
  rw [node.frameReferences_lower_effect counted bare lowered]
  constructor
  · rw [List.map_map]
    refine List.map_congr_left fun slot member => ?_
    rw [Function.comp_apply, Slot.reference_of_inReach (reach slot member)]
    simp only [Int.natCast_add]
    omega
  · rw [List.forall₂_map_left_iff, List.forall₂_same]
    intro slot member
    rw [Slot.reference_of_inReach (reach slot member)]
    simp only [Int.natCast_add]
    omega

/-- An assignment `a := n + f(a, g(n))` with an array `a` and a parameter `n`: the
registers of the sum are pushed around the call, and its second argument is a
call of its own. -/
theorem lower_effect_compensates_nested :
    ∃ emitted, (Node.lower (.assign (.reference "a") (.binary .add (.reference "n")
        (.call "f" [.reference "a", .call "g" [.reference "n"]])))).effect.run
        { Context.initial false with scope := ⟨[⟨"a", 3⟩], ["n"]⟩ } = .ok emitted ∧
      frameReferences emitted.output.code =
        [⟨-3, 0⟩, ⟨-4, 0⟩, ⟨-8, 4⟩, ⟨-7, 4⟩] ∧
      (frameReferences emitted.output.code).map
        (fun reference => -(reference.amount + reference.displacement)) = [3, 4, 4, 3] := by
  have lowered : ∃ emitted, (Node.lower (.assign (.reference "a") (.binary .add (.reference "n")
      (.call "f" [.reference "a", .call "g" [.reference "n"]])))).effect.run
      { Context.initial false with scope := ⟨[⟨"a", 3⟩], ["n"]⟩ } = .ok emitted ∧
      frameReferences emitted.output.code = [⟨-3, 0⟩, ⟨-4, 0⟩, ⟨-8, 4⟩, ⟨-7, 4⟩] :=
    ⟨_, rfl, by decide⟩
  obtain ⟨emitted, ran, listed⟩ := lowered
  refine ⟨emitted, ran, listed, (lower_effect_compensates _ _ emitted ?_ rfl ?_ ran).1⟩
  · decide
  · decide

/-! ## Limits -/

/-- A call with a number of constants, and a name behind it. -/
def callThenName (count : Nat) : Node :=
  .block [.call "f" (List.replicate count (.constant 0)), .reference "x"]

/-- A procedure with one local. -/
def singleLocal : Context :=
  { Context.initial false with scope := ⟨[⟨"x", 1⟩], []⟩ }

section Constants

variable (count : Nat)

theorem visits_constants (pushed : Nat) :
    Visits.arguments (visitsAll (List.replicate count (.constant 0))) pushed = [] := by
  induction count with
  | zero => rfl
  | succ count ih => rw [List.replicate_succ, visitsAll, Visits.arguments, ih]; rfl

theorem generalCallsBack_constants :
    generalCallsBack (List.replicate count (.constant 0)) = [] := by
  induction count with
  | zero => rfl
  | succ count ih => rw [List.replicate_succ, generalCallsBack, ih]; rfl

theorem sizeAll_constants : sizeAll (List.replicate count (.constant 0)) = count := by
  induction count with
  | zero => rfl
  | succ count ih => rw [List.replicate_succ, sizeAll, ih, size, Nat.add_comm]

theorem slots_callThenName :
    slots singleLocal.resolve ((callThenName count).visits.effect 0) = [⟨1, 0⟩] := by
  have general : Intrinsic.ofName? "f" = none := rfl
  have inner : Visits.call "f" (visitsAll (List.replicate count (.constant 0))) 0 = [] := by
    rw [Visits.call_general (.inl general), visits_constants]
  have looked : (callThenName count).visits.effect 0 = [⟨"x", 0⟩] := by
    simp only [callThenName, visits, visitsAll, Visits.ofEffect, Visits.sequence,
      List.flatMap_cons, List.flatMap_nil, inner]
    rfl
  rw [looked]
  rfl

end Constants

/-- A call with more constants than can be counted spoils the reference behind it. -/
theorem uncompensated_callThenName {count : Nat} (many : maxOffset < count)
    (fits : count + 9 ≤ maxCount) :
    ∃ emitted, (callThenName count).lower.effect.run singleLocal = .ok emitted ∧
      (frameReferences emitted.output.code).map
        (fun reference => -(reference.amount + reference.displacement)) ≠ [1] := by
  have counted : (callThenName count).size = count + 3 := by
    simp only [callThenName, size, sizeAll, sizeAll_constants]
    omega
  have room : singleLocal.HasRoom 0 (callThenName count).size := by
    rw [counted]
    constructor <;> simp only [singleLocal, Context.initial, Register.scratchBase] <;> omega
  obtain ⟨cursor, lowered⟩ := (callThenName count).yields_effect singleLocal room
  have few : Few (generalCallsBack (List.replicate count (.constant 0))) := by
    rw [generalCallsBack_constants]
    exact fun call member => absurd member List.not_mem_nil
  have found : (singleLocal.resolve "x").shift? = some 1 := rfl
  have last := getLast?_frameReferences_call rfl few rfl found (by decide) lowered
  rw [List.length_replicate] at last
  refine ⟨_, lowered, fun compensated => ?_⟩
  have reached := congrArg List.getLast? compensated
  rw [List.getLast?_map, last, List.getLast?_singleton, Option.map_some, Option.some.injEq]
    at reached
  dsimp only at reached
  omega

/-- A choice where a value is needed. -/
def branchAsValue : Node :=
  .assign (.reference "x") (.branch (.reference "x") (.block []) none)

/-- **Where references do not make up for the words pushed.** A call with `2 ^ 31` arguments
drops one too few, and the local behind it is missed by that word, though it is in reach.
And words can be pushed where nothing is called: a choice where a value is needed pushes
the registers in use, so the constant in it is not the distance alone. -/
theorem lower_effect_overshoots :
    ((∀ slot ∈ slots singleLocal.resolve ((callThenName (2 ^ 31)).visits.effect 0),
        slot.InReach) ∧
      ∃ emitted, (callThenName (2 ^ 31)).lower.effect.run singleLocal = .ok emitted ∧
        (frameReferences emitted.output.code).map
            (fun reference => -(reference.amount + reference.displacement)) ≠
          (slots singleLocal.resolve ((callThenName (2 ^ 31)).visits.effect 0)).map
            (fun slot => (slot.shift : Int))) ∧
    branchAsValue.generalCalls = [] ∧
      slots singleLocal.resolve (branchAsValue.visits.effect 0) = [⟨1, 0⟩, ⟨1, 1⟩] ∧
      ∃ emitted, branchAsValue.lower.effect.run singleLocal = .ok emitted ∧
        frameReferences emitted.output.code = [⟨-1, 0⟩, ⟨-2, 1⟩] := by
  rw [slots_callThenName]
  exact ⟨⟨by decide, uncompensated_callThenName (by decide) (by decide)⟩, rfl, rfl, _, rfl,
    by decide⟩

end Node

end ProcLang
