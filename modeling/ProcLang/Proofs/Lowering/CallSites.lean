import ProcLang.Proofs.Lowering.Following

/-!
# Call sites

The calls of a tree that go to procedures, in the order in which their code
stands (`Node.generalCalls`): the arguments of a call come before it, the last
one first, and an intrinsic has only its first argument lowered.

Lowered code has exactly these calls, and each is followed at once by the code
that drops its arguments and pops the link register (`Node.plan_returns`).
-/

set_option autoImplicit false

namespace ProcLang

namespace Node

mutual
/-- The calls of procedures in a node, each with its number of arguments, in the
order of their code. -/
def generalCalls : Node → List (String × Nat)
  | .program items => generalCallsAll items
  | .procedure .. | .header _ | .declarations _ | .declaration _ => []
  | .block statements => generalCallsAll statements
  | .call name arguments =>
      match Intrinsic.ofName? name with
      | some _ =>
          match arguments with
          | [] => [(name, 0)]
          | first :: _ => generalCalls first
      | none => generalCallsBack arguments ++ [(name, arguments.length)]
  | .assign target value => generalCalls target ++ generalCalls value
  | .branch condition consequent none => generalCalls condition ++ generalCalls consequent
  | .branch condition consequent (some alternative) =>
      generalCalls condition ++ generalCalls consequent ++ generalCalls alternative
  | .loop condition body => generalCalls condition ++ generalCalls body
  | .binary _ left right => generalCalls left ++ generalCalls right
  | .unary _ operand => generalCalls operand
  | .constant _ | .reference _ => []

/-- The calls in nodes that are lowered in order. -/
def generalCallsAll : List Node → List (String × Nat)
  | [] => []
  | node :: rest => generalCalls node ++ generalCallsAll rest

/-- The calls in nodes that are lowered from the last to the first. -/
def generalCallsBack : List Node → List (String × Nat)
  | [] => []
  | node :: rest => generalCallsBack rest ++ generalCalls node
end

theorem mem_generalCallsAll {nodes : List Node} {call : String × Nat} :
    call ∈ generalCallsAll nodes ↔ ∃ node ∈ nodes, call ∈ node.generalCalls := by
  induction nodes with
  | nil => simp [generalCallsAll]
  | cons node rest ih => simp [generalCallsAll, ih]

theorem mem_generalCallsBack {nodes : List Node} {call : String × Nat} :
    call ∈ generalCallsBack nodes ↔ ∃ node ∈ nodes, call ∈ node.generalCalls := by
  induction nodes with
  | nil => simp [generalCallsBack]
  | cons node rest ih => simp [generalCallsBack, ih, or_comm]

/-- A call of an intrinsic with an argument lowers the argument only. -/
theorem generalCalls_intrinsic {name : String} {intrinsic : Intrinsic} (first : Node)
    (rest : List Node) (known : Intrinsic.ofName? name = some intrinsic) :
    generalCalls (.call name (first :: rest)) = first.generalCalls := by
  simp [generalCalls, known]

/-- All other calls go to procedures. -/
theorem generalCalls_call {name : String} {arguments : List Node}
    (general : Intrinsic.ofName? name = none ∨ arguments = []) :
    generalCalls (.call name arguments) =
      generalCallsBack arguments ++ [(name, arguments.length)] := by
  rcases general with unknown | rfl
  · cases arguments <;> simp only [generalCalls, unknown]
  · cases known : Intrinsic.ofName? name <;> simp [generalCalls, generalCallsBack, known]

/-- No call has more arguments than one constant can count. -/
def Few (calls : List (String × Nat)) : Prop :=
  ∀ call ∈ calls, call.2 ≤ maxOffset

section Few

variable {calls calls' : List (String × Nat)} {name : String} {node : Node} {nodes : List Node}

theorem Few.left (few : Few (calls ++ calls')) : Few calls :=
  fun call member => few call (List.mem_append_left _ member)

theorem Few.right (few : Few (calls ++ calls')) : Few calls' :=
  fun call member => few call (List.mem_append_right _ member)

theorem Few.of_all (few : Few (generalCallsAll nodes)) (member : node ∈ nodes) :
    Few node.generalCalls :=
  fun call listed => few call (mem_generalCallsAll.mpr ⟨node, member, listed⟩)

theorem Few.of_back (few : Few (generalCallsBack nodes)) (member : node ∈ nodes) :
    Few node.generalCalls :=
  fun call listed => few call (mem_generalCallsBack.mpr ⟨node, member, listed⟩)

end Few

end Node

/-! ## Calls in code -/

/-- What stands after a call with a number of arguments: the arguments are
dropped, and the link register is popped. -/
def returnCode (words : Nat) : List Instruction :=
  (if words = 0 then [] else [.addImmediate .stack .stack (Int32.ofInt (-words))]) ++
    [.addImmediate .stack .stack (-1), .load .link .stack 0]

/-- The calls in code are exactly the given ones, in order, and each is followed
by the code that takes back its arguments and the link register. -/
def Returned : List Instruction → List (String × Nat) → Prop
  | [], calls => calls = []
  | .call name :: rest, calls =>
      ∃ callee words others, calls = (callee, words) :: others ∧
        name = (Label.procedure callee).text ∧ returnCode words <+: rest ∧ Returned rest others
  | _ :: rest, calls => Returned rest calls

theorem Returned.append {first second : List Instruction} {calls calls' : List (String × Nat)}
    (returned : Returned first calls) (returned' : Returned second calls') :
    Returned (first ++ second) (calls ++ calls') := by
  fun_induction Returned first calls with
  | case1 calls =>
      obtain rfl := returned
      exact returned'
  | case2 name rest calls ih =>
      obtain ⟨callee, words, others, rfl, named, returns, later⟩ := returned
      exact ⟨callee, words, others ++ calls', rfl, named, returns.trans (List.prefix_append _ _),
        ih _ later⟩
  | case3 instruction rest calls notCall ih =>
      rw [List.cons_append, Returned]
      · exact ih returned
      · exact notCall

/-- Code without a call. -/
theorem returned_of_not_mem {code : List Instruction} (none : ∀ name, .call name ∉ code) :
    Returned code [] := by
  induction code with
  | nil => rfl
  | cons instruction rest ih =>
      rw [Returned]
      · exact ih fun name member => none name (.tail _ member)
      · intro name same
        exact none name (same ▸ List.mem_cons_self)

theorem returned_pushCode (registers : List Register) : Returned (pushCode registers) [] :=
  returned_of_not_mem fun name member => by
    obtain ⟨register, -, listed⟩ := List.mem_flatMap.mp member
    simp at listed

theorem returned_popCode (registers : List Register) : Returned (popCode registers) [] :=
  returned_of_not_mem fun name member => by
    obtain ⟨register, -, listed⟩ := List.mem_flatMap.mp member
    simp at listed

theorem neg_wordImmediate {words : Nat} (few : words ≤ maxOffset) :
    -wordImmediate words = Int32.ofInt (-words) := by
  apply Int32.toInt_inj.mp
  rw [toInt_neg_wordImmediate, Nat.min_eq_left few, Int32.toInt_ofInt_of_le]
  · unfold maxOffset at few
    omega
  · omega

theorem dropCode_append_popCode {words : Nat} (few : words ≤ maxOffset) :
    dropCode words ++ popCode [.link] = returnCode words := by
  unfold dropCode returnCode
  by_cases none : words = 0
  · subst none
    rfl
  · rw [if_pos (Nat.pos_of_ne_zero none), if_neg none, neg_wordImmediate few]
    rfl

/-! ## Plans -/

/-- The calls in all code of a plan are the given ones. -/
structure Plan.Returns (plan : Plan) (calls : List (String × Nat)) : Prop where
  value : ∀ cursor pushed label, Returned (plan.value cursor pushed label).code calls
  address : ∀ cursor pushed label, Returned (plan.address cursor pushed label).code calls
  effect : ∀ pushed label, Returned (plan.effect pushed label).code calls

namespace Plan

theorem returns_ofValue {value : Nat → Nat → Nat → Output} {choices : Nat}
    {calls : List (String × Nat)}
    (returned : ∀ cursor pushed label, Returned (value cursor pushed label).code calls) :
    (ofValue value choices).Returns calls := by
  refine ⟨returned, ?_, returned Register.scratchBase⟩
  intro cursor pushed label
  simpa [ofValue] using returned cursor pushed label

theorem returns_ofPlace {value address : Nat → Nat → Nat → Output} {choices : Nat}
    {calls : List (String × Nat)}
    (returned : ∀ cursor pushed label, Returned (value cursor pushed label).code calls)
    (returned' : ∀ cursor pushed label, Returned (address cursor pushed label).code calls) :
    (ofPlace value address choices).Returns calls :=
  ⟨returned, returned', returned Register.scratchBase⟩

theorem returns_ofEffect {effect : Nat → Nat → Output} {choices : Nat}
    {calls : List (String × Nat)}
    (returned : ∀ pushed label, Returned (effect pushed label).code calls) :
    (ofEffect effect choices).Returns calls := by
  have value : ∀ cursor pushed label,
      Returned (parked effect cursor pushed label).code calls := by
    intro cursor pushed label
    have pushes := (returned_pushCode (Emitter.scratchBelow cursor)).append
      (returned (pushed + (Emitter.scratchBelow cursor).length) label)
    have pops := pushes.append (returned_popCode (Emitter.scratchBelow cursor).reverse)
    have last : Returned [.loadImmediate (.general cursor) 0] [] := rfl
    simpa [parked] using pops.append last
  refine ⟨value, ?_, returned⟩
  intro cursor pushed label
  simpa [ofEffect] using value cursor pushed label

theorem returned_addressOf (resolve : String → Address) (name : String) (target : Register)
    (pushed : Nat) : Returned (addressOf resolve name target pushed).code [] := by
  unfold addressOf frameAddress
  cases resolve name <;> rfl

theorem returned_reference (resolve : String → Address) (name : String) (cursor pushed : Nat) :
    Returned (reference resolve name cursor pushed).code [] := by
  have address := returned_addressOf resolve name (.general cursor) pushed
  unfold reference
  split
  · simpa using address
  · have load : Returned [.load (.general cursor) (.general cursor) 0] [] := rfl
    simpa using address.append load

theorem returned_remark (annotate : Bool) (text : String) :
    Returned (remark annotate text).code [] := by
  unfold remark
  split <;> rfl

theorem returned_binary (op : BinaryOperator) {left right : Plan}
    {calls calls' : List (String × Nat)}
    (returns : left.Returns calls) (returns' : right.Returns calls') (cursor pushed label : Nat) :
    Returned (binary op left right cursor pushed label).code (calls ++ calls') := by
  have both := (returns.value cursor pushed label).append
    (returns'.value (cursor + 1) pushed (label + left.choices))
  have last : Returned [Emitter.combine op (.general cursor) (.general (cursor + 1))] [] := by
    cases op <;> rfl
  simpa [binary] using both.append last

theorem returned_unary (op : UnaryOperator) {operand : Plan} {calls : List (String × Nat)}
    (returns : operand.Returns calls) (cursor pushed label : Nat) :
    Returned (unary op operand cursor pushed label).code calls := by
  have last : Returned (unaryCode op (.general cursor)) [] := by
    cases op <;> rfl
  simpa [unary] using (returns.value cursor pushed label).append last

theorem returned_assign {target value : Plan} {calls calls' : List (String × Nat)}
    (returns : target.Returns calls) (returns' : value.Returns calls') (pushed label : Nat) :
    Returned (assign target value pushed label).code (calls ++ calls') := by
  have both := (returns.address Register.scratchBase pushed label).append
    (returns'.value (Register.scratchBase + 1) pushed (label + target.choices))
  have last : Returned
      [.store (.general (Register.scratchBase + 1)) (.general Register.scratchBase) 0] [] := rfl
  simpa [assign] using both.append last

theorem returned_branch {condition consequent : Plan} {calls calls' : List (String × Nat)}
    (returns : condition.Returns calls) (returns' : consequent.Returns calls')
    (pushed label : Nat) :
    Returned (branch condition consequent pushed label).code (calls ++ calls') := by
  have jump : ∀ name, Returned [.branchIfZero (.general Register.scratchBase) name] [] :=
    fun _ => rfl
  have labels : ∀ name name', Returned [.label name, .label name'] [] := fun _ _ => rfl
  have whole := (((returns.value Register.scratchBase pushed label).append
    (jump (Label.branchFalse (label + condition.choices)).text)).append
    (returns'.effect pushed (label + condition.choices + 1))).append
    (labels (Label.branchFalse (label + condition.choices)).text
      (Label.branchEnd (label + condition.choices)).text)
  simpa [branch] using whole

theorem returned_branchElse {condition consequent alternative : Plan}
    {calls calls' calls'' : List (String × Nat)} (returns : condition.Returns calls)
    (returns' : consequent.Returns calls') (returns'' : alternative.Returns calls'')
    (pushed label : Nat) :
    Returned (branchElse condition consequent alternative pushed label).code
      (calls ++ calls' ++ calls'') := by
  have jump : ∀ name, Returned [.branchIfZero (.general Register.scratchBase) name] [] :=
    fun _ => rfl
  have leave : ∀ name name', Returned [.jump name, .label name'] [] := fun _ _ => rfl
  have last : ∀ name, Returned [.label name] [] := fun _ => rfl
  have whole := (((((returns.value Register.scratchBase pushed label).append
    (jump (Label.branchFalse (label + condition.choices)).text)).append
    (returns'.effect pushed (label + condition.choices + 1))).append
    (leave (Label.branchEnd (label + condition.choices)).text
      (Label.branchFalse (label + condition.choices)).text)).append
    (returns''.effect pushed (label + condition.choices + 1 + consequent.choices))).append
    (last (Label.branchEnd (label + condition.choices)).text)
  simpa [branchElse] using whole

theorem returned_loop {condition body : Plan} {calls calls' : List (String × Nat)}
    (returns : condition.Returns calls) (returns' : body.Returns calls') (pushed label : Nat) :
    Returned (loop condition body pushed label).code (calls ++ calls') := by
  have first : ∀ name, Returned [.label name] [] := fun _ => rfl
  have jump : ∀ name, Returned [.branchIfZero (.general Register.scratchBase) name] [] :=
    fun _ => rfl
  have last : ∀ name name', Returned [.jump name, .label name'] [] := fun _ _ => rfl
  have whole := ((((first (Label.loopBegin label).text).append
    (returns.value Register.scratchBase pushed (label + 1))).append
    (jump (Label.loopEnd label).text)).append
    (returns'.effect pushed (label + 1 + condition.choices))).append
    (last (Label.loopBegin label).text (Label.loopEnd label).text)
  simpa [loop] using whole

theorem returned_callProcedure (annotate : Bool) (name : String) {plans : List Plan}
    {calls : List (String × Nat)} (pushed label : Nat)
    (arguments : Returned (pushArguments plans.reverse (pushed + 1) label).code calls)
    (few : plans.length ≤ maxOffset) :
    Returned (callProcedure annotate name plans pushed label).code
      (calls ++ [(name, plans.length)]) := by
  have comment := returned_remark annotate
    ("call " ++ name ++ " (" ++ Decimal.text plans.length ++ " args)")
  have back : Returned (returnCode plans.length) [] := by
    unfold returnCode
    split <;> rfl
  have enter : Returned (.call (Label.procedure name).text :: returnCode plans.length)
      [(name, plans.length)] :=
    ⟨name, plans.length, [], rfl, rfl, List.prefix_rfl, back⟩
  have whole := ((comment.append (returned_pushCode [.link])).append arguments).append enter
  simpa [callProcedure, dropCode_append_popCode few] using whole

end Plan

namespace Node

section

variable (annotate : Bool) (resolve : String → Address)

theorem returned_sequence {nodes : List Node}
    (returns : ∀ node ∈ nodes, (node.plan annotate resolve).Returns node.generalCalls)
    (pushed label : Nat) :
    Returned (Plan.sequence (planAll annotate resolve nodes) pushed label).code
      (generalCallsAll nodes) := by
  induction nodes generalizing label with
  | nil => rfl
  | cons node rest ih =>
      have first := (returns node List.mem_cons_self).effect pushed label
      have others := ih (fun other member => returns other (.tail _ member))
        (label + (node.plan annotate resolve).choices)
      simpa [planAll, Plan.sequence, generalCallsAll] using first.append others

/-- The calls in arguments that are pushed from the last to the first. -/
theorem returned_pushArguments {nodes : List Node}
    (returns : ∀ node ∈ nodes, (node.plan annotate resolve).Returns node.generalCalls)
    (pushed label : Nat) :
    Returned (Plan.pushArguments (planAll annotate resolve nodes).reverse pushed label).code
      (generalCallsBack nodes) := by
  induction nodes generalizing pushed label with
  | nil => rfl
  | cons node rest ih =>
      have others := ih (fun other member => returns other (.tail _ member)) pushed label
      have last := (returns node List.mem_cons_self).value Register.scratchBase
        (pushed + (planAll annotate resolve rest).length)
        (label + Plan.choicesOf (planAll annotate resolve rest))
      have whole := (others.append last).append (returned_pushCode [.general Register.scratchBase])
      simpa [planAll, generalCallsBack, Plan.pushArguments_append, Plan.pushArguments] using whole

theorem length_planAll (nodes : List Node) :
    (planAll annotate resolve nodes).length = nodes.length := by
  rw [planAll_eq_map, List.length_map]

theorem returned_call (name : String) {arguments : List Node}
    (returns : ∀ node ∈ arguments, Few node.generalCalls →
      (node.plan annotate resolve).Returns node.generalCalls)
    (few : Few (generalCalls (.call name arguments))) (pushed label : Nat) :
    Returned (Plan.call annotate name (planAll annotate resolve arguments) pushed label).code
      (generalCalls (.call name arguments)) := by
  rcases Plan.general_or_intrinsic name arguments with
    general | ⟨intrinsic, first, rest, known, rfl⟩
  · rw [generalCalls_call general] at few
    have pushes := returned_pushArguments annotate resolve
      (fun node member => returns node member (few.left.of_back member)) (pushed + 1) label
    have whole := Plan.returned_callProcedure annotate name pushed label pushes
      (by simpa [length_planAll] using few (name, arguments.length) (by simp))
    rw [Plan.call_general annotate (general.imp_right (by rintro rfl; rfl)),
      generalCalls_call general]
    simpa [length_planAll] using whole
  · rw [generalCalls_intrinsic first rest known] at few ⊢
    have argument := returns first List.mem_cons_self few
    cases intrinsic with
    | read =>
        have last : Returned [.read (.general (Register.scratchBase + 1)),
            .store (.general (Register.scratchBase + 1)) (.general Register.scratchBase) 0] [] :=
          rfl
        have whole := (argument.address Register.scratchBase pushed label).append last
        simpa [planAll, Plan.call_read annotate _ _ known, Plan.read] using whole
    | write =>
        have last : Returned [.write (.general Register.scratchBase)] [] := rfl
        have whole := (argument.value Register.scratchBase pushed label).append last
        simpa [planAll, Plan.call_write annotate _ _ known, Plan.write] using whole

/-- **The code of a node has exactly the calls of the node, and each is followed
by the code that drops its arguments and pops the link register.** -/
theorem plan_returns (node : Node) (few : Few node.generalCalls) :
    (node.plan annotate resolve).Returns node.generalCalls := by
  induction node with
  | program items ih =>
      exact Plan.returns_ofEffect (returned_sequence annotate resolve fun item member =>
        ih item member (Few.of_all few member))
  | procedure heading locals body => exact Plan.returns_ofEffect fun _ _ => rfl
  | header heading => exact Plan.returns_ofEffect fun _ _ => rfl
  | declarations declared => exact Plan.returns_ofEffect fun _ _ => rfl
  | declaration declared => exact Plan.returns_ofEffect fun _ _ => rfl
  | block statements ih =>
      exact Plan.returns_ofEffect (returned_sequence annotate resolve fun statement member =>
        ih statement member (Few.of_all few member))
  | call name arguments ih =>
      exact Plan.returns_ofEffect (returned_call annotate resolve name ih few)
  | assign target value ihTarget ihValue =>
      exact Plan.returns_ofEffect
        (Plan.returned_assign (ihTarget (Few.left few)) (ihValue (Few.right few)))
  | branch condition consequent ihCondition ihConsequent =>
      exact Plan.returns_ofEffect
        (Plan.returned_branch (ihCondition (Few.left few)) (ihConsequent (Few.right few)))
  | branchElse condition consequent alternative ihCondition ihConsequent ihAlternative =>
      exact Plan.returns_ofEffect (Plan.returned_branchElse (ihCondition (Few.left few).left)
        (ihConsequent (Few.left few).right) (ihAlternative (Few.right few)))
  | loop condition body ihCondition ihBody =>
      exact Plan.returns_ofEffect
        (Plan.returned_loop (ihCondition (Few.left few)) (ihBody (Few.right few)))
  | binary op left right ihLeft ihRight =>
      exact Plan.returns_ofValue
        (Plan.returned_binary op (ihLeft (Few.left few)) (ihRight (Few.right few)))
  | unary op operand ih =>
      have value := Plan.returned_unary op (ih few)
      cases op with
      | dereference => exact Plan.returns_ofPlace value (ih few).value
      | plus => exact Plan.returns_ofValue value
      | minus => exact Plan.returns_ofValue value
      | not => exact Plan.returns_ofValue value
  | constant value => exact Plan.returns_ofValue fun _ _ _ => rfl
  | reference name =>
      exact Plan.returns_ofPlace
        (fun cursor pushed _ => Plan.returned_reference resolve name cursor pushed)
        (fun cursor pushed _ => Plan.returned_addressOf resolve name (.general cursor) pushed)

end

end Node

end ProcLang
