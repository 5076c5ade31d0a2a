import ProcLang.Proofs.Lowering.Completion
import ProcLang.Proofs.Lowering.Frame
import ProcLang.Proofs.Lowering.FrameReferences
import ProcLang.Proofs.Lowering.ProgramSegments
import ProcLang.Syntax.Interchange

/-!
# Constants in reach

The front ends accept a procedure only if its locals and arguments together are
in reach of one constant. Of an accepted tree that is not huge, all frames are
therefore made, given back and cleared of arguments by the true number of words.

A reference to the frame also has to pass over the words that are pushed when it
is made. Its constant is right exactly if the two together are still in reach
(`lowerProgram_exact_iff`), which an accepted tree does not guarantee
(`lowerProgram_clamps`): it does if the frame leaves room for one word per node
(`Procedure.inReach_of_extent`).
-/

set_option autoImplicit false

namespace ProcLang

/-! ## Words pushed by a tree -/

theorem forall_lt_append {α : Type} {measure : α → Nat} {first second : List α}
    {bound bound' total : Nat} (below : ∀ x ∈ first, measure x < bound)
    (below' : ∀ x ∈ second, measure x < bound') (most : bound ≤ total) (most' : bound' ≤ total) :
    ∀ x ∈ first ++ second, measure x < total := by
  intro x member
  rcases List.mem_append.mp member with member | member
  · exact Nat.lt_of_lt_of_le (below x member) most
  · exact Nat.lt_of_lt_of_le (below' x member) most'

/-- Names are looked up with no more words pushed than there are registers in use
and nodes. -/
structure Visits.Below (visits : Visits) (size : Nat) : Prop where
  value : ∀ cursor pushed, ∀ visit ∈ visits.value cursor pushed,
    visit.pushed < pushed + (cursor - Register.scratchBase) + size
  address : ∀ cursor pushed, ∀ visit ∈ visits.address cursor pushed,
    visit.pushed < pushed + (cursor - Register.scratchBase) + size
  effect : ∀ pushed, ∀ visit ∈ visits.effect pushed, visit.pushed < pushed + size

namespace Visits

variable {visits : Visits} {size : Nat}

theorem below_ofPlace {value address : Nat → Nat → List Visit}
    (below : ∀ cursor pushed, ∀ visit ∈ value cursor pushed,
      visit.pushed < pushed + (cursor - Register.scratchBase) + size)
    (below' : ∀ cursor pushed, ∀ visit ∈ address cursor pushed,
      visit.pushed < pushed + (cursor - Register.scratchBase) + size) :
    (ofPlace value address).Below size :=
  ⟨below, below', below Register.scratchBase⟩

theorem below_ofValue {value : Nat → Nat → List Visit}
    (below : ∀ cursor pushed, ∀ visit ∈ value cursor pushed,
      visit.pushed < pushed + (cursor - Register.scratchBase) + size) :
    (ofValue value).Below size :=
  below_ofPlace below below

theorem below_ofEffect {effect : Nat → List Visit}
    (below : ∀ pushed, ∀ visit ∈ effect pushed, visit.pushed < pushed + size) :
    (ofEffect effect).Below size :=
  ⟨fun _ _ => below _, fun _ _ => below _, below⟩

end Visits

namespace Node

theorem below_sequence {nodes : List Node} (below : ∀ node ∈ nodes, node.visits.Below node.size)
    (pushed : Nat) :
    ∀ visit ∈ Visits.sequence (visitsAll nodes) pushed,
      visit.pushed < pushed + (1 + sizeAll nodes) := by
  intro visit member
  rw [Visits.sequence, visitsAll_eq_map, List.flatMap_map] at member
  obtain ⟨node, listed, found⟩ := List.mem_flatMap.mp member
  have least := (below node listed).effect pushed visit found
  have most := size_le_sizeAll listed
  omega

theorem below_arguments {nodes : List Node} (below : ∀ node ∈ nodes, node.visits.Below node.size)
    (pushed : Nat) :
    ∀ visit ∈ Visits.arguments (visitsAll nodes) pushed, visit.pushed < pushed + sizeAll nodes := by
  induction nodes with
  | nil => exact nofun
  | cons node rest ih =>
      have later := ih fun other listed => below other (.tail _ listed)
      have here := (below node List.mem_cons_self).value Register.scratchBase
        (pushed + (visitsAll rest).length)
      have count := length_le_sizeAll rest
      rw [visitsAll_eq_map, List.length_map] at here
      rw [visitsAll, Visits.arguments, sizeAll]
      exact forall_lt_append later (by rwa [visitsAll_eq_map, List.length_map]) (by omega)
        (by omega)

theorem below_call (name : String) {arguments : List Node}
    (below : ∀ node ∈ arguments, node.visits.Below node.size) (pushed : Nat) :
    ∀ visit ∈ Visits.call name (visitsAll arguments) pushed,
      visit.pushed < pushed + (1 + sizeAll arguments) := by
  intro visit member
  rcases Plan.general_or_intrinsic name arguments with
    general | ⟨intrinsic, first, rest, known, rfl⟩
  · rw [Visits.call_general (general.imp_right (by rintro rfl; rfl))] at member
    have := below_arguments below (pushed + 1) visit member
    omega
  · have argument := below first List.mem_cons_self
    rw [sizeAll]
    cases intrinsic with
    | read =>
        have := argument.address Register.scratchBase pushed visit
          (by simpa [visitsAll, Visits.call, known] using member)
        omega
    | write =>
        have := argument.value Register.scratchBase pushed visit
          (by simpa [visitsAll, Visits.call, known] using member)
        omega

/-- **A tree pushes no more words than it has nodes** before it looks up a name. -/
theorem visits_below (node : Node) : node.visits.Below node.size := by
  induction node with
  | program items ih => exact Visits.below_ofEffect (below_sequence ih)
  | procedure heading locals body _ => exact Visits.below_ofEffect fun _ => nofun
  | header heading => exact Visits.below_ofEffect fun _ => nofun
  | declarations declared => exact Visits.below_ofEffect fun _ => nofun
  | declaration declared => exact Visits.below_ofEffect fun _ => nofun
  | block statements ih => exact Visits.below_ofEffect (below_sequence ih)
  | call name arguments ih => exact Visits.below_ofEffect (below_call name ih)
  | assign target value ihTarget ihValue =>
      rw [size]
      apply Visits.below_ofEffect
      intro pushed
      exact forall_lt_append (ihTarget.address _ _) (ihValue.value _ _) (by omega) (by omega)
  | branch condition consequent ihCondition ihConsequent =>
      rw [size]
      apply Visits.below_ofEffect
      intro pushed
      exact forall_lt_append (ihCondition.value _ _) (ihConsequent.effect _) (by omega) (by omega)
  | branchElse condition consequent alternative ihCondition ihConsequent ihAlternative =>
      rw [size]
      apply Visits.below_ofEffect
      intro pushed
      have both : ∀ visit ∈ condition.visits.value Register.scratchBase pushed ++
          consequent.visits.effect pushed,
          visit.pushed < pushed + (1 + condition.size + consequent.size) :=
        forall_lt_append (ihCondition.value _ _) (ihConsequent.effect _) (by omega) (by omega)
      exact forall_lt_append both (ihAlternative.effect _) (by omega) (by omega)
  | loop condition body ihCondition ihBody =>
      rw [size]
      apply Visits.below_ofEffect
      intro pushed
      exact forall_lt_append (ihCondition.value _ _) (ihBody.effect _) (by omega) (by omega)
  | binary op left right ihLeft ihRight =>
      rw [size]
      apply Visits.below_ofValue
      intro cursor pushed
      exact forall_lt_append (ihLeft.value _ _) (ihRight.value _ _) (by omega) (by omega)
  | unary op operand ih =>
      have below : ∀ cursor pushed, ∀ visit ∈ operand.visits.value cursor pushed,
          visit.pushed < pushed + (cursor - Register.scratchBase) + (1 + operand.size) := by
        intro cursor pushed visit member
        have := ih.value cursor pushed visit member
        omega
      cases op with
      | dereference => exact Visits.below_ofPlace below below
      | plus => exact Visits.below_ofValue below
      | minus => exact Visits.below_ofValue below
      | not => exact Visits.below_ofValue below
  | constant value => exact Visits.below_ofValue fun _ _ => nofun
  | reference name =>
      have below : ∀ cursor pushed, ∀ visit ∈ [(⟨name, pushed⟩ : Visit)],
          visit.pushed < pushed + (cursor - Register.scratchBase) + 1 := by
        intro cursor pushed visit member
        obtain rfl := List.mem_singleton.mp member
        dsimp only
        omega
      exact Visits.below_ofPlace below below

theorem lt_sizeAll_of_forall {nodes : List Node}
    (below : ∀ node ∈ nodes, ∀ call ∈ node.generalCalls, call.2 < node.size) :
    (∀ call ∈ generalCallsAll nodes, call.2 < sizeAll nodes) ∧
      ∀ call ∈ generalCallsBack nodes, call.2 < sizeAll nodes := by
  constructor
  · intro call member
    obtain ⟨node, listed, found⟩ := mem_generalCallsAll.mp member
    exact Nat.lt_of_lt_of_le (below node listed call found) (size_le_sizeAll listed)
  · intro call member
    obtain ⟨node, listed, found⟩ := mem_generalCallsBack.mp member
    exact Nat.lt_of_lt_of_le (below node listed call found) (size_le_sizeAll listed)

/-- A call has fewer arguments than there are nodes. -/
theorem lt_size_of_mem_generalCalls (node : Node) :
    ∀ call ∈ node.generalCalls, call.2 < node.size := by
  induction node with
  | program items ih =>
      intro call member
      exact Nat.lt_add_left 1 ((lt_sizeAll_of_forall ih).1 call member)
  | procedure heading locals body _ => exact List.forall_mem_nil _
  | header heading => exact List.forall_mem_nil _
  | declarations declared => exact List.forall_mem_nil _
  | declaration declared => exact List.forall_mem_nil _
  | block statements ih =>
      intro call member
      exact Nat.lt_add_left 1 ((lt_sizeAll_of_forall ih).1 call member)
  | call name arguments ih =>
      rw [size]
      rcases Plan.general_or_intrinsic name arguments with
        general | ⟨intrinsic, first, rest, known, rfl⟩
      · rw [generalCalls_call general]
        have count := length_le_sizeAll arguments
        refine forall_lt_append (lt_sizeAll_of_forall ih).2 ?_ (Nat.le_add_left _ _) (Nat.le_refl _)
        intro call own
        obtain rfl := List.mem_singleton.mp own
        dsimp only
        omega
      · intro call member
        rw [generalCalls_intrinsic first rest known] at member
        have := ih first List.mem_cons_self call member
        rw [sizeAll]
        omega
  | assign target value ihTarget ihValue =>
      rw [size]
      exact forall_lt_append ihTarget ihValue (by omega) (by omega)
  | branch condition consequent ihCondition ihConsequent =>
      rw [size]
      exact forall_lt_append ihCondition ihConsequent (by omega) (by omega)
  | branchElse condition consequent alternative ihCondition ihConsequent ihAlternative =>
      rw [size]
      have both : ∀ call ∈ condition.generalCalls ++ consequent.generalCalls,
          call.2 < 1 + condition.size + consequent.size :=
        forall_lt_append ihCondition ihConsequent (by omega) (by omega)
      exact forall_lt_append both ihAlternative (by omega) (by omega)
  | loop condition body ihCondition ihBody =>
      rw [size]
      exact forall_lt_append ihCondition ihBody (by omega) (by omega)
  | binary op left right ihLeft ihRight =>
      rw [size]
      exact forall_lt_append ihLeft ihRight (by omega) (by omega)
  | unary op operand ih =>
      intro call member
      exact Nat.lt_add_left 1 (ih call member)
  | constant value => exact List.forall_mem_nil _
  | reference name => exact List.forall_mem_nil _

end Node

theorem Node.mem_proceduresAll {items : List Node} {procedure : Procedure} :
    procedure ∈ proceduresAll items ↔ ∃ item ∈ items, procedure ∈ item.procedures := by
  induction items with
  | nil => simp [proceduresAll]
  | cons item rest ih => simp [proceduresAll, ih]

theorem Node.size_lt_of_mem_procedures (node : Node) :
    ∀ procedure ∈ node.procedures, procedure.body.size < node.size := by
  induction node with
  | program items ih =>
      intro procedure member
      obtain ⟨item, listed, found⟩ := mem_proceduresAll.mp member
      have := ih item listed procedure found
      have := size_le_sizeAll listed
      rw [size]
      omega
  | procedure heading locals body _ =>
      intro procedure member
      obtain rfl := List.mem_singleton.mp member
      exact Nat.lt_add_of_pos_left Nat.one_pos
  | _ => exact List.forall_mem_nil _

/-! ## Distances in a frame -/

namespace Scope

variable {name : String} {parameters : List String} {locals : List Declaration}
  {shift distance : Nat} {address : Address}

theorem addCount_le (first second : Nat) : addCount first second ≤ first + second :=
  Nat.min_le_left _ _

theorem le_of_findParameter (found : findParameter name shift parameters = some address)
    (lives : address.shift? = some distance) : distance ≤ shift + parameters.length := by
  induction parameters generalizing shift with
  | nil => cases found
  | cons parameter rest ih =>
      have next := addCount_le shift 1
      rw [findParameter] at found
      rw [List.length_cons]
      split at found
      next =>
        cases found
        cases lives
        omega
      next =>
        have := ih found
        omega

theorem le_of_findLocal (found : findLocal name parameters shift locals = some address)
    (lives : address.shift? = some distance) :
    distance ≤ shift + localWords locals + parameters.length := by
  induction locals generalizing shift with
  | nil => exact le_of_findParameter found lives
  | cons declared rest ih =>
      have next := addCount_le shift declared.words
      rw [findLocal] at found
      rw [localWords_cons]
      split at found
      next =>
        cases found
        cases lives
        omega
      next =>
        have := ih found
        omega

/-- What lives in a frame in reach lies within its extent. -/
theorem shift_le_extent {scope : Scope} {extent : Nat} (globals : List Declaration)
    (reach : scope.frameExtent? = some extent)
    (lives : (scope.resolve globals name).shift? = some distance) : distance ≤ extent := by
  obtain ⟨same, -⟩ := frameExtent?_eq reach
  unfold resolve at lives
  cases found : scope.find name with
  | none =>
      rw [found] at lives
      cases lives
  | some address =>
      rw [found] at lives
      have := le_of_findLocal found lives
      omega

end Scope

/-- The words of the frame that the body of a procedure looks up, in order. -/
def Procedure.visited (procedure : Procedure) (globals : List Declaration) : List Slot :=
  slots (procedure.scope.resolve globals) (procedure.body.visits.effect 0)

/-- Every reference is in reach if the frame leaves room for one word per node. -/
theorem Procedure.inReach_of_extent {procedure : Procedure} {extent : Nat}
    (globals : List Declaration) (reach : procedure.scope.frameExtent? = some extent)
    (room : extent + procedure.body.size ≤ 2 ^ 31) :
    ∀ slot ∈ procedure.visited globals, slot.InReach := by
  intro slot member
  obtain ⟨visit, listed, found⟩ := List.mem_filterMap.mp member
  obtain ⟨shift, lives, rfl⟩ := Option.map_eq_some_iff.mp found
  have near := Scope.shift_le_extent globals reach lives
  have few := procedure.body.visits_below.effect 0 visit listed
  unfold Slot.InReach maxOffset
  dsimp only
  omega

/-! ## Accepted trees -/

namespace Node

/-- A tree that one of the front ends hands over. -/
def Accepted (root : Node) : Prop :=
  (∃ source events, parse source = (.ok root, events)) ∨ ∃ text, ofJsonText text = .ok root

theorem reach_of_checkAll {items : List Node}
    (reach : ∀ item ∈ items, item.check = .ok () →
      ∀ procedure ∈ item.procedures, procedure.scope.frameExtent?.isSome)
    (checked : checkAll items = .ok ()) :
    ∀ procedure ∈ proceduresAll items, procedure.scope.frameExtent?.isSome := by
  induction items with
  | nil => exact nofun
  | cons item rest ih =>
      rw [checkAll] at checked
      cases first : item.check with
      | error fault =>
          rw [first] at checked
          cases checked
      | ok _ =>
          rw [first] at checked
          exact List.forall_mem_append.mpr ⟨reach item List.mem_cons_self first,
            ih (fun other member => reach other (.tail _ member)) checked⟩

/-- The frames of a checked tree are in reach. -/
theorem reach_of_check (node : Node) (checked : node.check = .ok ()) :
    ∀ procedure ∈ node.procedures, procedure.scope.frameExtent?.isSome := by
  induction node with
  | program items ih => exact reach_of_checkAll ih checked
  | procedure heading locals body _ =>
      intro procedure member
      obtain rfl := List.mem_singleton.mp member
      rw [check] at checked
      cases declared : checkDeclarations locals with
      | error fault =>
          rw [declared] at checked
          cases checked
      | ok _ =>
          rw [declared] at checked
          have framed : checkFrame heading locals = .ok () := checked
          unfold checkFrame at framed
          split at framed
          next extent found => exact Option.isSome_of_eq_some found
          next => cases framed
  | _ => exact nofun

theorem Accepted.reach {root : Node} (accepted : root.Accepted) :
    ∀ procedure ∈ root.procedures, procedure.scope.frameExtent?.isSome := by
  rcases accepted with ⟨source, events, parsed⟩ | ⟨text, read⟩
  · obtain ⟨items, rfl, shape⟩ := parse_shape parsed
    intro procedure member
    exact (shape_of_mem_procedures shape member).1
  · unfold ofJsonText at read
    split at read
    next => cases read
    next node _ =>
      split at read
      next checked =>
        cases read
        exact reach_of_check _ checked
      next => cases read

end Node

/-! ## Exact constants -/

/-- The code of a procedure makes its frame, gives it back, and drops the
arguments of its calls by the true number of words. -/
structure Procedure.MovesExactly (procedure : Procedure) (annotate : Bool)
    (code : List Instruction) : Prop where
  parts : ∃ inner, code =
    prologue annotate procedure.heading (Scope.localWords procedure.locals) ++ inner ++
      epilogue (Scope.localWords procedure.locals) ∧
    Returned inner procedure.body.generalCalls
  makes : stackMove (prologue annotate procedure.heading (Scope.localWords procedure.locals)) =
    Scope.localWords procedure.locals
  gives : stackMove (epilogue (Scope.localWords procedure.locals)) =
    -Scope.localWords procedure.locals
  drops : ∀ call ∈ procedure.body.generalCalls, stackMove (returnCode call.2) = -call.2 - 1

/-- Every reference to the frame has the distance of its word and the words pushed
as its constant. -/
def Procedure.RefersExactly (procedure : Procedure) (globals : List Declaration)
    (code : List Instruction) : Prop :=
  (frameReferences code).map FrameReference.amount =
    (procedure.visited globals).map fun slot => -((slot.shift : Int) + slot.pushed)

theorem stackMove_returnCode {words : Nat} (few : words ≤ maxOffset) :
    stackMove (returnCode words) = -words - 1 := by
  have popped : stackMove (popCode [.link]) = -1 := rfl
  rw [← dropCode_append_popCode few, stackMove_append, stackMove_dropCode, popped,
    toInt_wordImmediate, Nat.min_eq_left few]
  omega

theorem stackMove_epilogue (words : Nat) :
    stackMove (epilogue words) = -(wordImmediate words).toInt := by
  have ret : stackMove [.ret] = 0 := rfl
  rw [epilogue, stackMove_append, stackMove_dropCode, ret, Int.add_zero]

theorem frameReferences_ends (annotate : Bool) (heading : Header) (words : Nat)
    (inner : List Instruction) :
    frameReferences (prologue annotate heading words ++ inner ++ epilogue words) =
      referencesFrom (wordImmediate words).toInt inner := by
  have first : ∀ height, referencesFrom height (prologue annotate heading words) = [] := by
    intro height
    apply referencesFrom_eq_nil
    intro instruction member
    rcases mem_prologue annotate heading words member with rfl | ⟨text, rfl⟩ | rfl <;> rfl
  have last : ∀ height, referencesFrom height (epilogue words) = [] := by
    intro height
    apply referencesFrom_eq_nil
    intro instruction member
    rcases mem_epilogue words member with rfl | rfl <;> rfl
  rw [frameReferences_eq, referencesFrom_append, referencesFrom_append, first, last,
    stackMove_prologue, Int.zero_add, List.nil_append, List.append_nil]

section Exact

variable {annotate : Bool} {globals : List Declaration} {procedure : Procedure}
  {code : List Instruction}

theorem Procedure.movesExactly (reach : procedure.scope.frameExtent?.isSome)
    (few : Node.Few procedure.body.generalCalls) (isCode : procedure.IsCode annotate globals code) :
    procedure.MovesExactly annotate code := by
  obtain ⟨label, rfl⟩ := isCode
  obtain ⟨extent, reach⟩ := Option.isSome_iff_exists.mp reach
  obtain ⟨same, most⟩ := Scope.frameExtent?_eq reach
  have words : min (Scope.localWords procedure.locals) maxOffset =
      Scope.localWords procedure.locals := Nat.min_eq_left (by
    rw [show procedure.scope.locals = procedure.locals from rfl] at same
    omega)
  have returned := (procedure.body.plan_returns annotate (procedure.scope.resolve globals)
    few).effect 0 label
  refine ⟨⟨_, ?_, returned⟩, ?_, ?_, ?_⟩
  · rw [Procedure.code_output, Scope.frameSize_eq reach]
    rfl
  · rw [stackMove_prologue, toInt_wordImmediate, words]
  · rw [stackMove_epilogue, toInt_wordImmediate, words]
  · intro call member
    exact stackMove_returnCode (few call member)

/-- The constants of the references are right exactly if all words looked up are
in reach. -/
theorem Procedure.refersExactly_iff (few : Node.Few procedure.body.generalCalls)
    (isCode : procedure.IsCode annotate globals code) :
    procedure.RefersExactly globals code ↔ ∀ slot ∈ procedure.visited globals, slot.InReach := by
  obtain ⟨label, rfl⟩ := isCode
  have refers := (procedure.body.plan_refers annotate (procedure.scope.resolve globals) few).effect
    0 label (wordImmediate procedure.scope.frameSize).toInt
  rw [Int.natCast_zero, Int.add_zero] at refers
  unfold RefersExactly
  rw [Procedure.code_output, frameReferences_ends, refers, references, List.map_map,
    ← Procedure.visited, List.map_inj_left]
  apply forall₂_congr
  intro slot member
  unfold Slot.InReach Slot.reference
  rw [Function.comp_apply]
  dsimp only
  omega

end Exact

/-- **The constants of an accepted tree of fewer than `2 ^ 20` nodes.** The tree is
lowered. The code of each procedure moves the stack register by the true number
of words. Its references to the frame are right exactly if every word it looks up
is in reach over all that is pushed at that moment, and they are if the extent of
the frame and the nodes of the body come to at most `2 ^ 31`. -/
theorem lowerProgram_exact_iff {root : Node} (accepted : root.Accepted)
    (small : root.size < 2 ^ 20) (options : LoweringOptions) :
    ∃ program, lowerProgram options root = .ok program ∧
      StandIn (fun procedure code => procedure.MovesExactly options.annotate code ∧
        (procedure.RefersExactly root.globalDeclarations.reverse code ↔
          ∀ slot ∈ procedure.visited root.globalDeclarations.reverse, slot.InReach) ∧
        ∀ extent, procedure.scope.frameExtent? = some extent →
          extent + procedure.body.size ≤ 2 ^ 31 →
            procedure.RefersExactly root.globalDeclarations.reverse code)
        root.procedures program.instructions := by
  have room : root.size + 6 ≤ maxCount := by
    unfold maxCount
    omega
  obtain ⟨program, lowered⟩ := exists_lowerProgram options room
  refine ⟨program, lowered, (standIn_lowerProgram lowered).imp ?_⟩
  intro procedure member code isCode
  have few : Node.Few procedure.body.generalCalls := by
    intro call listed
    have few := procedure.body.lt_size_of_mem_generalCalls call listed
    have part := root.size_lt_of_mem_procedures procedure member
    unfold maxOffset
    omega
  have iff := Procedure.refersExactly_iff few isCode
  refine ⟨Procedure.movesExactly (accepted.reach procedure member) few isCode, iff, ?_⟩
  intro extent reach room
  exact iff.mpr (Procedure.inReach_of_extent _ reach room)

/-- A procedure with an array of two words and a parameter, in which a call pushes
the link register and an argument over them. -/
theorem lowerProgram_exact_iff_pushed :
    ∃ root program, (parse "proc main(n) var a[2] begin f(a, n) end").1 = .ok root ∧
      lowerProgram .standard root = .ok program ∧
      StandIn (fun procedure code => procedure.RefersExactly [] code) root.procedures
        program.instructions := by
  have parsed : (parse "proc main(n) var a[2] begin f(a, n) end").1 =
      .ok (.program [.procedure ⟨"main", ["n"]⟩ [⟨"a", 2⟩]
        (.block [.call "f" [.reference "a", .reference "n"]])]) := by
    with_unfolding_all rfl
  obtain ⟨program, lowered, stand⟩ := lowerProgram_exact_iff
    (.inl ⟨_, _, Prod.ext parsed rfl⟩) (by decide) .standard
  refine ⟨_, program, parsed, lowered, stand.imp ?_⟩
  intro procedure member code known
  obtain rfl := List.mem_singleton.mp member
  exact known.2.2 3 (by decide) (by decide)

/-- A local that fills the reach of a constant, and a call with it. -/
def fullFrameTree : Node :=
  .program [.procedure ⟨"main", []⟩ [⟨"a", 2147483647⟩] (.block [.call "f" [.reference "a"]])]

/-- **A frame at the limit is out of reach under a call.** The front end accepts a
local of `2 ^ 31 - 1` words. Under the link register that a call pushes it is
`2 ^ 31` words away, and the constant stops one short of it. -/
theorem lowerProgram_clamps :
    (parse "proc main() var a[2147483647] begin f(a); end").1 = .ok fullFrameTree ∧
      fullFrameTree.size < 2 ^ 20 ∧
      fullFrameTree.procedures.map (fun procedure => procedure.visited []) = [[⟨2147483647, 1⟩]] ∧
      ∃ program, lowerProgram .standard fullFrameTree = .ok program ∧
        frameReferences program.instructions = [⟨-2147483647, 2147483648⟩] ∧
        ¬ StandIn (fun procedure code => procedure.RefersExactly [] code) fullFrameTree.procedures
          program.instructions := by
  have lowered : ∃ program, lowerProgram .standard fullFrameTree = .ok program ∧
      frameReferences program.instructions = [⟨-2147483647, 2147483648⟩] ∧
      ∀ instruction ∈ program.instructions, instruction.frameOffset? ≠ some (-2147483648) :=
    ⟨_, rfl, by decide, by decide⟩
  obtain ⟨program, ran, listed, near⟩ := lowered
  refine ⟨by with_unfolding_all rfl, by decide, by decide, program, ran, listed, ?_⟩
  rintro ⟨front, segment, back, whole, exactly, -⟩
  have visited : (-2147483648 : Int) ∈ (frameReferences segment).map FrameReference.amount := by
    rw [exactly]
    decide
  obtain ⟨reference, listed, far⟩ := List.mem_map.mp visited
  obtain ⟨instruction, member, offset⟩ := mem_of_mem_frameReferences listed
  have among := List.mem_append_left back (List.mem_append_right front member)
  rw [← whole] at among
  exact near instruction among (by rw [offset, far])

end ProcLang
