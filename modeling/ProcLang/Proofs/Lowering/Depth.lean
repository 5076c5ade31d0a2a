import ProcLang.Proofs.Lowering.Following

/-!
# How much lowered code pushes

The words that the code of a node has pushed at most, above those that were
pushed when it started (`Node.depth`). The words pushed are counted while a node
is lowered, so a walk that finishes has kept their number in range
(`Node.lower_reaches`).
-/

set_option autoImplicit false

namespace ProcLang

/-- The most words that the code of a node pushes, by the cursor for a value or
an address. -/
structure Depth where
  value : Nat → Nat
  address : Nat → Nat
  effect : Nat

namespace Depth

/-- The depth of an expression without an address. -/
def ofValue (value : Nat → Nat) : Depth :=
  ⟨value, value, value Register.scratchBase⟩

/-- The depth of an expression with an address. -/
def ofPlace (value address : Nat → Nat) : Depth :=
  ⟨value, address, value Register.scratchBase⟩

/-- The depth of a statement. For a value, the registers in use are pushed first. -/
def ofEffect (effect : Nat) : Depth :=
  ⟨fun cursor => (Emitter.scratchBelow cursor).length + effect,
    fun cursor => (Emitter.scratchBelow cursor).length + effect, effect⟩

/-- The greatest depth of effects one after the other. -/
def sequence : List Depth → Nat
  | [] => 0
  | depth :: rest => max depth.effect (sequence rest)

/-- The greatest depth of arguments, of which the last is pushed first. -/
def arguments : List Depth → Nat
  | [] => 0
  | depth :: rest =>
      max (arguments rest) (rest.length + max (depth.value Register.scratchBase) 1)

theorem length_le_arguments (depths : List Depth) : depths.length ≤ arguments depths := by
  cases depths with
  | nil => exact Nat.le_refl _
  | cons depth rest =>
      simp only [List.length_cons, arguments]
      omega

/-- The depth of a call. -/
def call (name : String) (depths : List Depth) : Nat :=
  match Intrinsic.ofName? name, depths with
  | some .read, first :: _ => first.address Register.scratchBase
  | some .write, first :: _ => first.value Register.scratchBase
  | _, depths => 1 + arguments depths

theorem call_general {name : String} {depths : List Depth}
    (general : Intrinsic.ofName? name = none ∨ depths = []) :
    call name depths = 1 + arguments depths := by
  rcases general with unknown | rfl
  · simp [call, unknown]
  · simp [call]

end Depth

namespace Node

open Depth

mutual
/-- The most words that the code of a node pushes. -/
def depth : Node → Depth
  | .program items => .ofEffect (sequence (depthAll items))
  | .procedure .. | .header _ | .declarations _ | .declaration _ => .ofEffect 0
  | .block statements => .ofEffect (sequence (depthAll statements))
  | .call name arguments => .ofEffect (Depth.call name (depthAll arguments))
  | .assign target value =>
      .ofEffect (max ((depth target).address Register.scratchBase)
        ((depth value).value (Register.scratchBase + 1)))
  | .branch condition consequent none =>
      .ofEffect (max ((depth condition).value Register.scratchBase) (depth consequent).effect)
  | .branch condition consequent (some alternative) =>
      .ofEffect (max (max ((depth condition).value Register.scratchBase) (depth consequent).effect)
        (depth alternative).effect)
  | .loop condition body =>
      .ofEffect (max ((depth condition).value Register.scratchBase) (depth body).effect)
  | .binary _ left right =>
      .ofValue fun cursor => max ((depth left).value cursor) ((depth right).value (cursor + 1))
  | .unary .dereference operand => .ofPlace (depth operand).value (depth operand).value
  | .unary _ operand => .ofValue (depth operand).value
  | .constant _ => .ofValue fun _ => 0
  | .reference _ => .ofPlace (fun _ => 0) fun _ => 0

/-- The depths of nodes, in order. -/
def depthAll : List Node → List Depth
  | [] => []
  | node :: rest => depth node :: depthAll rest
end

theorem depthAll_eq_map (nodes : List Node) : depthAll nodes = nodes.map depth := by
  induction nodes with
  | nil => rfl
  | cons node rest ih => rw [depthAll, ih, List.map_cons]

end Node

namespace Emitter

variable {α β : Type}

/-- A walk finishes from a context only if something holds. -/
def Needs (walk : Emitter α) (before : Context) (condition : Prop) : Prop :=
  ∀ emitted, walk.run before = .ok emitted → condition

section Needs

variable {first : Emitter α} {second : α → Emitter β} {before between : Context} {value : α}
  {output : Output} {condition condition' : Prop}

theorem Needs.left (needs : first.Needs before condition) :
    (first >>= second).Needs before condition := by
  intro emitted finished
  rw [run_bind] at finished
  cases ran : first.run before with
  | error overflow => simp [ran] at finished
  | ok middle => exact needs middle ran

theorem Needs.right (start : first.Ends before value between output)
    (needs : (second value).Needs between condition) :
    (first >>= second).Needs before condition := by
  intro emitted finished
  rw [run_bind] at finished
  cases ran : first.run before with
  | error overflow => simp [ran] at finished
  | ok middle =>
      obtain rfl := start middle ran
      simp only [ran] at finished
      cases ran' : (second value).run between with
      | error overflow => simp [ran'] at finished
      | ok last => exact needs last ran'

theorem Needs.imp (needs : first.Needs before condition) (weaker : condition → condition') :
    first.Needs before condition' :=
  fun emitted finished => weaker (needs emitted finished)

theorem needs_and (needs : first.Needs before condition) (needs' : first.Needs before condition') :
    first.Needs before (condition ∧ condition') :=
  fun emitted finished => ⟨needs emitted finished, needs' emitted finished⟩

theorem needs_of_true (holds : condition) : first.Needs before condition :=
  fun _ _ => holds

end Needs

theorem needs_push (register : Register) (before : Context) :
    (push register).Needs before (before.pushed + 1 ≤ maxCount) := by
  refine .right (ends_emit _ before) (.right (ends_emit _ before) ?_)
  intro emitted finished
  simp only [change, countUp] at finished
  split at finished
  next changed done =>
    split at done
    next within => exact within
    next => simp [bind, Except.bind] at done
  next => simp at finished

theorem needs_pushAll (registers : List Register) (before : Context)
    (small : before.pushed ≤ maxCount) :
    (registers.forM push).Needs before (before.pushed + registers.length ≤ maxCount) := by
  induction registers generalizing before with
  | nil => exact needs_of_true small
  | cons register rest ih =>
      intro emitted finished
      have first := Needs.left (needs_push register before) emitted finished
      have others := Needs.right (ends_push register before)
        (ih { before with pushed := before.pushed + 1 } first) emitted finished
      simpa [Nat.add_assoc, Nat.add_comm 1] using others

section

variable (annotated : Bool) (names : String → Address)

/-- A walk for a value or an address finishes only if the words it pushes can be
counted. -/
def ReachesFrom (walk : Emitter Unit) (depth : Nat → Nat) : Prop :=
  ∀ before : Context, before.Sees annotated names → before.pushed ≤ maxCount →
    walk.Needs before (before.pushed + depth before.cursor ≤ maxCount)

/-- A walk for an effect finishes only if the words it pushes can be counted. -/
def Reaches (walk : Emitter Unit) (depth : Nat) : Prop :=
  walk.ReachesFrom annotated names fun _ => depth

end

variable {annotated : Bool} {names : String → Address}

theorem needs_max {walk : Emitter Unit} {before : Context} {first second : Nat}
    (needs : walk.Needs before (before.pushed + first ≤ maxCount))
    (needs' : walk.Needs before (before.pushed + second ≤ maxCount)) :
    walk.Needs before (before.pushed + max first second ≤ maxCount) :=
  (needs_and needs needs').imp fun both => by omega

theorem reaches_zero (walk : Emitter Unit) : walk.Reaches annotated names 0 :=
  fun _ _ small => needs_of_true small

/-! ## Values -/

section Values

variable {walk left right : Emitter Unit} {planned : Nat → Nat → Nat → Output} {choices : Nat}
  {depth depth' : Nat → Nat}

theorem reachesFrom_binary (op : BinaryOperator)
    (ends : left.Evaluates annotated names planned choices)
    (reaches : left.ReachesFrom annotated names depth)
    (reaches' : right.ReachesFrom annotated names depth') :
    (binary op left right).ReachesFrom annotated names fun cursor =>
      max (depth cursor) (depth' (cursor + 1)) := by
  intro before sees small
  refine needs_max (.right (ends_cursor before) (.left (reaches before sees small))) ?_
  exact .right (ends_cursor before) (.right (ends before sees) (.right (ends_advanceCursor _)
    (.left (reaches' _ ⟨sees.annotate, sees.resolve⟩ small))))

theorem reachesFrom_unary (op : UnaryOperator) (reaches : walk.ReachesFrom annotated names depth) :
    (unary op walk).ReachesFrom annotated names depth :=
  fun before sees small => .right (ends_cursor before) (.left (reaches before sees small))

theorem reachesFrom_valueAsAddress (reaches : walk.ReachesFrom annotated names depth) :
    (valueAsAddress walk).ReachesFrom annotated names depth :=
  fun before sees small => .right (ends_note _ before) (reaches before sees small)

theorem reaches_valueAsEffect (reaches : walk.ReachesFrom annotated names depth) :
    (valueAsEffect walk).Reaches annotated names (depth Register.scratchBase) :=
  fun before sees small => .right (ends_setCursor _ before)
    (reaches _ ⟨sees.annotate, sees.resolve⟩ small)

theorem reachesFrom_effectAsValue {depth : Nat} (reaches : walk.Reaches annotated names depth) :
    (effectAsValue walk).ReachesFrom annotated names fun cursor =>
      (scratchBelow cursor).length + depth := by
  intro before sees small
  refine .right (ends_context before) (.right (ends_note _ before) ?_)
  intro emitted finished
  have pushes := Needs.left (needs_pushAll (scratchBelow before.cursor) before small) emitted
    finished
  have inner := Needs.right (ends_pushAll (scratchBelow before.cursor) before)
    (.left (reaches { before with pushed := before.pushed + (scratchBelow before.cursor).length }
      ⟨sees.annotate, sees.resolve⟩ pushes)) emitted finished
  simpa [Nat.add_assoc] using inner

end Values

/-! ## Statements -/

section Statements

variable {target value condition consequent alternative body : Emitter Unit}
  {planned : Nat → Nat → Nat → Output} {planned' : Nat → Nat → Output} {choices choices' : Nat}
  {depth depth' : Nat → Nat} {inner other : Nat}

theorem reaches_assign (ends : target.Evaluates annotated names planned choices)
    (reaches : target.ReachesFrom annotated names depth)
    (reaches' : value.ReachesFrom annotated names depth') :
    (assign target value).Reaches annotated names
      (max (depth Register.scratchBase) (depth' (Register.scratchBase + 1))) := by
  intro before sees small
  have sees' : Context.Sees { before with cursor := Register.scratchBase } annotated names :=
    ⟨sees.annotate, sees.resolve⟩
  refine needs_max (.right (ends_setCursor _ before) (.right (ends_cursor _)
    (.left (reaches _ sees' small)))) ?_
  exact .right (ends_setCursor _ before) (.right (ends_cursor _) (.right (ends _ sees')
    (.right (ends_advanceCursor _) (.left (reaches' _ ⟨sees.annotate, sees.resolve⟩ small)))))

theorem reaches_branch (ends : condition.Evaluates annotated names planned choices)
    (reaches : condition.ReachesFrom annotated names depth)
    (reaches' : consequent.Reaches annotated names inner) :
    (branch condition consequent none).Reaches annotated names
      (max (depth Register.scratchBase) inner) := by
  intro before sees small
  have sees' : Context.Sees { before with cursor := Register.scratchBase } annotated names :=
    ⟨sees.annotate, sees.resolve⟩
  refine needs_max (.right (ends_setCursor _ before) (.left (reaches _ sees' small))) ?_
  exact .right (ends_setCursor _ before) (.right (ends _ sees') (.right (ends_cursor _)
    (.right (ends_freshLabel _) (.right (ends_note _ _) (.right (ends_emit _ _)
      (.left (reaches' _ ⟨sees.annotate, sees.resolve⟩ small)))))))

theorem reaches_branchElse (ends : condition.Evaluates annotated names planned choices)
    (ends' : consequent.Performs annotated names planned' choices')
    (reaches : condition.ReachesFrom annotated names depth)
    (reaches' : consequent.Reaches annotated names inner)
    (reaches'' : alternative.Reaches annotated names other) :
    (branch condition consequent (some alternative)).Reaches annotated names
      (max (max (depth Register.scratchBase) inner) other) := by
  intro before sees small
  have sees' : Context.Sees { before with cursor := Register.scratchBase } annotated names :=
    ⟨sees.annotate, sees.resolve⟩
  have sees'' : Context.Sees
      { before with
        cursor := Register.scratchBase
        nextLabel := before.nextLabel + choices + 1 } annotated names :=
    ⟨sees.annotate, sees.resolve⟩
  obtain ⟨cursor, performs⟩ := ends' _ sees''
  refine needs_max (needs_max (.right (ends_setCursor _ before) (.left (reaches _ sees' small)))
    ?_) ?_
  · exact .right (ends_setCursor _ before) (.right (ends _ sees') (.right (ends_cursor _)
      (.right (ends_freshLabel _) (.right (ends_note _ _) (.right (ends_emit _ _)
        (.left (reaches' _ sees'' small)))))))
  · exact .right (ends_setCursor _ before) (.right (ends _ sees') (.right (ends_cursor _)
      (.right (ends_freshLabel _) (.right (ends_note _ _) (.right (ends_emit _ _)
        (.right performs (.right (ends_emit _ _) (.right (ends_emit _ _)
          (.left (reaches'' _ ⟨sees.annotate, sees.resolve⟩ small))))))))))

theorem reaches_loop (ends : condition.Evaluates annotated names planned choices)
    (reaches : condition.ReachesFrom annotated names depth)
    (reaches' : body.Reaches annotated names inner) :
    (loop condition body).Reaches annotated names (max (depth Register.scratchBase) inner) := by
  intro before sees small
  have sees' : Context.Sees
      { before with
        cursor := Register.scratchBase
        nextLabel := before.nextLabel + 1 } annotated names :=
    ⟨sees.annotate, sees.resolve⟩
  refine needs_max (.right (ends_freshLabel before) (.right (ends_note _ _)
    (.right (ends_emit _ _) (.right (ends_setCursor _ _) (.left (reaches _ sees' small)))))) ?_
  exact .right (ends_freshLabel before) (.right (ends_note _ _) (.right (ends_emit _ _)
    (.right (ends_setCursor _ _) (.right (ends _ sees') (.right (ends_cursor _)
      (.right (ends_emit _ _) (.left (reaches' _ ⟨sees.annotate, sees.resolve⟩ small))))))))

theorem reaches_read (reaches : target.ReachesFrom annotated names depth) :
    (read target).Reaches annotated names (depth Register.scratchBase) := by
  intro before sees small
  exact .right (ends_setCursor _ before) (.right (ends_cursor _) (.right (ends_note _ _)
    (.left (reaches _ ⟨sees.annotate, sees.resolve⟩ small))))

theorem reaches_write (reaches : value.ReachesFrom annotated names depth) :
    (write value).Reaches annotated names (depth Register.scratchBase) := by
  intro before sees small
  exact .right (ends_setCursor _ before) (.right (ends_cursor _) (.right (ends_note _ _)
    (.left (reaches _ ⟨sees.annotate, sees.resolve⟩ small))))

end Statements

/-! ## Calls -/

theorem needs_pushArgument {value : Emitter Unit} {planned : Nat → Nat → Nat → Output}
    {choices : Nat} {depth : Nat → Nat} (ends : value.Evaluates annotated names planned choices)
    (reaches : value.ReachesFrom annotated names depth) (before : Context)
    (sees : before.Sees annotated names) (small : before.pushed ≤ maxCount) :
    (pushArgument value).Needs before
      (before.pushed + max (depth Register.scratchBase) 1 ≤ maxCount) := by
  have sees' : Context.Sees { before with cursor := Register.scratchBase } annotated names :=
    ⟨sees.annotate, sees.resolve⟩
  refine needs_max (.right (ends_setCursor _ before) (.left (reaches _ sees' small))) ?_
  exact .right (ends_setCursor _ before) (.right (ends _ sees') (.right (ends_cursor _)
    (.left (needs_push _ _))))

/-- A family of walks, each with its plan and its depth. -/
structure Measured where
  walk : Emitter Unit
  plan : Plan
  depth : Depth

/-- The walk is known for values. -/
structure Measured.Known (annotated : Bool) (names : String → Address) (entry : Measured) :
    Prop where
  ends : entry.walk.Evaluates annotated names entry.plan.value entry.plan.choices
  reaches : entry.walk.ReachesFrom annotated names entry.depth.value

theorem needs_pushArguments (entries : List Measured)
    (known : ∀ entry ∈ entries, entry.Known annotated names) (before : Context)
    (sees : before.Sees annotated names) (small : before.pushed ≤ maxCount) :
    ((entries.map Measured.walk).reverse.forM pushArgument).Needs before
      (before.pushed + Depth.arguments (entries.map Measured.depth) ≤ maxCount) := by
  induction entries with
  | nil => exact needs_of_true small
  | cons entry rest ih =>
      have others := ih fun other member => known other (.tail _ member)
      obtain ⟨cursor, ends⟩ := ends_pushArguments
        (rest.map fun entry => (entry.walk, entry.plan)).reverse (by
          intro pair member
          obtain ⟨other, listed, rfl⟩ := List.mem_map.mp (List.mem_reverse.mp member)
          exact (known other (.tail _ listed)).ends) before sees
      have walks : (rest.map fun entry => (entry.walk, entry.plan)).reverse.map Prod.fst =
          (rest.map Measured.walk).reverse := by
        simp
      rw [walks, List.length_reverse, List.length_map] at ends
      have split : ((rest.map Measured.walk).reverse ++ [entry.walk]).forM pushArgument =
          ((rest.map Measured.walk).reverse.forM pushArgument >>= fun _ =>
            [entry.walk].forM pushArgument) :=
        List.forM_append
      rw [List.map_cons, List.reverse_cons, split, List.map_cons, Depth.arguments]
      refine needs_max (.left others) ?_
      intro emitted finished
      have enough := Needs.left others emitted finished
      have counted := Depth.length_le_arguments (rest.map Measured.depth)
      rw [List.length_map] at counted ⊢
      have within : before.pushed + rest.length ≤ maxCount := by omega
      refine Needs.right ends (.left ?_) emitted finished
      refine (needs_pushArgument (known entry List.mem_cons_self).ends
        (known entry List.mem_cons_self).reaches _ ?_ within).imp fun last => ?_
      · exact ⟨sees.annotate, sees.resolve⟩
      · simpa [Nat.add_assoc] using last

theorem reaches_callProcedure (name : String) (entries : List Measured)
    (known : ∀ entry ∈ entries, entry.Known annotated names) :
    (callProcedure name (entries.map Measured.walk)).Reaches annotated names
      (1 + Depth.arguments (entries.map Measured.depth)) := by
  intro before sees small
  refine .right (ends_note _ before) (.right (ends_annotate _ before) ?_)
  intro emitted finished
  have saved := Needs.left (needs_push .link before) emitted finished
  have pushed := Needs.right (ends_push .link before) (.right (ends_context _)
    (.right (ends_setPending 0 _) (.left (needs_pushArguments entries known
      { before with pushed := before.pushed + 1, pendingArguments := 0 }
      ⟨sees.annotate, sees.resolve⟩ saved)))) emitted finished
  simpa [Nat.add_assoc] using pushed

end Emitter

/-! ## Nodes -/

/-- Each way to lower a node finishes only if the words it pushes can be counted. -/
structure Lowered.Reaches (annotated : Bool) (names : String → Address) (lowered : Lowered)
    (depth : Depth) : Prop where
  value : lowered.value.ReachesFrom annotated names depth.value
  address : lowered.address.ReachesFrom annotated names depth.address
  effect : lowered.effect.Reaches annotated names depth.effect

variable {annotated : Bool} {names : String → Address}

open Emitter

theorem Lowered.reaches_ofValue {walk : Emitter Unit} {depth : Nat → Nat}
    (reaches : walk.ReachesFrom annotated names depth) :
    (Lowered.ofValue walk).Reaches annotated names (.ofValue depth) :=
  ⟨reaches, reachesFrom_valueAsAddress reaches, reaches_valueAsEffect reaches⟩

theorem Lowered.reaches_ofPlace {walk place : Emitter Unit} {depth depth' : Nat → Nat}
    (reaches : walk.ReachesFrom annotated names depth)
    (reaches' : place.ReachesFrom annotated names depth') :
    (Lowered.ofPlace walk place).Reaches annotated names (.ofPlace depth depth') :=
  ⟨reaches, reaches', reaches_valueAsEffect reaches⟩

theorem Lowered.reaches_ofEffect {walk : Emitter Unit} {depth : Nat}
    (reaches : walk.Reaches annotated names depth) :
    (Lowered.ofEffect walk).Reaches annotated names (.ofEffect depth) :=
  ⟨reachesFrom_effectAsValue reaches,
    reachesFrom_valueAsAddress (reachesFrom_effectAsValue reaches),
    reaches⟩

namespace Node

theorem reaches_sequence (nodes : List Node)
    (ih : ∀ node ∈ nodes, node.lower.Reaches annotated names node.depth) :
    ((lowerAll nodes).forM Lowered.effect).Reaches annotated names
      (Depth.sequence (depthAll nodes)) := by
  induction nodes with
  | nil => exact reaches_zero _
  | cons node rest ihRest =>
      intro before sees small
      obtain ⟨cursor, performs⟩ := (lower_follows node).effect before sees
      refine needs_max (.left ((ih node List.mem_cons_self).effect before sees small)) ?_
      exact .right performs (ihRest (fun other member => ih other (.tail _ member)) _
        ⟨sees.annotate, sees.resolve⟩ small)

theorem reaches_call (name : String) (arguments : List Node)
    (ih : ∀ argument ∈ arguments, argument.lower.Reaches annotated names argument.depth) :
    (Emitter.call name (lowerAll arguments)).Reaches annotated names
      (Depth.call name (depthAll arguments)) := by
  have general : (Emitter.callProcedure name ((lowerAll arguments).map Lowered.value)).Reaches
      annotated names (1 + Depth.arguments (depthAll arguments)) := by
    have reaches := reaches_callProcedure name
      (arguments.map fun argument =>
        (⟨argument.lower.value, argument.plan annotated names, argument.depth⟩ : Measured)) (by
        intro entry member
        obtain ⟨argument, listed, rfl⟩ := List.mem_map.mp member
        exact ⟨(lower_follows argument).value, (ih argument listed).value⟩)
    simpa [lowerAll_eq_map, depthAll_eq_map, Function.comp_def] using reaches
  unfold Emitter.call Depth.call
  cases arguments with
  | nil => rcases Intrinsic.ofName? name with _ | _ | _ <;> exact general
  | cons first rest =>
      have reaches := ih first List.mem_cons_self
      cases Intrinsic.ofName? name with
      | none => exact general
      | some intrinsic =>
          intro before sees small
          cases intrinsic with
          | read =>
              exact .right (performs_noteExtra _ _ before)
                (reaches_read reaches.address before sees small)
          | write =>
              exact .right (performs_noteExtra _ _ before)
                (reaches_write reaches.value before sees small)

/-- **A walk over a node that finishes has kept the count of pushed words in
range.** -/
theorem lower_reaches (node : Node) : node.lower.Reaches annotated names node.depth := by
  induction node with
  | program items ih => exact Lowered.reaches_ofEffect (reaches_sequence items ih)
  | procedure heading locals body _ => exact Lowered.reaches_ofEffect (reaches_zero _)
  | header heading => exact Lowered.reaches_ofEffect (reaches_zero _)
  | declarations declared => exact Lowered.reaches_ofEffect (reaches_zero _)
  | declaration declared => exact Lowered.reaches_ofEffect (reaches_zero _)
  | block statements ih => exact Lowered.reaches_ofEffect (reaches_sequence statements ih)
  | call name arguments ih => exact Lowered.reaches_ofEffect (reaches_call name arguments ih)
  | assign target value ihTarget ihValue =>
      exact Lowered.reaches_ofEffect
        (reaches_assign (lower_follows target).address ihTarget.address ihValue.value)
  | branch condition consequent ihCondition ihConsequent =>
      exact Lowered.reaches_ofEffect
        (reaches_branch (lower_follows condition).value ihCondition.value ihConsequent.effect)
  | branchElse condition consequent alternative ihCondition ihConsequent ihAlternative =>
      exact Lowered.reaches_ofEffect (reaches_branchElse (lower_follows condition).value
        (lower_follows consequent).effect ihCondition.value ihConsequent.effect
        ihAlternative.effect)
  | loop condition body ihCondition ihBody =>
      exact Lowered.reaches_ofEffect
        (reaches_loop (lower_follows condition).value ihCondition.value ihBody.effect)
  | binary op left right ihLeft ihRight =>
      exact Lowered.reaches_ofValue
        (reachesFrom_binary op (lower_follows left).value ihLeft.value ihRight.value)
  | unary op operand ih =>
      cases op with
      | dereference => exact Lowered.reaches_ofPlace (reachesFrom_unary _ ih.value) ih.value
      | plus => exact Lowered.reaches_ofValue (reachesFrom_unary _ ih.value)
      | minus => exact Lowered.reaches_ofValue (reachesFrom_unary _ ih.value)
      | not => exact Lowered.reaches_ofValue (reachesFrom_unary _ ih.value)
  | constant value => exact Lowered.reaches_ofValue (reaches_zero _)
  | reference name => exact Lowered.reaches_ofPlace (reaches_zero _) (reaches_zero _)

end Node

end ProcLang
