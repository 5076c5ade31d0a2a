import ProcLang.Proofs.Machine.Code

/-!
# What the code of a construct realizes

For each construct there is a rule that says what its code realizes if the code
of its parts realizes given outcomes. The rules do not depend on what the
outcomes are about: `post` relates the state of a meaning to the world of the
machine.

Code for a value leaves it in the cursor register and keeps all registers below
(`Watch.Yields`). Code for an effect keeps the stack and the link register
(`Watch.Does`).
-/

set_option autoImplicit false

namespace ProcLang

namespace Arithmetic

variable (arithmetic : Arithmetic)

/-- The value of a binary operation. -/
def binary : BinaryOperator → Word → Word → Word
  | .add, left, right => left + right
  | .sub, left, right => left - right
  | .mul, left, right => left * right
  | .div, left, right => arithmetic.quotient left right
  | .mod, left, right => arithmetic.remainder left right
  | .equal, left, right => truth (left == right)
  | .notEqual, left, right => truth (left != right)
  | .less, left, right => truth (left.slt right)
  | .greater, left, right => truth (right.slt left)
  | .and, left, right => left &&& right
  | .or, left, right => left ||| right
  | .xor, left, right => left ^^^ right

/-- The value of a unary operation that does not look at the memory. -/
def unary : UnaryOperator → Word → Word
  | .plus, operand => operand
  | .minus, operand => -operand
  | .not, operand => ~~~operand
  | .dereference, operand => operand

end Arithmetic

theorem Machine.effect?_combine (machine : Machine) (op : BinaryOperator) (core : Core)
    (left right : Register) :
    machine.effect? core (Emitter.combine op left right) =
      some (core.set left (machine.arithmetic.binary op (core.get left) (core.get right))) := by
  cases op <;> rfl

theorem add_wordImmediate (base : Word) {words : Nat} (few : words ≤ maxOffset) :
    base + (wordImmediate words).toBitVec = above base words := by
  rw [wordImmediate, Nat.min_eq_left few]
  rfl

theorem add_neg_wordImmediate (base : Word) {words : Nat} (few : words ≤ maxOffset) :
    base + (-wordImmediate words).toBitVec = base - BitVec.ofNat 32 words := by
  rw [wordImmediate, Nat.min_eq_left few, Int32.toBitVec_neg, BitVec.sub_eq_add_neg]
  rfl

theorem exists_run?_frameCode (machine : Machine) (core : Core) {words : Nat}
    (few : words ≤ maxOffset) :
    ∃ after, machine.run? (frameCode words) core = some after ∧
      after.get .stack = above (core.get .stack) words ∧ after.get .link = core.get .link ∧
      after.world = core.world := by
  unfold frameCode
  by_cases some : 0 < words
  · refine ⟨core.set .stack (above (core.get .stack) words), ?_, core.get_set_self _ (by decide),
      core.get_set_of_ne _ (by decide), rfl⟩
    simp only [some, if_true, Machine.run?, Machine.effect?, add_wordImmediate _ few]
  · obtain rfl : words = 0 := Nat.eq_zero_of_not_pos some
    exact ⟨core, rfl, by simp, rfl, rfl⟩

theorem exists_run?_dropCode (machine : Machine) (core : Core) {words : Nat}
    (few : words ≤ maxOffset) :
    ∃ after, machine.run? (dropCode words) core = some after ∧
      after.get .stack = core.get .stack - BitVec.ofNat 32 words ∧
      after.get .link = core.get .link ∧ after.world = core.world := by
  unfold dropCode
  by_cases some : 0 < words
  · refine ⟨core.set .stack (core.get .stack - BitVec.ofNat 32 words), ?_,
      core.get_set_self _ (by decide), core.get_set_of_ne _ (by decide), rfl⟩
    simp only [some, if_true, Machine.run?, Machine.effect?, add_neg_wordImmediate _ few]
  · obtain rfl : words = 0 := Nat.eq_zero_of_not_pos some
    exact ⟨core, rfl, by simp, rfl, rfl⟩

namespace Watch

variable {σ : Type} {watch : Watch} {fuel cursor pushed label : Nat} {core : Core}
  {P Q : σ → World → Prop}

/-- Wherever it stands, code for a value realizes an outcome. -/
def Yields (watch : Watch) (fuel cursor : Nat) (code : List Instruction) (core : Core)
    (outcome : Outcome (Word × σ)) (post : σ → World → Prop) : Prop :=
  ∀ start finish, watch.Spans start code finish →
    watch.Realizes fuel start finish core outcome fun result after =>
      core.Same cursor after ∧ after.get (.general cursor) = result.1 ∧ post result.2 after.world

/-- Wherever it stands, code for an effect realizes an outcome. -/
def Does (watch : Watch) (fuel : Nat) (code : List Instruction) (core : Core)
    (outcome : Outcome σ) (post : σ → World → Prop) : Prop :=
  ∀ start finish, watch.Spans start code finish →
    watch.Realizes fuel start finish core outcome fun state after =>
      core.Same Register.scratchBase after ∧ post state after.world

/-- One step that is not straight on. -/
theorem Realizes.jump {α : Type} {outcome : Outcome α} {post : α → Core → Prop}
    {start middle finish : Nat} {instruction : Instruction} {core' : Core}
    (found : watch.machine.program[start]? = some instruction) (inside : watch.allowed start)
    (jumped : watch.machine.execute ⟨start, core⟩ instruction = some ⟨middle, core'⟩)
    (realizes : watch.Realizes fuel middle finish core' outcome post) :
    watch.Realizes (fuel + 1) start finish core outcome post := by
  have stepped : watch.machine.step ⟨start, core⟩ = some ⟨middle, core'⟩ := by
    simp only [Machine.step, found, jumped]
  exact Nat.add_comm 1 fuel ▸ realizes.prepend (.step inside stepped (.refl _))

theorem general_number_ne_zero (scratch : Register.scratchBase ≤ cursor) :
    (Register.general cursor).number ≠ 0 :=
  Nat.ne_of_gt (Nat.lt_of_lt_of_le (by decide) scratch)

/-! ## Values -/

/-- One instruction that puts a value into the cursor register. -/
theorem yields_set {instruction : Instruction} {value : Word} {state : σ}
    (scratch : Register.scratchBase ≤ cursor)
    (done : watch.machine.effect? core instruction = some (core.set (.general cursor) value))
    (related : P state core.world) :
    watch.Yields fuel cursor [instruction] core (.done (value, state)) P := by
  intro start finish spans
  have ran : watch.machine.run? [instruction] core = some (core.set (.general cursor) value) := by
    simp [Machine.run?, done]
  exact Realizes.run_done spans ran ⟨core.same_set _ (Nat.le_refl _),
    core.get_set_self _ (general_number_ne_zero scratch), related⟩

/-- One more instruction that changes the value in the cursor register. -/
theorem yields_concat {τ : Type} {R : τ → World → Prop} {code : List Instruction}
    {instruction : Instruction} {first : Outcome (Word × τ)}
    {next : Word × τ → Outcome (Word × σ)} (yields : watch.Yields fuel cursor code core first R)
    (last : ∀ value state after, first = .done (value, state) → core.Same cursor after →
      after.get (.general cursor) = value → R state after.world →
      watch.Yields fuel cursor [instruction] after (next (value, state)) Q) :
    watch.Yields fuel cursor (code ++ [instruction]) core (first >>= next) Q := by
  intro start finish spans
  obtain ⟨middle, spans, spans'⟩ := spans_append.mp spans
  refine (yields start middle spans).bind ?_
  rintro ⟨value, state⟩ after done ⟨same, found, related⟩
  refine (last value state after done same found related middle finish spans').imp ?_
  rintro result after' - ⟨same', holds⟩
  exact ⟨same.trans same', holds⟩

theorem yields_binary {τ : Type} {R : τ → World → Prop} {op : BinaryOperator} {left right : Plan}
    {first : Outcome (Word × τ)} {second : Word × τ → Outcome (Word × σ)}
    (scratch : Register.scratchBase ≤ cursor)
    (yields : watch.Yields fuel cursor (left.value cursor pushed label).code core first R)
    (yields' : ∀ value state after, core.Same cursor after → after.get (.general cursor) = value →
      R state after.world →
      watch.Yields fuel (cursor + 1) (right.value (cursor + 1) pushed (label + left.choices)).code
        after (second (value, state)) Q) :
    watch.Yields fuel cursor (Plan.binary op left right cursor pushed label).code core
      (first >>= fun result => second result >>= fun result' =>
        .done (watch.machine.arithmetic.binary op result.1 result'.1, result'.2)) Q := by
  intro start finish spans
  simp only [Plan.binary, Output.code_append, Output.code_ofCode, spans_append] at spans
  obtain ⟨between', ⟨between, spans, spans'⟩, spansLast⟩ := spans
  refine (yields start between spans).bind ?_
  rintro ⟨value, state⟩ after - ⟨same, found, related⟩
  refine (yields' value state after same found related between between' spans').bind ?_
  rintro ⟨value', state'⟩ after' - ⟨same', found', related'⟩
  have kept : after'.get (.general cursor) = value :=
    (same' (.general cursor) (Nat.lt_succ_self _)).trans found
  have ran : watch.machine.run?
      [Emitter.combine op (.general cursor) (.general (cursor + 1))] after' =
      some (after'.set (.general cursor) (watch.machine.arithmetic.binary op value value')) := by
    simp [Machine.run?, Machine.effect?_combine, kept, found']
  refine Realizes.run_done spansLast ran
    ⟨?_, after'.get_set_self _ (general_number_ne_zero scratch), related'⟩
  exact (same.trans (same'.mono (Nat.le_succ _))).trans (after'.same_set _ (Nat.le_refl _))

/-- A unary operation other than a load. -/
theorem yields_unary {op : UnaryOperator} {operand : Plan} {first : Outcome (Word × σ)}
    (scratch : Register.scratchBase ≤ cursor) (pure : op ≠ .dereference)
    (yields : watch.Yields fuel cursor (operand.value cursor pushed label).code core first P) :
    watch.Yields fuel cursor (Plan.unary op operand cursor pushed label).code core
      (first >>= fun result => .done (Arithmetic.unary op result.1, result.2)) P := by
  cases op with
  | plus =>
      have same : (first >>= fun result => .done (Arithmetic.unary .plus result.1, result.2)) =
          first := Outcome.bind_done first
      simpa [Plan.unary, Plan.unaryCode, same] using yields
  | minus =>
      refine yields_concat yields fun value state after _ _ found related => ?_
      refine yields_set scratch ?_ related
      simp [Machine.effect?, Arithmetic.operate, Arithmetic.unary, found]
  | not =>
      refine yields_concat yields fun value state after _ _ found related => ?_
      refine yields_set scratch ?_ related
      simp [Machine.effect?, Arithmetic.unary, found]
  | dereference => exact absurd rfl pure

/-- A statement where a value is needed: the registers in use come back, if the
statement leaves the row where they are pushed alone. -/
theorem yields_parked {effect : Nat → Nat → Output} {inner : Outcome σ}
    (scratch : Register.scratchBase ≤ cursor)
    (does : watch.Does fuel
      (effect (pushed + (Emitter.scratchBelow cursor).length) label).code
      (core.pushAll (Emitter.scratchBelow cursor)) inner P)
    (row : ∀ state world, P state world → world.HasRow (core.get .stack) (core.pending cursor)) :
    watch.Yields fuel cursor (Plan.parked effect cursor pushed label).code core
      (inner >>= fun state => .done (0, state)) P := by
  intro start finish spans
  simp only [Plan.parked, Output.code_append, Output.code_ofCode, Output.code_ofEvent,
    List.nil_append, spans_append] at spans
  obtain ⟨between, ⟨popped, ⟨entered, spansPush, spansInner⟩, spansPop⟩, spansLast⟩ := spans
  refine Realizes.run spansPush (Machine.run?_pushCode _ _ _) ?_
  refine (does _ _ spansInner).bind ?_
  rintro state after - ⟨same, related⟩
  have usual : ∀ register ∈ Emitter.scratchBelow cursor,
      Register.stack.number < register.number := fun register member =>
    Nat.lt_of_lt_of_le (by decide) (Core.mem_scratchBelow member).1
  have height : after.get .stack =
      above (core.get .stack) (Emitter.scratchBelow cursor).length := by
    rw [same.stack (Nat.le_refl _), Core.get_stack_pushAll]
  obtain ⟨stack, world, found, untouched⟩ :=
    Core.popAll_reverse core usual (row state after.world related) height
  refine Realizes.run spansPop (Machine.run?_popCode _ _ _) ?_
  have ran : watch.machine.run? [.loadImmediate (.general cursor) 0]
      (after.popAll (Emitter.scratchBelow cursor).reverse) =
      some ((after.popAll (Emitter.scratchBelow cursor).reverse).set (.general cursor) 0) := rfl
  refine Realizes.run_done spansLast ran
    ⟨?_, Core.get_set_self _ _ (general_number_ne_zero scratch), ?_⟩
  · refine Core.Same.trans ?_ (Core.same_set _ _ (Nat.le_refl _))
    intro register below
    -- A register below the cursor is the stack register, one that was parked, or none of these.
    by_cases isStack : register.number = Register.stack.number
    · rw [Core.get_eq_of_number_eq _ .stack isStack, stack,
        Core.get_eq_of_number_eq core .stack isStack]
    · by_cases parked : Register.scratchBase ≤ register.number
      · have member : Register.general register.number ∈ Emitter.scratchBelow cursor :=
          Core.general_mem_scratchBelow parked below
        exact found (.general register.number) member
      · have different : ∀ register' ∈ Emitter.scratchBelow cursor,
            register.number ≠ register'.number := fun register' member =>
          Nat.ne_of_lt (Nat.lt_of_lt_of_le (Nat.not_le.mp parked) (Core.mem_scratchBelow member).1)
        rw [untouched register isStack different, same register (Nat.not_le.mp parked),
          Core.get_pushAll _ _ isStack]
  · rw [Core.world_set, world]
    exact related

/-! ## Effects -/

theorem does_append {code code' : List Instruction} {first : Outcome σ} {next : σ → Outcome σ}
    (does : watch.Does fuel code core first P)
    (does' : ∀ state after, core.Same Register.scratchBase after → P state after.world →
      watch.Does fuel code' after (next state) Q) :
    watch.Does fuel (code ++ code') core (first >>= next) Q := by
  intro start finish spans
  obtain ⟨middle, spans, spans'⟩ := spans_append.mp spans
  refine (does start middle spans).bind ?_
  rintro state after - ⟨same, related⟩
  refine (does' state after same related middle finish spans').imp ?_
  rintro state' after' - ⟨same', related'⟩
  exact ⟨same.trans same', related'⟩

theorem does_nil {state : σ} (related : P state core.world) :
    watch.Does fuel [] core (.done state) P := by
  rintro start finish rfl
  exact .done ⟨.refl _ _, related⟩

theorem Yields.imp {code : List Instruction} {outcome : Outcome (Word × σ)}
    (yields : watch.Yields fuel cursor code core outcome P)
    (weaker : ∀ state world, P state world → Q state world) :
    watch.Yields fuel cursor code core outcome Q := by
  intro start finish spans
  refine (yields start finish spans).imp ?_
  rintro result after - ⟨same, found, related⟩
  exact ⟨same, found, weaker _ _ related⟩

theorem Does.imp {code : List Instruction} {outcome : Outcome σ}
    (does : watch.Does fuel code core outcome P)
    (weaker : ∀ state world, P state world → Q state world) :
    watch.Does fuel code core outcome Q := by
  intro start finish spans
  refine (does start finish spans).imp ?_
  rintro result after - ⟨same, related⟩
  exact ⟨same, weaker _ _ related⟩

/-- What is said of the state may be said of what it determines. -/
theorem Yields.map {τ : Type} {R : τ → World → Prop} {code : List Instruction}
    {outcome : Outcome (Word × σ)} {f : Word × σ → τ}
    (yields : watch.Yields fuel cursor code core outcome P)
    (holds : ∀ result world, P result.2 world → R (f result) world) :
    watch.Yields fuel cursor code core
      (outcome >>= fun result => .done (result.1, f result)) R := by
  intro start finish spans
  refine (yields start finish spans).bind ?_
  rintro result after - ⟨same, found, related⟩
  exact .done ⟨same, found, holds result _ related⟩

/-- Code for a value in the first scratch register, and then code for an effect. -/
theorem Yields.does_append {τ : Type} {R : τ → World → Prop} {code code' : List Instruction}
    {first : Outcome (Word × σ)} {next : Word × σ → Outcome τ}
    (yields : watch.Yields fuel Register.scratchBase code core first P)
    (does : ∀ value state after, first = .done (value, state) →
      core.Same Register.scratchBase after →
      after.get (.general Register.scratchBase) = value → P state after.world →
      watch.Does fuel code' after (next (value, state)) R) :
    watch.Does fuel (code ++ code') core (first >>= next) R := by
  intro start finish spans
  obtain ⟨middle, spans, spans'⟩ := spans_append.mp spans
  refine (yields start middle spans).bind ?_
  rintro ⟨value, state⟩ after done ⟨same, found, related⟩
  refine (does value state after done same found related middle finish spans').imp ?_
  rintro state' after' - ⟨same', related'⟩
  exact ⟨same.trans same', related'⟩

/-- A store through the first scratch register. -/
theorem does_store {state : σ}
    (related : P state (core.world.store (core.get (.general Register.scratchBase))
      (core.get (.general (Register.scratchBase + 1))))) :
    watch.Does fuel
      [.store (.general (Register.scratchBase + 1)) (.general Register.scratchBase) 0] core
      (.done state) P := by
  intro start finish spans
  refine Realizes.run_done spans rfl ⟨core.same_withWorld _, ?_⟩
  simpa using related

/-- Code that starts by reading a word into the second scratch register waits if
there is none. -/
theorem does_read {code : List Instruction} {outcome : Outcome σ}
    (empty : core.world.read? = none → outcome = .waits core.world.channel)
    (filled : ∀ word world, core.world.read? = some (word, world) →
      ∀ after, core.Same (Register.scratchBase + 1) after →
        after.get (.general (Register.scratchBase + 1)) = word → after.world = world →
        watch.Does fuel code after outcome P) :
    watch.Does fuel (.read (.general (Register.scratchBase + 1)) :: code) core outcome P := by
  rintro start finish ⟨found, inside, -, spans⟩
  cases taken : core.world.read? with
  | none =>
      have nothing : core.world.channel.input = [] := by
        cases input : core.world.channel.input with
        | nil => rfl
        | cons word rest => simp [World.read?, input] at taken
      rw [empty taken]
      exact ⟨0, ⟨start, core⟩, .refl _, .inl ⟨_, found, nothing⟩, inside, rfl⟩
  | some result =>
      obtain ⟨word, world⟩ := result
      have ran : watch.machine.run? [.read (.general (Register.scratchBase + 1))] core =
          some ((core.withWorld world).set (.general (Register.scratchBase + 1)) word) := by
        simp only [Machine.run?, Machine.effect?, taken, Option.map_some]
      have same : core.Same (Register.scratchBase + 1)
          ((core.withWorld world).set (.general (Register.scratchBase + 1)) word) :=
        (core.same_withWorld world).trans (Core.same_set _ _ (Nat.le_refl _))
      have first : watch.Spans start [.read (.general (Register.scratchBase + 1))] (start + 1) :=
        ⟨found, inside, by rintro _ ⟨⟩, rfl⟩
      refine Realizes.run first ran
        ((filled word world taken _ same (Core.get_set_self _ _ (Nat.succ_ne_zero _)) rfl _ _
          spans).imp ?_)
      rintro state after - ⟨same', related⟩
      exact ⟨(same.mono (Nat.le_succ _)).trans same', related⟩

/-- An assignment: an address, a value, and a store. -/
theorem does_assign {τ ρ : Type} {R : τ → World → Prop} {T : ρ → World → Prop}
    {target value : Plan} {first : Outcome (Word × τ)} {second : Word × τ → Outcome (Word × ρ)}
    {last : Word × τ → Word × ρ → Outcome σ}
    (yields : watch.Yields fuel Register.scratchBase
      (target.address Register.scratchBase pushed label).code core first R)
    (yields' : ∀ place state after, core.Same Register.scratchBase after →
      after.get (.general Register.scratchBase) = place → R state after.world →
      watch.Yields fuel (Register.scratchBase + 1)
        (value.value (Register.scratchBase + 1) pushed (label + target.choices)).code after
        (second (place, state)) T)
    (stores : ∀ place state word state' after, first = .done (place, state) →
      core.Same Register.scratchBase after →
      after.get (.general Register.scratchBase) = place →
      after.get (.general (Register.scratchBase + 1)) = word → T state' after.world →
      watch.Does fuel
        [.store (.general (Register.scratchBase + 1)) (.general Register.scratchBase) 0] after
        (last (place, state) (word, state')) Q) :
    watch.Does fuel (Plan.assign target value pushed label).code core
      (first >>= fun result => second result >>= fun result' => last result result') Q := by
  have split : (Plan.assign target value pushed label).code =
      (target.address Register.scratchBase pushed label).code ++
        ((value.value (Register.scratchBase + 1) pushed (label + target.choices)).code ++
          [.store (.general (Register.scratchBase + 1)) (.general Register.scratchBase) 0]) := by
    simp [Plan.assign]
  rw [split]
  refine yields.does_append fun place state after done same found related => ?_
  intro start finish spans
  obtain ⟨middle, spans, spans'⟩ := spans_append.mp spans
  refine (yields' place state after same found related start middle spans).bind ?_
  rintro ⟨word, state'⟩ after' - ⟨same', found', related'⟩
  have kept : after'.get (.general Register.scratchBase) = place :=
    (same' (.general Register.scratchBase) (Nat.lt_succ_self _)).trans found
  have low : after.Same Register.scratchBase after' := same'.mono (Nat.le_succ _)
  refine (stores place state word state' after' done (same.trans low) kept found' related' middle
    finish spans').imp ?_
  rintro result after'' - ⟨same'', related''⟩
  exact ⟨low.trans same'', related''⟩

/-! ## Control flow -/

/-- A jump on zero goes one of two ways. -/
theorem Realizes.branchIfZero {α : Type} {outcome : Outcome α} {post : α → Core → Prop}
    {start away finish : Nat} {tested : Register} {name : String}
    (found : watch.machine.program[start]? = some (.branchIfZero tested name))
    (inside : watch.allowed start) (target : watch.machine.target? name = some away)
    (zero : core.get tested = 0 → watch.Realizes fuel away finish core outcome post)
    (other : core.get tested ≠ 0 → watch.Realizes fuel (start + 1) finish core outcome post) :
    watch.Realizes fuel start finish core outcome post := by
  by_cases isZero : core.get tested = 0
  · refine (jump found inside ?_ (zero isZero)).mono (Nat.le_succ _)
    rw [Machine.execute, if_pos isZero, target, Option.map_some]
  · refine (jump found inside ?_ (other isZero)).mono (Nat.le_succ _)
    rw [Machine.execute, if_neg isZero]

/-- A jump goes to its label. -/
theorem Realizes.goTo {α : Type} {outcome : Outcome α} {post : α → Core → Prop}
    {start away finish : Nat} {name : String}
    (found : watch.machine.program[start]? = some (.jump name))
    (inside : watch.allowed start) (target : watch.machine.target? name = some away)
    (realizes : watch.Realizes fuel away finish core outcome post) :
    watch.Realizes fuel start finish core outcome post := by
  refine (jump found inside ?_ realizes).mono (Nat.le_succ _)
  rw [Machine.execute, target, Option.map_some]

section ControlFlow

variable {condition consequent alternative body : Plan} {test : Outcome (Word × σ)}
  {act other : σ → Outcome σ}

theorem does_branch
    (yields : watch.Yields fuel Register.scratchBase
      (condition.value Register.scratchBase pushed label).code core test P)
    (does : ∀ state after, core.Same Register.scratchBase after → P state after.world →
      watch.Does fuel (consequent.effect pushed (label + condition.choices + 1)).code after
        (act state) Q)
    (skips : ∀ state world, P state world → Q state world) :
    watch.Does fuel (Plan.branch condition consequent pushed label).code core
      (test >>= fun result => if result.1 = 0 then .done result.2 else act result.2) Q := by
  intro start finish spans
  simp only [Plan.branch, Output.code_append, Output.code_ofCode, Output.code_ofEvent,
    List.append_nil, spans_append] at spans
  obtain ⟨ended, ⟨skipped, ⟨taken, ⟨tested, spansTest, spansJump⟩, spansBody⟩, spansFalse⟩,
      spansEnd⟩
    := spans
  obtain ⟨foundJump, insideJump, -, rfl⟩ := spansJump
  -- Both ways meet at the label of the skipped part.
  have meets : ∀ state after, core.Same Register.scratchBase after → Q state after.world →
      watch.Realizes fuel skipped finish after (.done state) fun state after =>
        core.Same Register.scratchBase after ∧ Q state after.world := by
    intro state after same related
    exact Realizes.run spansFalse rfl (Realizes.run_done spansEnd rfl ⟨same, related⟩)
  refine (yields start tested spansTest).bind ?_
  rintro ⟨value, state⟩ after - ⟨same, rfl, related⟩
  refine Realizes.branchIfZero foundJump insideJump (spansFalse.2.2.1 _ rfl) ?_ ?_
  · intro zero
    rw [if_pos zero]
    exact meets state after same (skips state _ related)
  · intro nonzero
    rw [if_neg nonzero, ← Outcome.bind_done (act _)]
    refine (does state after same related _ _ spansBody).bind ?_
    rintro state' after' - ⟨same', related'⟩
    exact meets state' after' (same.trans same') related'

theorem does_branchElse
    (yields : watch.Yields fuel Register.scratchBase
      (condition.value Register.scratchBase pushed label).code core test P)
    (does : ∀ state after, core.Same Register.scratchBase after → P state after.world →
      watch.Does fuel (consequent.effect pushed (label + condition.choices + 1)).code after
        (act state) Q)
    (does' : ∀ state after, core.Same Register.scratchBase after → P state after.world →
      watch.Does fuel
        (alternative.effect pushed (label + condition.choices + 1 + consequent.choices)).code after
        (other state) Q) :
    watch.Does fuel (Plan.branchElse condition consequent alternative pushed label).code core
      (test >>= fun result => if result.1 = 0 then other result.2 else act result.2) Q := by
  intro start finish spans
  simp only [Plan.branchElse, Output.code_append, Output.code_ofCode, Output.code_ofEvent,
    List.append_nil, spans_append] at spans
  obtain ⟨ended, ⟨entered, ⟨skipped, ⟨left, ⟨taken, ⟨tested, spansTest, spansJump⟩, spansBody⟩,
    spansLeave⟩, spansFalse⟩, spansOther⟩, spansEnd⟩ := spans
  obtain ⟨foundJump, insideJump, -, rfl⟩ := spansJump
  obtain ⟨foundLeave, insideLeave, -, rfl⟩ := spansLeave
  have meets : ∀ state after, core.Same Register.scratchBase after → Q state after.world →
      watch.Realizes fuel ended finish after (.done state) fun state after =>
        core.Same Register.scratchBase after ∧ Q state after.world := by
    intro state after same related
    exact Realizes.run_done spansEnd rfl ⟨same, related⟩
  refine (yields start tested spansTest).bind ?_
  rintro ⟨value, state⟩ after - ⟨same, rfl, related⟩
  refine Realizes.branchIfZero foundJump insideJump (spansFalse.2.2.1 _ rfl) ?_ ?_
  · intro zero
    rw [if_pos zero, ← Outcome.bind_done (other _)]
    refine Realizes.run spansFalse rfl ((does' state after same related _ _ spansOther).bind ?_)
    rintro state' after' - ⟨same', related'⟩
    exact meets state' after' (same.trans same') related'
  · intro nonzero
    rw [if_neg nonzero, ← Outcome.bind_done (act _)]
    refine (does state after same related _ _ spansBody).bind ?_
    rintro state' after' - ⟨same', related'⟩
    exact Realizes.goTo foundLeave insideLeave (spansEnd.2.2.1 _ rfl)
      (meets state' after' (same.trans same') related')

/-- A loop takes at least one step for each unit of fuel. -/
theorem does_loop {test : σ → Outcome (Word × σ)} {seen : σ → Channel} {state : σ}
    (yields : ∀ state after, core.Same Register.scratchBase after → P state after.world →
      watch.Yields fuel Register.scratchBase
        (condition.value Register.scratchBase pushed (label + 1)).code after (test state) P)
    (does : ∀ state after, core.Same Register.scratchBase after → P state after.world →
      watch.Does fuel (body.effect pushed (label + 1 + condition.choices)).code after
        (act state) P)
    (sees : ∀ state world, P state world → world.channel = seen state)
    (related : P state core.world) :
    watch.Does fuel (Plan.loop condition body pushed label).code core
      (Outcome.iterate seen test act fuel state) P := by
  intro start finish spans
  simp only [Plan.loop, Output.code_append, Output.code_ofCode, Output.code_ofEvent,
    List.nil_append, spans_append] at spans
  obtain ⟨left, ⟨back, ⟨taken, ⟨tested, ⟨entered, spansBegin, spansTest⟩, spansJump⟩, spansBody⟩,
    spansBack⟩, spansEnd⟩ := spans
  obtain ⟨foundJump, insideJump, -, rfl⟩ := spansJump
  obtain ⟨foundBack, insideBack, -, rfl⟩ := spansBack
  -- The induction is on the fuel of the iteration; the tests and bodies keep all of theirs.
  have rounds : ∀ count ≤ fuel, ∀ state after, core.Same Register.scratchBase after →
      P state after.world →
      watch.Realizes count start finish after (Outcome.iterate seen test act count state)
        fun state after => core.Same Register.scratchBase after ∧ P state after.world := by
    intro count
    induction count with
    | zero =>
        intro _ state after same related
        exact ⟨0, ⟨start, after⟩, .refl _, Nat.le_refl _, sees state _ related⟩
    | succ count ih =>
        intro within state after same related
        have less : count ≤ fuel := Nat.le_of_succ_le within
        have entry : watch.machine.Path watch.allowed 1 ⟨start, after⟩ ⟨entered, after⟩ :=
          Realizes.path_of_run spansBegin rfl
        refine Realizes.mono (Realizes.prepend entry ?_) (Nat.le_of_eq (Nat.add_comm count 1))
        refine ((yields state after same related entered tested spansTest).mono less).bind ?_
        rintro ⟨value, state'⟩ after' - ⟨same', rfl, related'⟩
        refine Realizes.branchIfZero foundJump insideJump (spansEnd.2.2.1 _ rfl) ?_ ?_
        · intro zero
          simp only [zero, if_true]
          exact Realizes.run_done spansEnd rfl ⟨same.trans same', related'⟩
        · intro nonzero
          simp only [nonzero, if_false]
          refine ((does state' after' (same.trans same') related' _ _ spansBody).mono less).bind ?_
          rintro state'' after'' - ⟨same'', related''⟩
          exact Realizes.goTo foundBack insideBack (spansBegin.2.2.1 _ rfl)
            (ih less state'' after'' ((same.trans same').trans same'') related'')
  exact rounds fuel (Nat.le_refl _) state core (.refl _ _) related

end ControlFlow

/-! ## Calls -/

theorem run?_remark (machine : Machine) (annotate : Bool) (text : String) (core : Core) :
    machine.run? (Plan.remark annotate text).code core = some core := by
  cases annotate <;> rfl

/-- Code for a value in the first scratch register, and then pushing it. -/
theorem Yields.push {code : List Instruction} {first : Outcome (Word × σ)}
    (yields : watch.Yields fuel Register.scratchBase code core first P) {start finish : Nat}
    (spans : watch.Spans start (code ++ pushCode [.general Register.scratchBase]) finish) :
    watch.Realizes fuel start finish core first fun result after =>
      after.get .stack = core.get .stack + 1 ∧ after.get .link = core.get .link ∧
        ∃ world, P result.2 world ∧ after.world = world.store (core.get .stack) result.1 := by
  obtain ⟨middle, spans, spans'⟩ := spans_append.mp spans
  rw [← Outcome.bind_done first]
  refine (yields start middle spans).bind ?_
  rintro result after - ⟨same, found, related⟩
  have stack := same.stack (Nat.le_refl _)
  refine Realizes.run_done spans' (Machine.run?_pushCode _ _ _) ⟨?_, ?_, after.world, related, ?_⟩
  · rw [Core.get_stack_pushAll, stack]
    rfl
  · rw [Core.get_pushAll _ _ (by decide), same.link (Nat.le_refl _)]
  · rw [Core.world_pushAll _ (by simp; decide), stack, List.map_singleton, found]
    rfl

/-- A call keeps the stack and the link register, if the callee keeps the stack
register and the word where the link register is saved. -/
theorem does_callProcedure {τ : Type} {annotate : Bool} {name : String} {plans : List Plan}
    {prepare : Outcome τ} {enter : τ → Outcome σ} {R : τ → World → Prop}
    (few : plans.length ≤ maxOffset)
    (pushes : ∀ start finish,
      watch.Spans start (Plan.pushArguments plans.reverse (pushed + 1) label).code finish →
      watch.Realizes fuel start finish (core.push .link) prepare fun state after =>
        after.get .stack = above (core.get .stack) (1 + plans.length) ∧ R state after.world)
    (enters : ∀ state after, after.get .stack = above (core.get .stack) (1 + plans.length) →
      R state after.world →
      ∀ start finish, watch.Spans start [.call (Label.procedure name).text] finish →
        watch.Realizes fuel start finish after (enter state) fun state' after' =>
          after'.get .stack = after.get .stack ∧ Q state' after'.world)
    (saved : ∀ state world, Q state world → world.memory (core.get .stack) = core.get .link) :
    watch.Does fuel (Plan.callProcedure annotate name plans pushed label).code core
      (prepare >>= enter) Q := by
  intro start finish spans
  simp only [Plan.callProcedure, Output.code_append, Output.code_ofCode, Output.code_ofEvent,
    List.nil_append, spans_append] at spans
  obtain ⟨dropped, ⟨returned, ⟨called, ⟨entered, ⟨remarked, spansRemark, spansSave⟩, spansPush⟩,
    spansCall⟩, spansDrop⟩, spansPop⟩ := spans
  refine Realizes.run spansRemark (run?_remark _ _ _ _) ?_
  refine Realizes.run spansSave (Machine.run?_pushCode _ [.link] _) ?_
  refine (pushes entered called spansPush).bind ?_
  rintro state after - ⟨height, related⟩
  rw [← Outcome.bind_done (enter state)]
  refine (enters state after height related called returned spansCall).bind ?_
  rintro state' after' - ⟨height', related'⟩
  obtain ⟨after'', ran, down, -, world⟩ := exists_run?_dropCode watch.machine after' few
  have bottom : after''.get .stack - 1 = core.get .stack := by
    rw [down, height', height, above_sub, above_one, BitVec.add_sub_cancel]
  refine Realizes.run spansDrop ran
    (Realizes.run_done spansPop (Machine.run?_popCode _ [.link] _) ?_)
  refine ⟨Core.same_scratchBase ?_ ?_, by simpa [Core.popAll, Core.pop, world] using related'⟩
  · rw [Core.popAll, List.foldl_cons, List.foldl_nil, Core.get_stack_pop _ (by decide), bottom]
  · rw [Core.popAll, List.foldl_cons, List.foldl_nil, Core.pop, Core.get_set_self _ _ (by decide),
      bottom, world, saved state' _ related']

end Watch

end ProcLang
