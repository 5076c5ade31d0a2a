import ProcLang.Proofs.Lowering.CallSites
import ProcLang.Proofs.Lowering.Depth
import ProcLang.Proofs.Semantics.Flat

/-!
# Lowered code and its meaning over a flat memory

Wherever the code of a node stands, it realizes the meaning of the node
(`Node.plan_means`). The machine and the meaning have the same world at every
point, so the memory agrees word for word, also where it is reached through
pointers.

Where the meaning goes wrong, the machine is about to change a word that is in
use (`Machine.Touches`).
-/

set_option autoImplicit false

namespace ProcLang

/-- The setting of an activation on a machine. -/
def Machine.setting (machine : Machine) (resolve : String → Address) (top link : Word) : Setting :=
  ⟨resolve, fun name => machine.labelAddress (Label.global name).text, machine.arithmetic, top,
    link⟩

/-- The next step stores a word from the top of a frame up to the stack register,
or takes an answer that changes one. -/
def Machine.Touches (machine : Machine) (top : Word) (state : State) : Prop :=
  (∃ source base offset,
    machine.program[state.position]? = some (.store source base offset) ∧
      (state.core.get base + offset.toBitVec - top).toNat < (state.core.get .stack - top).toNat) ∨
  ∃ name answer rest,
    machine.program[state.position]? = some (.call name) ∧ machine.external name ∧
      state.core.world.answers = answer :: rest ∧
      ∃ index, index < (state.core.get .stack - top).toNat ∧
        answer.memory (above top index) ≠ state.core.world.memory (above top index)

/-- Whether the next step changes a word that is in use. -/
def Machine.touches (machine : Machine) (top : Word) (state : State) : Bool :=
  let height := (state.core.get .stack - top).toNat
  match machine.program[state.position]?, state.core.world.answers with
  | some (.store _ base offset), _ => (state.core.get base + offset.toBitVec - top).toNat < height
  | some (.call name), answer :: _ =>
      machine.external name && (List.range height).any fun index =>
        answer.memory (above top index) != state.core.world.memory (above top index)
  | _, _ => false

theorem Machine.touches_eq_true_iff (machine : Machine) (top : Word) (state : State) :
    machine.touches top state = true ↔ machine.Touches top state := by
  unfold touches Touches
  cases machine.program[state.position]? with
  | none => simp
  | some instruction =>
      cases instruction <;> cases state.core.world.answers <;> simp [and_assoc]

/-- Procedures outside the program are called, with as many arguments as one
constant can count. -/
def Machine.Outside (machine : Machine) (calls : List (String × Nat)) : Prop :=
  ∀ call ∈ calls, machine.external (Label.procedure call.1).text ∧ call.2 ≤ maxOffset

theorem Machine.outside_append {machine : Machine} {calls calls' : List (String × Nat)} :
    machine.Outside (calls ++ calls') ↔ machine.Outside calls ∧ machine.Outside calls' :=
  List.forall_mem_append

/-- A word of the frame is near enough to the stack register where it is
addressed. -/
def Event.inReach : Event → Bool
  | .frameSlot _ shift depth => shift + depth ≤ maxOffset
  | _ => true

/-- Every word of the frame is in reach, so no constant is cut off. -/
def Unclamped (events : List Event) : Prop :=
  ∀ event ∈ events, event.inReach

instance (events : List Event) : Decidable (Unclamped events) :=
  inferInstanceAs (Decidable (∀ event ∈ events, event.inReach))

theorem unclamped_append {first second : List Event} :
    Unclamped (first ++ second) ↔ Unclamped first ∧ Unclamped second :=
  List.forall_mem_append

namespace Setting

variable {setting : Setting} {pushed cursor : Nat} {core after : Core}

/-- The stack and the link register are where an activation expects them. -/
structure Stands (setting : Setting) (pushed : Nat) (core : Core) : Prop where
  stack : core.get .stack = above setting.top pushed
  link : core.get .link = setting.link

theorem Stands.of_same (stands : setting.Stands pushed core) (same : core.Same cursor after)
    (scratch : Register.scratchBase ≤ cursor) : setting.Stands pushed after :=
  ⟨(same.stack scratch).trans stands.stack, (same.link scratch).trans stands.link⟩

/-- The words that are in use are as they were, and nothing else is known of what
became of a world. -/
def Follows (setting : Setting) (pushed : Nat) (start state world : World) : Prop :=
  state = world ∧ World.Keeps setting.top pushed start world

theorem Follows.refl (setting : Setting) (pushed : Nat) (world : World) :
    setting.Follows pushed world world world :=
  ⟨rfl, .refl _ _ _⟩

theorem Follows.trans {start middle state world : World}
    (first : setting.Follows pushed start middle middle)
    (second : setting.Follows pushed middle state world) :
    setting.Follows pushed start state world :=
  ⟨second.1, first.2.trans second.2⟩

/-- In addition, the next word holds the link register. -/
def Saves (setting : Setting) (pushed : Nat) (start state world : World) : Prop :=
  setting.Follows pushed start state world ∧ world.memory (above setting.top pushed) = setting.link

theorem Saves.trans {start middle state world : World}
    (first : setting.Saves pushed start middle middle)
    (second : setting.Follows (pushed + 1) middle state world) :
    setting.Saves pushed start state world :=
  ⟨first.1.trans ⟨second.1, second.2.mono (Nat.le_succ _)⟩,
    (second.2 pushed (Nat.lt_succ_self _)).trans first.2⟩

theorem Stands.pushAll (stands : setting.Stands pushed core) (registers : List Register) :
    setting.Stands (pushed + registers.length) (core.pushAll registers) :=
  ⟨by rw [Core.get_stack_pushAll, stands.stack, above_above],
    by rw [Core.get_pushAll _ _ (by decide), stands.link]⟩

theorem Stands.push (stands : setting.Stands pushed core) :
    setting.Stands (pushed + 1) (core.push .link) :=
  ⟨by rw [Core.get_stack_push, stands.stack, ← above_one, above_above],
    by rw [Core.get_push _ _ (by decide), stands.link]⟩

theorem Stands.world_push (stands : setting.Stands pushed core) :
    (core.push .link).world = core.world.store (above setting.top pushed) setting.link := by
  rw [Core.world_push, stands.stack, stands.link]

theorem Stands.saves (stands : setting.Stands pushed core) (small : pushed < 2 ^ 32) :
    setting.Saves pushed core.world (core.push .link).world (core.push .link).world := by
  rw [stands.world_push]
  exact ⟨⟨rfl, World.keeps_store _ _ _ small (Nat.le_refl _) small⟩, World.memory_store_self _ _ _⟩

end Setting

/-- Wherever it stands, code for a value realizes a meaning. -/
def ValueMeans (watch : Watch) (setting : Setting) (fuel : Nat)
    (planned : Nat → Nat → Nat → Output) (depth : Nat → Nat)
    (meaning : List Word → Nat → World → Outcome (Word × World)) : Prop :=
  ∀ cursor pushed label core, Register.scratchBase ≤ cursor → setting.Stands pushed core →
    Unclamped (planned cursor pushed label).events → pushed + depth cursor ≤ maxCount →
    watch.Yields fuel cursor (planned cursor pushed label).code core
      (meaning (core.pending cursor) pushed core.world) (setting.Follows pushed core.world)

/-- Wherever it stands, code for an effect realizes a meaning. -/
def EffectMeans (watch : Watch) (setting : Setting) (fuel : Nat) (planned : Nat → Nat → Output)
    (depth : Nat) (meaning : Nat → World → Outcome World) : Prop :=
  ∀ pushed label core, setting.Stands pushed core → Unclamped (planned pushed label).events →
    pushed + depth ≤ maxCount →
    watch.Does fuel (planned pushed label).code core (meaning pushed core.world)
      (setting.Follows pushed core.world)

/-- All code of a plan realizes a meaning. -/
structure Plan.Means (watch : Watch) (setting : Setting) (fuel : Nat) (plan : Plan) (depth : Depth)
    (meaning : Meaning) : Prop where
  value : ValueMeans watch setting fuel plan.value depth.value meaning.value
  address : ValueMeans watch setting fuel plan.address depth.address meaning.address
  effect : EffectMeans watch setting fuel plan.effect depth.effect meaning.effect

namespace Plan

/-! ## Kinds of nodes -/

section Kinds

variable {watch : Watch} {setting : Setting} {fuel choices : Nat}
  {planned planned' : Nat → Nat → Nat → Output} {depth depth' : Nat → Nat}
  {meaning meaning' : List Word → Nat → World → Outcome (Word × World)}

theorem effectMeans_unused (means : ValueMeans watch setting fuel planned depth meaning) :
    EffectMeans watch setting fuel (planned Register.scratchBase) (depth Register.scratchBase)
      (Meaning.unused meaning) := by
  intro pushed label core stands unclamped fits
  have yields := means Register.scratchBase pushed label core (Nat.le_refl _) stands unclamped fits
  rw [← List.append_nil (planned Register.scratchBase pushed label).code]
  exact yields.does_append fun value state after _ _ _ follows => Watch.does_nil follows

theorem valueMeans_addressOfValue (means : ValueMeans watch setting fuel planned depth meaning) :
    ValueMeans watch setting fuel
      (fun cursor pushed label => .ofEvent .addressOfValue ++ planned cursor pushed label) depth
      meaning := by
  intro cursor pushed label core scratch stands unclamped fits
  rw [Output.events_append, unclamped_append] at unclamped
  exact means cursor pushed label core scratch stands unclamped.2 fits

theorem means_ofValue (means : ValueMeans watch setting fuel planned depth meaning) :
    (ofValue planned choices).Means watch setting fuel (.ofValue depth) (.ofValue meaning) :=
  ⟨means, valueMeans_addressOfValue means, effectMeans_unused means⟩

theorem means_ofPlace (means : ValueMeans watch setting fuel planned depth meaning)
    (means' : ValueMeans watch setting fuel planned' depth' meaning') :
    (ofPlace planned planned' choices).Means watch setting fuel (.ofPlace depth depth')
      (.ofPlace meaning meaning') :=
  ⟨means, means', effectMeans_unused means⟩

theorem effectMeans_nothing {effect : Nat → Nat → Output} {depth : Nat}
    (nothing : ∀ pushed label, (effect pushed label).code = []) :
    EffectMeans watch setting fuel effect depth fun _ world => .done world := by
  intro pushed label core _ _ _
  rw [nothing]
  exact Watch.does_nil (Setting.Follows.refl _ _ _)

/-- The operands that wait while a statement runs are found again: they are in
words that are in use. -/
theorem valueMeans_parked {effect : Nat → Nat → Output} {depth : Nat}
    {meaning : Nat → World → Outcome World}
    (means : EffectMeans watch setting fuel effect depth meaning) :
    ValueMeans watch setting fuel (parked effect)
      (fun cursor => (Emitter.scratchBelow cursor).length + depth)
      (Meaning.parked setting meaning) := by
  intro cursor pushed label core scratch stands unclamped fits
  replace fits : pushed + ((Emitter.scratchBelow cursor).length + depth) ≤ maxCount := fits
  simp only [parked, Output.events_append, Output.events_ofEvent, Output.events_ofCode,
    List.append_nil, unclamped_append] at unclamped
  have counted : (core.pending cursor).length = (Emitter.scratchBelow cursor).length := by
    rw [Core.length_pending, Core.length_scratchBelow]
  have small : pushed + (core.pending cursor).length < 2 ^ 32 := by
    unfold maxCount at fits
    omega
  have world : (core.pushAll (Emitter.scratchBelow cursor)).world =
      core.world.storeAll (above setting.top pushed) (core.pending cursor) := by
    rw [Core.world_pushAll_scratchBelow, stands.stack]
  have inner := means (pushed + (Emitter.scratchBelow cursor).length) label _ (stands.pushAll _)
    unclamped.2 (by omega)
  rw [world, ← counted] at inner
  have row : ∀ state world', setting.Follows (pushed + (core.pending cursor).length)
      (core.world.storeAll (above setting.top pushed) (core.pending cursor)) state world' →
      world'.HasRow (core.get .stack) (core.pending cursor) := by
    rintro state world' ⟨-, keeps⟩
    rw [stands.stack]
    exact (World.hasRow_storeAll _ _ _ (by omega)).of_keeps keeps
  refine (Watch.yields_parked scratch (by rw [← counted]; exact inner) row).imp ?_
  rintro state world' ⟨same, keeps⟩
  exact ⟨same, (World.keeps_storeAll _ _ _ small).trans (keeps.mono (Nat.le_add_right _ _))⟩

theorem means_ofEffect {effect : Nat → Nat → Output} {depth : Nat}
    {meaning : Nat → World → Outcome World}
    (means : EffectMeans watch setting fuel effect depth meaning) :
    (ofEffect effect choices).Means watch setting fuel (.ofEffect depth)
      (.ofEffect setting meaning) :=
  ⟨valueMeans_parked means, valueMeans_addressOfValue (valueMeans_parked means), means⟩

end Kinds

/-! ## Values -/

section Values

variable {watch : Watch} {resolve : String → Address} {top link : Word} {fuel : Nat}

theorem above_sub_add (base : Word) (shift words : Nat) :
    above base words - BitVec.ofNat 32 (shift + words) = base - BitVec.ofNat 32 shift := by
  rw [above, BitVec.ofNat_add]
  bv_omega

section Address

variable {σ : Type} {P : σ → World → Prop} {state : σ} {cursor pushed : Nat} {core : Core}

/-- A word of the frame is found from the stack register, whatever was pushed. -/
theorem yields_frameAddress {name : String} {shift : Nat} (scratch : Register.scratchBase ≤ cursor)
    (stands : (watch.machine.setting resolve top link).Stands pushed core)
    (unclamped : Unclamped (frameAddress name shift (.general cursor) pushed).events)
    (related : P state core.world) :
    watch.Yields fuel cursor (frameAddress name shift (.general cursor) pushed).code core
      (.done (top - BitVec.ofNat 32 shift, state)) P := by
  have near : shift + pushed ≤ maxOffset :=
    of_decide_eq_true (unclamped (.frameSlot name shift pushed) List.mem_cons_self)
  have exact' : addCount shift pushed = shift + pushed :=
    Nat.min_eq_left (Nat.le_trans near (by decide))
  refine Watch.yields_set scratch ?_ related
  rw [Machine.effect?, exact', add_neg_wordImmediate _ near, stands.stack]
  exact congrArg (fun address => some (core.set _ address)) (above_sub_add top shift pushed)

theorem yields_addressOf (name : String) (scratch : Register.scratchBase ≤ cursor)
    (stands : (watch.machine.setting resolve top link).Stands pushed core)
    (unclamped : Unclamped (addressOf resolve name (.general cursor) pushed).events)
    (related : P state core.world) :
    watch.Yields fuel cursor (addressOf resolve name (.general cursor) pushed).code core
      (.done ((watch.machine.setting resolve top link).address name, state)) P := by
  simp only [addressOf, Setting.address, Machine.setting] at unclamped ⊢
  cases found : resolve name with
  | frameLocal shift size =>
      simp only [found] at unclamped ⊢
      exact yields_frameAddress scratch stands unclamped related
  | parameter shift =>
      simp only [found] at unclamped ⊢
      exact yields_frameAddress scratch stands unclamped related
  | global name size => exact Watch.yields_set scratch rfl related

end Address

theorem valueMeans_addressOf (name : String) :
    ValueMeans watch (watch.machine.setting resolve top link) fuel
      (fun cursor pushed _ => addressOf resolve name (.general cursor) pushed) (fun _ => 0)
      (fun _ _ world => .done ((watch.machine.setting resolve top link).address name, world)) :=
  fun _ _ _ _ scratch stands unclamped _ =>
    yields_addressOf name scratch stands unclamped (.refl _ _ _)

theorem valueMeans_reference (name : String) :
    ValueMeans watch (watch.machine.setting resolve top link) fuel
      (fun cursor pushed _ => reference resolve name cursor pushed) (fun _ => 0)
      (Meaning.reference (watch.machine.setting resolve top link) name) := by
  intro cursor pushed label core scratch stands unclamped fits
  simp only [reference, Output.events_append, unclamped_append] at unclamped
  have address : watch.Yields fuel cursor (addressOf resolve name (.general cursor) pushed).code
      core _ _ :=
    valueMeans_addressOf name cursor pushed label core scratch stands unclamped.1 fits
  by_cases array : (resolve name).isArray
  · have same : Meaning.reference (watch.machine.setting resolve top link) name
        (core.pending cursor) pushed core.world =
        .done ((watch.machine.setting resolve top link).address name, core.world) :=
      if_pos array
    rw [same]
    simpa [reference, array] using address
  · have same : Meaning.reference (watch.machine.setting resolve top link) name
        (core.pending cursor) pushed core.world =
        (.done ((watch.machine.setting resolve top link).address name, core.world) >>=
          fun result => .done (result.2.memory result.1, result.2)) :=
      if_neg array
    rw [same]
    simp only [reference, array, Output.code_append]
    refine Watch.yields_concat address ?_
    rintro value state after - _ found ⟨rfl, keeps⟩
    refine Watch.yields_set scratch ?_ ⟨rfl, keeps⟩
    simp [Machine.effect?, found]

theorem valueMeans_constant {setting : Setting} (value : Int32) :
    ValueMeans watch setting fuel
      (fun cursor _ _ => .ofCode [.loadImmediate (.general cursor) value]) (fun _ => 0)
      (fun _ _ world => .done (value.toBitVec, world)) :=
  fun _ _ _ _ scratch _ _ _ => Watch.yields_set scratch rfl (Setting.Follows.refl _ _ _)

variable {left right operand : Plan} {depthLeft depthRight depth : Depth}
  {meaningLeft meaningRight meaning : Meaning}

theorem valueMeans_binary (op : BinaryOperator)
    (means : left.Means watch (watch.machine.setting resolve top link) fuel depthLeft meaningLeft)
    (means' : right.Means watch (watch.machine.setting resolve top link) fuel depthRight
      meaningRight) :
    ValueMeans watch (watch.machine.setting resolve top link) fuel (binary op left right)
      (fun cursor => max (depthLeft.value cursor) (depthRight.value (cursor + 1)))
      (Meaning.binary (watch.machine.setting resolve top link) op meaningLeft meaningRight) := by
  intro cursor pushed label core scratch stands unclamped fits
  replace fits : pushed + max (depthLeft.value cursor) (depthRight.value (cursor + 1)) ≤ maxCount :=
    fits
  simp only [binary, Output.events_append, Output.events_ofCode, List.append_nil,
    unclamped_append] at unclamped
  have yields := means.value cursor pushed label core scratch stands unclamped.1 (by omega)
  refine Watch.yields_binary scratch yields ?_
  rintro value state after same found ⟨rfl, keeps⟩
  have yields' := means'.value (cursor + 1) pushed (label + left.choices) after
    (Nat.le_succ_of_le scratch) (stands.of_same same scratch) unclamped.2 (by omega)
  rw [Core.pending_succ _ scratch, same.pending_eq, found] at yields'
  exact yields'.imp fun state world follows => Setting.Follows.trans ⟨rfl, keeps⟩ follows

theorem valueMeans_unary (op : UnaryOperator)
    (means : operand.Means watch (watch.machine.setting resolve top link) fuel depth meaning) :
    ValueMeans watch (watch.machine.setting resolve top link) fuel (unary op operand) depth.value
      (Meaning.unary op meaning) := by
  intro cursor pushed label core scratch stands unclamped fits
  simp only [unary, Output.events_append, Output.events_ofCode, List.append_nil] at unclamped
  have yields := means.value cursor pushed label core scratch stands unclamped fits
  by_cases load : op = .dereference
  · subst load
    refine Watch.yields_concat yields ?_
    rintro value state after - _ found ⟨rfl, keeps⟩
    refine Watch.yields_set scratch ?_ ⟨rfl, keeps⟩
    simp [Machine.effect?, found]
  · have same : Meaning.unary op meaning (core.pending cursor) pushed core.world =
        (meaning.value (core.pending cursor) pushed core.world >>= fun result =>
          .done (Arithmetic.unary op result.1, result.2)) := by
      cases op <;> first | rfl | exact absurd rfl load
    rw [same]
    exact Watch.yields_unary scratch load yields

end Values

/-! ## Effects -/

section Effects

variable {watch : Watch} {resolve : String → Address} {top link : Word} {fuel : Nat}

/-- A store is done, or it would change a word that is in use. -/
theorem does_store_or_touches {pushed : Nat} {core : Core} {start : World}
    (touch : ∀ state, watch.machine.Touches top state → watch.bad state)
    (stands : (watch.machine.setting resolve top link).Stands pushed core)
    (small : pushed ≤ maxCount) (keeps : World.Keeps top pushed start core.world) :
    watch.Does fuel
      [.store (.general (Register.scratchBase + 1)) (.general Register.scratchBase) 0] core
      (Meaning.store (watch.machine.setting resolve top link) pushed
        (core.get (.general Register.scratchBase)) (core.get (.general (Register.scratchBase + 1)))
        core.world)
      ((watch.machine.setting resolve top link).Follows pushed start) := by
  have height : (core.get .stack - top).toNat = pushed := by
    rw [stands.stack]
    exact toNat_above_sub top (Nat.lt_succ_of_le small)
  unfold Meaning.store
  by_cases inUse : (core.get (.general Register.scratchBase) - top).toNat < pushed
  · intro first last spans
    simp only [Machine.setting, inUse, if_true]
    refine ⟨0, ⟨first, core⟩, .refl _, touch _ (.inl ⟨_, _, _, spans.1, ?_⟩)⟩
    simpa [height] using inUse
  · simp only [Machine.setting, inUse, if_false]
    refine Watch.does_store ⟨rfl, keeps.trans ?_⟩
    intro index inside
    apply World.memory_store_of_ne
    rintro same
    have := toNat_above_sub top (Nat.lt_trans inside (Nat.lt_succ_of_le small))
    rw [same] at this
    omega

variable {target value condition consequent alternative body : Plan}
  {depthTarget depthValue depthCondition depthConsequent depthAlternative depthBody : Depth}
  {meaningTarget meaningValue meaningCondition meaningConsequent meaningAlternative
    meaningBody : Meaning}

theorem effectMeans_assign (touch : ∀ state, watch.machine.Touches top state → watch.bad state)
    (means : target.Means watch (watch.machine.setting resolve top link) fuel depthTarget
      meaningTarget)
    (means' : value.Means watch (watch.machine.setting resolve top link) fuel depthValue
      meaningValue) :
    EffectMeans watch (watch.machine.setting resolve top link) fuel (assign target value)
      (max (depthTarget.address Register.scratchBase) (depthValue.value (Register.scratchBase + 1)))
      (Meaning.assign (watch.machine.setting resolve top link) meaningTarget meaningValue) := by
  intro pushed label core stands unclamped fits
  simp only [assign, Output.events_append, Output.events_ofCode, List.append_nil,
    unclamped_append] at unclamped
  have yields := means.address Register.scratchBase pushed label core (Nat.le_refl _) stands
    unclamped.1 (by omega)
  have yields' : ∀ place state after, core.Same Register.scratchBase after →
      after.get (.general Register.scratchBase) = place →
      (watch.machine.setting resolve top link).Follows pushed core.world state after.world →
      watch.Yields fuel (Register.scratchBase + 1)
        (value.value (Register.scratchBase + 1) pushed (label + target.choices)).code after
        (meaningValue.value [place] pushed state)
        ((watch.machine.setting resolve top link).Follows pushed core.world) := by
    rintro place state after same found ⟨rfl, keeps⟩
    have inner := means'.value (Register.scratchBase + 1) pushed (label + target.choices) after
      (Nat.le_succ _) (stands.of_same same (Nat.le_refl _)) unclamped.2 (by omega)
    rw [Core.pending_succ _ (Nat.le_refl _), Core.pending_scratchBase, found] at inner
    exact inner.imp fun state world follows => Setting.Follows.trans ⟨rfl, keeps⟩ follows
  refine Watch.does_assign yields (fun place state => yields' place state) ?_
  rintro place state word state' after - same rfl rfl ⟨rfl, keeps⟩
  exact does_store_or_touches touch (stands.of_same same (Nat.le_refl _)) (by omega) keeps

theorem effectMeans_branch
    (means : condition.Means watch (watch.machine.setting resolve top link) fuel depthCondition
      meaningCondition)
    (means' : consequent.Means watch (watch.machine.setting resolve top link) fuel depthConsequent
      meaningConsequent) :
    EffectMeans watch (watch.machine.setting resolve top link) fuel (branch condition consequent)
      (max (depthCondition.value Register.scratchBase) depthConsequent.effect)
      (Meaning.branch meaningCondition meaningConsequent .done) := by
  intro pushed label core stands unclamped fits
  simp only [branch, Output.events_append, Output.events_ofCode, Output.events_ofEvent,
    List.append_nil, unclamped_append] at unclamped
  have yields := means.value Register.scratchBase pushed label core (Nat.le_refl _) stands
    unclamped.1.1 (by omega)
  refine Watch.does_branch yields ?_ fun _ _ follows => follows
  rintro state after same ⟨rfl, keeps⟩
  exact (means'.effect pushed _ after (stands.of_same same (Nat.le_refl _)) unclamped.2
    (by omega)).imp fun state world follows => Setting.Follows.trans ⟨rfl, keeps⟩ follows

theorem effectMeans_branchElse
    (means : condition.Means watch (watch.machine.setting resolve top link) fuel depthCondition
      meaningCondition)
    (means' : consequent.Means watch (watch.machine.setting resolve top link) fuel depthConsequent
      meaningConsequent)
    (means'' : alternative.Means watch (watch.machine.setting resolve top link) fuel
      depthAlternative meaningAlternative) :
    EffectMeans watch (watch.machine.setting resolve top link) fuel
      (branchElse condition consequent alternative)
      (max (max (depthCondition.value Register.scratchBase) depthConsequent.effect)
        depthAlternative.effect)
      (fun pushed => Meaning.branch meaningCondition meaningConsequent
        (meaningAlternative.effect pushed) pushed) := by
  intro pushed label core stands unclamped fits
  simp only [branchElse, Output.events_append, Output.events_ofCode, Output.events_ofEvent,
    List.append_nil, unclamped_append] at unclamped
  have yields := means.value Register.scratchBase pushed label core (Nat.le_refl _) stands
    unclamped.1.1.1 (by omega)
  refine Watch.does_branchElse yields ?_ ?_
  · rintro state after same ⟨rfl, keeps⟩
    exact (means'.effect pushed _ after (stands.of_same same (Nat.le_refl _)) unclamped.1.2
      (by omega)).imp fun state world follows => Setting.Follows.trans ⟨rfl, keeps⟩ follows
  · rintro state after same ⟨rfl, keeps⟩
    exact (means''.effect pushed _ after (stands.of_same same (Nat.le_refl _)) unclamped.2
      (by omega)).imp fun state world follows => Setting.Follows.trans ⟨rfl, keeps⟩ follows

theorem effectMeans_loop
    (means : condition.Means watch (watch.machine.setting resolve top link) fuel depthCondition
      meaningCondition)
    (means' : body.Means watch (watch.machine.setting resolve top link) fuel depthBody
      meaningBody) :
    EffectMeans watch (watch.machine.setting resolve top link) fuel (loop condition body)
      (max (depthCondition.value Register.scratchBase) depthBody.effect)
      (Meaning.loop fuel meaningCondition meaningBody) := by
  intro pushed label core stands unclamped fits
  simp only [loop, Output.events_append, Output.events_ofCode, Output.events_ofEvent,
    List.append_nil, unclamped_append] at unclamped
  refine Watch.does_loop ?_ ?_ ?_ (Setting.Follows.refl _ _ _)
  · rintro state after same ⟨rfl, keeps⟩
    exact (means.value Register.scratchBase pushed (label + 1) after (Nat.le_refl _)
      (stands.of_same same (Nat.le_refl _)) unclamped.1.2 (by omega)).imp
      fun state world follows => Setting.Follows.trans ⟨rfl, keeps⟩ follows
  · rintro state after same ⟨rfl, keeps⟩
    exact (means'.effect pushed _ after (stands.of_same same (Nat.le_refl _)) unclamped.2
      (by omega)).imp fun state world follows => Setting.Follows.trans ⟨rfl, keeps⟩ follows
  · rintro state world ⟨rfl, -⟩
    rfl

theorem effectMeans_read (touch : ∀ state, watch.machine.Touches top state → watch.bad state)
    (means : target.Means watch (watch.machine.setting resolve top link) fuel depthTarget
      meaningTarget) :
    EffectMeans watch (watch.machine.setting resolve top link) fuel (read target)
      (depthTarget.address Register.scratchBase)
      (Meaning.read (watch.machine.setting resolve top link) meaningTarget) := by
  intro pushed label core stands unclamped fits
  simp only [read, Output.events_append, Output.events_ofCode, Output.events_ofEvent,
    List.append_nil, unclamped_append] at unclamped
  have yields := means.address Register.scratchBase pushed label core (Nat.le_refl _) stands
    unclamped.2 fits
  simp only [read, Output.code_append, Output.code_ofCode, Output.code_ofEvent, List.nil_append]
  refine yields.does_append ?_
  rintro place state after - same found ⟨rfl, keeps⟩
  refine Watch.does_read ?_ ?_
  · intro none
    simp only [none]
  · rintro word world taken after' same' rfl rfl
    have memory : after'.world.memory = after.world.memory := World.memory_of_read? taken
    have stands' : (watch.machine.setting resolve top link).Stands pushed after' :=
      stands.of_same (same.trans (same'.mono (Nat.le_succ _))) (Nat.le_refl _)
    have keeps' : World.Keeps top pushed core.world after'.world := by
      intro index inside
      rw [memory]
      exact keeps index inside
    simp only [taken]
    rw [← found, ← same' (.general Register.scratchBase) (Nat.lt_succ_self _)]
    exact does_store_or_touches touch stands' (by omega) keeps'

theorem effectMeans_write
    (means : value.Means watch (watch.machine.setting resolve top link) fuel depthValue
      meaningValue) :
    EffectMeans watch (watch.machine.setting resolve top link) fuel (write value)
      (depthValue.value Register.scratchBase) (Meaning.write meaningValue) := by
  intro pushed label core stands unclamped fits
  simp only [write, Output.events_append, Output.events_ofCode, Output.events_ofEvent,
    List.append_nil, unclamped_append] at unclamped
  have yields := means.value Register.scratchBase pushed label core (Nat.le_refl _) stands
    unclamped.2 fits
  simp only [write, Output.code_append, Output.code_ofCode, Output.code_ofEvent, List.nil_append]
  refine yields.does_append ?_
  rintro word state after - same rfl ⟨rfl, keeps⟩ start finish spans
  exact Watch.Realizes.run_done spans rfl ⟨Core.same_withWorld _ _, rfl, keeps⟩

end Effects

/-! ## Sequences and calls -/

section Lists

variable {watch : Watch} {setting : Setting} {fuel : Nat} {annotate : Bool}
  {resolve : String → Address} {nodes : List Node}

theorem effectMeans_sequence
    (means : ∀ node ∈ nodes, (node.plan annotate resolve).Means watch setting fuel node.depth
      (node.meaning setting fuel)) :
    EffectMeans watch setting fuel (sequence (Node.planAll annotate resolve nodes))
      (Depth.sequence (Node.depthAll nodes))
      (Meaning.sequence (Node.meaningAll setting fuel nodes)) := by
  intro pushed label core stands unclamped fits
  induction nodes generalizing label core with
  | nil => exact Watch.does_nil (Setting.Follows.refl _ _ _)
  | cons node rest ih =>
      simp only [Node.planAll, sequence, Output.events_append, unclamped_append] at unclamped
      simp only [Node.depthAll, Depth.sequence] at fits
      refine Watch.does_append ((means node List.mem_cons_self).effect pushed label core stands
        unclamped.1 (by omega)) ?_
      rintro state after same ⟨rfl, keeps⟩
      exact (ih (fun node member => means node (.tail _ member)) _ after
        (stands.of_same same (Nat.le_refl _)) unclamped.2 (by omega)).imp
        fun state world follows => Setting.Follows.trans ⟨rfl, keeps⟩ follows

/-- What is known when arguments have been pushed: they stand in a row, the first
one at the top. -/
structure Pushed (setting : Setting) (pushed count : Nat) (start : World)
    (result : List Word × World) (after : Core) : Prop where
  stands : setting.Stands (pushed + count) after
  follows : setting.Follows pushed start result.2 after.world
  length : result.1.length = count
  row : after.world.HasRow (above setting.top pushed) result.1.reverse

theorem realizes_pushArguments
    (means : ∀ node ∈ nodes, (node.plan annotate resolve).Means watch setting fuel node.depth
      (node.meaning setting fuel)) {pushed label : Nat} {core : Core}
    (stands : setting.Stands pushed core)
    (unclamped : Unclamped
      (pushArguments (Node.planAll annotate resolve nodes).reverse pushed label).events)
    (fits : pushed + Depth.arguments (Node.depthAll nodes) ≤ maxCount) {start finish : Nat}
    (spans : watch.Spans start
      (pushArguments (Node.planAll annotate resolve nodes).reverse pushed label).code finish) :
    watch.Realizes fuel start finish core
      (Meaning.arguments setting (Node.meaningAll setting fuel nodes) pushed core.world)
      (Pushed setting pushed nodes.length core.world) := by
  induction nodes generalizing finish with
  | nil =>
      obtain rfl : start = finish := spans
      exact .done ⟨stands, .refl _ _ _, rfl, nofun⟩
  | cons node rest ih =>
      simp only [Node.planAll, List.reverse_cons, pushArguments_append, pushArguments,
        List.length_reverse, Output.events_append, Output.code_append, Output.code_empty,
        List.append_nil, Output.code_ofCode, unclamped_append] at spans unclamped
      simp only [Node.depthAll, Depth.arguments] at fits
      obtain ⟨middle, spans, spans'⟩ := Watch.spans_append.mp spans
      have length : (Node.planAll annotate resolve rest).length = rest.length := by
        simp [Node.planAll_eq_map]
      have length' : (Node.depthAll rest).length = rest.length := by
        simp [Node.depthAll_eq_map]
      rw [length'] at fits
      refine (ih (fun node member => means node (.tail _ member)) unclamped.1 (by omega)
        spans).bind ?_
      rintro ⟨values, state⟩ after - ⟨stands', ⟨rfl, keeps⟩, counted, row⟩
      rw [Node.length_meaningAll]
      rw [length] at spans' unclamped
      have inner := (means node List.mem_cons_self).value Register.scratchBase
        (pushed + rest.length) _ after (Nat.le_refl _) stands' unclamped.2.1.1 (by omega)
      refine (inner.push spans').bind ?_
      rintro ⟨value, state⟩ after' - ⟨stack, link, world, ⟨rfl, keeps'⟩, stored⟩
      rw [stands'.stack] at stack stored
      have small : pushed + rest.length < 2 ^ 32 := by
        unfold maxCount at fits
        omega
      have next : World.Keeps setting.top (pushed + rest.length) after.world after'.world := by
        rw [stored]
        exact keeps'.trans (World.keeps_store _ _ _ small (Nat.le_refl _) small)
      refine .done ⟨⟨?_, link.trans stands'.link⟩,
        ⟨stored.symm, keeps.trans (next.mono (Nat.le_add_right _ _))⟩, congrArg (· + 1) counted, ?_⟩
      · rw [stack, ← above_one, above_above, List.length_cons, Nat.add_assoc]
      · rw [List.reverse_cons]
        refine (row.of_keeps (by rwa [List.length_reverse, counted])).concat ?_
        rw [List.length_reverse, counted, above_above, stored, World.memory_store_self]

end Lists

section Calls

variable {watch : Watch} {resolve : String → Address} {top link : Word} {fuel pushed : Nat}
  {annotate : Bool} {nodes : List Node} {core : Core}

/-- An answer is taken, or it would change a word that is in use. -/
theorem realizes_answer {name : String} {start finish : Nat}
    (touch : ∀ state, watch.machine.Touches top state → watch.bad state)
    (outside : watch.machine.external name) (stack : core.get .stack = above top pushed)
    (small : pushed ≤ maxCount) (spans : watch.Spans start [.call name] finish) :
    watch.Realizes fuel start finish core
      (Meaning.answer (watch.machine.setting resolve top link) pushed core.world)
      fun state after => after.get .stack = core.get .stack ∧
        (watch.machine.setting resolve top link).Follows pushed core.world state after.world := by
  obtain ⟨found, inside, -, rfl⟩ := spans
  have height : (core.get .stack - top).toNat = pushed := by
    rw [stack]
    exact toNat_above_sub top (Nat.lt_succ_of_le small)
  cases answers : core.world.answers with
  | nil =>
      have waits : Meaning.answer (watch.machine.setting resolve top link) pushed core.world =
          .waits core.world.channel := by
        simp only [Meaning.answer, answers]
      rw [waits]
      exact ⟨0, ⟨start, core⟩, .refl _, .inr ⟨name, found, outside, answers⟩, inside, rfl⟩
  | cons answer rest =>
      by_cases kept : ∀ index < pushed,
          answer.memory (above top index) = core.world.memory (above top index)
      · have done : Meaning.answer (watch.machine.setting resolve top link) pushed core.world =
            .done ⟨answer.memory, answer.channel, rest⟩ := by
          simp only [Meaning.answer, answers]
          exact if_pos kept
        have stepped : watch.machine.step ⟨start, core⟩ = some ⟨start + 1, ⟨fun number =>
            if number = Register.stack.number then core.registers number
            else answer.registers number, ⟨answer.memory, answer.channel, rest⟩⟩⟩ := by
          simp only [Machine.step, found, Machine.execute, outside, if_true, Machine.answer?,
            answers,
            Option.map_some]
        rw [done]
        exact ⟨1, _, .step inside stepped (.refl _), rfl, rfl, kept⟩
      · have fault : Meaning.answer (watch.machine.setting resolve top link) pushed core.world =
            .fault := by
          simp only [Meaning.answer, answers]
          exact if_neg kept
        obtain ⟨index, low, different⟩ : ∃ index, index < pushed ∧
            answer.memory (above top index) ≠ core.world.memory (above top index) := by
          simpa using kept
        rw [fault]
        exact ⟨0, ⟨start, core⟩, .refl _, touch _ (.inr
          ⟨name, answer, rest, found, outside, answers, index, by rwa [height], different⟩)⟩

theorem effectMeans_callProcedure {name : String}
    (touch : ∀ state, watch.machine.Touches top state → watch.bad state)
    (outside : watch.machine.external (Label.procedure name).text) (few : nodes.length ≤ maxOffset)
    (means : ∀ node ∈ nodes, (node.plan annotate resolve).Means watch
      (watch.machine.setting resolve top link) fuel node.depth
      (node.meaning (watch.machine.setting resolve top link) fuel)) :
    EffectMeans watch (watch.machine.setting resolve top link) fuel
      (callProcedure annotate name (Node.planAll annotate resolve nodes))
      (1 + Depth.arguments (Node.depthAll nodes))
      (Meaning.callProcedure (watch.machine.setting resolve top link)
        (Node.meaningAll (watch.machine.setting resolve top link) fuel nodes)) := by
  intro pushed label core stands unclamped fits
  simp only [callProcedure, Output.events_append, Output.events_ofCode, Output.events_ofEvent,
    List.append_nil, unclamped_append] at unclamped
  have length : (Node.planAll annotate resolve nodes).length = nodes.length := by
    simp [Node.planAll_eq_map]
  have enough := Depth.length_le_arguments (Node.depthAll nodes)
  rw [Node.depthAll_eq_map, List.length_map, ← Node.depthAll_eq_map] at enough
  have saves := stands.saves (by unfold maxCount at fits; omega)
  have pushes : ∀ start finish, watch.Spans start
      (pushArguments (Node.planAll annotate resolve nodes).reverse (pushed + 1) label).code finish →
      watch.Realizes fuel start finish (core.push .link)
        (Meaning.prepare (watch.machine.setting resolve top link)
          (Node.meaningAll (watch.machine.setting resolve top link) fuel nodes) pushed core.world)
        fun result after =>
          after.get .stack =
            above (core.get .stack) (1 + (Node.planAll annotate resolve nodes).length) ∧
          (watch.machine.setting resolve top link).Saves pushed core.world result.2
            after.world := by
    intro start finish spans
    rw [Meaning.prepare, ← stands.world_push]
    refine (realizes_pushArguments means stands.push unclamped.2 (by omega) spans).imp ?_
    rintro result after - ⟨stands', follows, -, -⟩
    rw [length, stands.stack, above_above, ← Nat.add_assoc]
    exact ⟨stands'.stack, saves.trans follows⟩
  refine Watch.Does.imp (Watch.does_callProcedure (by rwa [length]) pushes ?_ ?_)
    fun state world (saved : Setting.Saves _ pushed core.world state world) => saved.1
  · rintro ⟨values, state⟩ after height saved start finish spans
    rw [length, stands.stack, above_above, ← Nat.add_assoc] at height
    obtain rfl : state = after.world := saved.1.1
    rw [Node.length_meaningAll]
    refine (realizes_answer touch outside height (by omega) spans).imp ?_
    rintro state after' - ⟨same, follows⟩
    exact ⟨same, saved.trans ⟨follows.1, follows.2.mono (Nat.le_add_right _ _)⟩⟩
  · intro state world saved
    rw [stands.stack, stands.link]
    exact saved.2

theorem effectMeans_call {name : String}
    (touch : ∀ state, watch.machine.Touches top state → watch.bad state)
    (outside : watch.machine.Outside (Node.generalCalls (.call name nodes)))
    (means : ∀ node ∈ nodes, watch.machine.Outside node.generalCalls →
      (node.plan annotate resolve).Means watch (watch.machine.setting resolve top link) fuel
        node.depth (node.meaning (watch.machine.setting resolve top link) fuel)) :
    EffectMeans watch (watch.machine.setting resolve top link) fuel
      (call annotate name (Node.planAll annotate resolve nodes))
      (Depth.call name (Node.depthAll nodes))
      (Meaning.call (watch.machine.setting resolve top link) name
        (Node.meaningAll (watch.machine.setting resolve top link) fuel nodes)) := by
  rcases general_or_intrinsic name nodes with general | ⟨intrinsic, first, rest, known, rfl⟩
  · rw [Node.generalCalls_call general, Machine.outside_append] at outside
    have last := outside.2 _ List.mem_cons_self
    rw [call_general annotate (general.imp_right fun none => none ▸ rfl),
      Depth.call_general (general.imp_right fun none => none ▸ rfl),
      Meaning.call_general _ (general.imp_right fun none => none ▸ rfl)]
    refine effectMeans_callProcedure touch last.1 last.2 fun node member => ?_
    exact means node member fun call listed =>
      outside.1 call (Node.mem_generalCallsBack.mpr ⟨node, member, listed⟩)
  · rw [Node.generalCalls_intrinsic first rest known] at outside
    have means := means first List.mem_cons_self outside
    simp only [Node.planAll, Node.depthAll, Node.meaningAll]
    intro pushed label core stands unclamped fits
    cases intrinsic with
    | read =>
        simp only [call_read _ _ _ known, Output.events_append, unclamped_append,
          Output.code_append, code_extra, List.nil_append, Depth.call, known,
          Meaning.call_read _ _ _ known] at unclamped fits ⊢
        exact effectMeans_read touch means pushed label core stands unclamped.2 fits
    | write =>
        simp only [call_write _ _ _ known, Output.events_append, unclamped_append,
          Output.code_append, code_extra, List.nil_append, Depth.call, known,
          Meaning.call_write _ _ _ known] at unclamped fits ⊢
        exact effectMeans_write means pushed label core stands unclamped.2 fits

end Calls

end Plan

/-- **Wherever it stands, the code of a node realizes the meaning of the node**, if
every procedure it calls is outside the program and stores into words that are in
use count as bad. -/
theorem Node.plan_means {watch : Watch} {resolve : String → Address} {top link : Word} {fuel : Nat}
    {annotate : Bool} (touch : ∀ state, watch.machine.Touches top state → watch.bad state)
    (node : Node) (outside : watch.machine.Outside node.generalCalls) :
    (node.plan annotate resolve).Means watch (watch.machine.setting resolve top link) fuel
      node.depth (node.meaning (watch.machine.setting resolve top link) fuel) := by
  induction node with
  | program items ih =>
      refine Plan.means_ofEffect (Plan.effectMeans_sequence fun item member => ?_)
      exact ih item member fun call listed =>
        outside call (mem_generalCallsAll.mpr ⟨item, member, listed⟩)
  | procedure heading locals body _ =>
      exact Plan.means_ofEffect (Plan.effectMeans_nothing fun _ _ => rfl)
  | header heading => exact Plan.means_ofEffect (Plan.effectMeans_nothing fun _ _ => rfl)
  | declarations declared => exact Plan.means_ofEffect (Plan.effectMeans_nothing fun _ _ => rfl)
  | declaration declared => exact Plan.means_ofEffect (Plan.effectMeans_nothing fun _ _ => rfl)
  | block statements ih =>
      refine Plan.means_ofEffect (Plan.effectMeans_sequence fun statement member => ?_)
      exact ih statement member fun call listed =>
        outside call (mem_generalCallsAll.mpr ⟨statement, member, listed⟩)
  | call name arguments ih =>
      exact Plan.means_ofEffect (Plan.effectMeans_call touch outside ih)
  | assign target value ihTarget ihValue =>
      obtain ⟨outside, outside'⟩ := Machine.outside_append.mp outside
      exact Plan.means_ofEffect
        (Plan.effectMeans_assign touch (ihTarget outside) (ihValue outside'))
  | branch condition consequent ihCondition ihConsequent =>
      obtain ⟨outside, outside'⟩ := Machine.outside_append.mp outside
      exact Plan.means_ofEffect
        (Plan.effectMeans_branch (ihCondition outside) (ihConsequent outside'))
  | branchElse condition consequent alternative ihCondition ihConsequent ihAlternative =>
      obtain ⟨outside, outside''⟩ := Machine.outside_append.mp outside
      obtain ⟨outside, outside'⟩ := Machine.outside_append.mp outside
      exact Plan.means_ofEffect (Plan.effectMeans_branchElse (ihCondition outside)
        (ihConsequent outside') (ihAlternative outside''))
  | loop condition body ihCondition ihBody =>
      obtain ⟨outside, outside'⟩ := Machine.outside_append.mp outside
      exact Plan.means_ofEffect (Plan.effectMeans_loop (ihCondition outside) (ihBody outside'))
  | binary op left right ihLeft ihRight =>
      obtain ⟨outside, outside'⟩ := Machine.outside_append.mp outside
      exact Plan.means_ofValue (Plan.valueMeans_binary op (ihLeft outside) (ihRight outside'))
  | unary op operand ih =>
      have operation := Plan.valueMeans_unary op (ih outside)
      cases op with
      | dereference => exact Plan.means_ofPlace operation (ih outside).value
      | plus => exact Plan.means_ofValue operation
      | minus => exact Plan.means_ofValue operation
      | not => exact Plan.means_ofValue operation
  | constant value => exact Plan.means_ofValue (Plan.valueMeans_constant value)
  | reference name =>
      exact Plan.means_ofPlace (Plan.valueMeans_reference name) (Plan.valueMeans_addressOf name)

section Lowered

variable {watch : Watch} {top link : Word} (fuel : Nat) {node : Node} {before : Context}
  {emitted : Emitted Unit} {core : Core}

/-- What is emitted for an effect realizes the meaning of the node. -/
theorem Node.lower_effect_does
    (touch : ∀ state, watch.machine.Touches top state → watch.bad state)
    (outside : watch.machine.Outside node.generalCalls)
    (lowered : node.lower.effect.run before = .ok emitted) (small : before.pushed ≤ maxCount)
    (unclamped : Unclamped emitted.output.events)
    (stands : (watch.machine.setting before.resolve top link).Stands before.pushed core) :
    watch.Does fuel emitted.output.code core
      ((node.meaning (watch.machine.setting before.resolve top link) fuel).effect before.pushed
        core.world)
      ((watch.machine.setting before.resolve top link).Follows before.pushed core.world) := by
  have fits := node.lower_reaches.effect before ⟨rfl, rfl⟩ small emitted lowered
  obtain ⟨cursor, ends⟩ := node.lower_follows.effect before ⟨rfl, rfl⟩
  obtain rfl := ends emitted lowered
  exact (node.plan_means touch outside).effect _ _ core stands unclamped fits

/-- What is emitted for a value realizes the meaning of the node. -/
theorem Node.lower_value_yields
    (touch : ∀ state, watch.machine.Touches top state → watch.bad state)
    (outside : watch.machine.Outside node.generalCalls)
    (lowered : node.lower.value.run before = .ok emitted) (small : before.pushed ≤ maxCount)
    (unclamped : Unclamped emitted.output.events) (scratch : Register.scratchBase ≤ before.cursor)
    (stands : (watch.machine.setting before.resolve top link).Stands before.pushed core) :
    watch.Yields fuel before.cursor emitted.output.code core
      ((node.meaning (watch.machine.setting before.resolve top link) fuel).value
        (core.pending before.cursor) before.pushed core.world)
      ((watch.machine.setting before.resolve top link).Follows before.pushed core.world) := by
  have fits := node.lower_reaches.value before ⟨rfl, rfl⟩ small emitted lowered
  obtain rfl := node.lower_follows.value before ⟨rfl, rfl⟩ emitted lowered
  exact (node.plan_means touch outside).value _ _ _ core scratch stands unclamped fits

/-- What is emitted for an address realizes the meaning of the node. -/
theorem Node.lower_address_yields
    (touch : ∀ state, watch.machine.Touches top state → watch.bad state)
    (outside : watch.machine.Outside node.generalCalls)
    (lowered : node.lower.address.run before = .ok emitted) (small : before.pushed ≤ maxCount)
    (unclamped : Unclamped emitted.output.events) (scratch : Register.scratchBase ≤ before.cursor)
    (stands : (watch.machine.setting before.resolve top link).Stands before.pushed core) :
    watch.Yields fuel before.cursor emitted.output.code core
      ((node.meaning (watch.machine.setting before.resolve top link) fuel).address
        (core.pending before.cursor) before.pushed core.world)
      ((watch.machine.setting before.resolve top link).Follows before.pushed core.world) := by
  have fits := node.lower_reaches.address before ⟨rfl, rfl⟩ small emitted lowered
  obtain rfl := node.lower_follows.address before ⟨rfl, rfl⟩ emitted lowered
  exact (node.plan_means touch outside).address _ _ _ core scratch stands unclamped fits

end Lowered

end ProcLang
