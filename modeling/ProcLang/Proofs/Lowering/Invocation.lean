import ProcLang.Proofs.Lowering.NamedMeaning
import ProcLang.Proofs.Lowering.ProgramPlan
import ProcLang.Proofs.Machine.Address

/-!
# From the call of a procedure to its return

A call goes to the code of a procedure, which makes a frame above the arguments,
runs the body, drops the frame and goes back behind the call. The arguments are
then the values of the parameters, and the locals have no value yet
(`Activation.follows_fresh`). So the whole activation realizes what the body
means (`Activation.realizes_procedure`).

In a machine that holds the code of every procedure of a program, this is true of
every call, also of recursive ones: what a call means is defined by recursion on
the fuel, and `Layout.Carries.invokes` follows it by induction.
-/

set_option autoImplicit false

namespace ProcLang

variable {machine : Machine} {layout : Layout machine}

/-! ## Making a frame -/

theorem exists_run?_prologue (machine : Machine) (core : Core) (annotate : Bool) (heading : Header)
    {words : Nat} (few : words ≤ maxOffset) :
    ∃ after, machine.run? (prologue annotate heading words) core = some after ∧
      after.get .stack = above (core.get .stack) words ∧ after.get .link = core.get .link ∧
      after.world = core.world := by
  obtain ⟨after, ran, made⟩ := exists_run?_frameCode machine core few
  refine ⟨after, ?_, made⟩
  cases annotate <;> exact ran

theorem Procedure.unclamped_body {procedure : Procedure} {annotate : Bool}
    {globals : List Declaration} {label : Nat}
    (unclamped : Unclamped (procedure.output annotate globals label).events) :
    Unclamped
      ((procedure.body.plan annotate (procedure.scope.resolve globals)).effect 0 label).events := by
  simp only [output, Plan.procedure, Output.events_append, unclamped_append] at unclamped
  exact unclamped.1.2

/-! ## Arguments as values of parameters -/

/-- A value that is looked up stands at the place of the first parameter of the
name. -/
theorem exists_of_lookup_zip {parameters : List String} {arguments : List Word} {name : String}
    {value : Word} (found : (parameters.zip arguments).lookup name = some value) :
    ∃ index, parameters[index]? = some name ∧ name ∉ parameters.take index ∧
      arguments[index]? = some value := by
  induction parameters generalizing arguments with
  | nil => cases found
  | cons parameter rest ih =>
      cases arguments with
      | nil => cases found
      | cons argument others =>
          rw [List.zip_cons_cons, List.lookup_cons] at found
          split at found
          next same =>
            obtain rfl := beq_iff_eq.mp same
            exact ⟨0, rfl, List.not_mem_nil, found⟩
          next different =>
            obtain ⟨index, listed, first, given⟩ := ih found
            refine ⟨index + 1, listed, ?_, given⟩
            rw [List.take_succ_cons, List.mem_cons, not_or]
            exact ⟨beq_eq_false_iff_ne.mp different, first⟩

namespace Activation

variable {activation : Activation layout} {procedure : Procedure} {arguments : List Word}
  {shared : Shared}

theorem top_eq (activation : Activation layout) :
    activation.top =
      activation.low + activation.scope.parameters.length + activation.scope.frameSize := by
  rw [top, (Scope.frameExtent?_eq activation.reach).1, Scope.frameSize_eq activation.reach]
  omega

/-- The place of a parameter, seen from the bottom of the activation. -/
theorem top_sub_parameter {index : Nat} (inside : index < activation.scope.parameters.length) :
    activation.top - (activation.scope.frameSize + index + 1) =
      activation.low + (activation.scope.parameters.length - 1 - index) := by
  have top := activation.top_eq
  omega

/-- **At the start of an activation, the memory holds the values of its
parameters.** -/
theorem follows_fresh {world : World} (same : activation.scope = procedure.scope)
    (count : activation.scope.parameters.length = arguments.length)
    (row : world.HasRow (above layout.bottom activation.low) arguments.reverse)
    (holds : layout.Holds shared world) :
    activation.Follows 0 world ⟨procedure.fresh arguments, shared⟩ world := by
  refine ⟨?_, holds, fun _ _ _ => rfl⟩
  intro name address index distance value lives cell given
  simp only [Procedure.fresh, Option.ite_none_left_eq_some, List.any_eq_true, beq_iff_eq,
    not_exists, not_and] at given
  obtain ⟨place, listed, first, argument⟩ := exists_of_lookup_zip given.2
  have inside : place < activation.scope.parameters.length :=
    count ▸ (List.getElem?_eq_some_iff.mp argument).1
  have reach : procedure.scope.frameExtent? = some activation.extent := same ▸ activation.reach
  have found : procedure.scope.find name = _ := Scope.find_parameter reach listed first given.1
  rw [same, found] at lives
  cases lives
  simp only [Address.cell?, Option.ite_none_right_eq_some, Option.some.injEq] at cell
  rw [← cell.2, ← same, top_sub_parameter inside, ← above_above]
  refine row _ _ ?_
  rw [List.getElem?_reverse (by omega), ← argument]
  exact congrArg _ (by omega)

/-! ## One activation -/

/-- **The code of a procedure, entered with its arguments on the stack, realizes
what its body means and goes back to where it was called.** -/
theorem realizes_procedure {fuel label start last finish : Nat} {annotate : Bool} {core : Core}
    {effect : Nat → Store → Outcome Store} (same : activation.scope = procedure.scope)
    (tracks : activation.EffectTracks fuel
      (procedure.body.plan annotate (activation.scope.resolve layout.globals)).effect effect)
    (spans : machine.everywhere.Spans start
      (procedure.output annotate layout.globals label).code last)
    (unclamped : Unclamped (procedure.output annotate layout.globals label).events)
    (returns : machine.positionAt? activation.link = some finish)
    (link : core.get .link = activation.link)
    (count : activation.scope.parameters.length = arguments.length)
    (stack : core.get .stack = above layout.bottom (activation.low + arguments.length))
    (row : core.world.HasRow (above layout.bottom activation.low) arguments.reverse)
    (holds : layout.Holds shared core.world) :
    machine.everywhere.Realizes fuel start finish core
      (effect activation.top ⟨procedure.fresh arguments, shared⟩ >>= fun store =>
        .done store.shared)
      fun shared' after => after.get .stack = core.get .stack ∧ layout.Holds shared' after.world ∧
        World.Keeps layout.bottom activation.low core.world after.world := by
  have few : procedure.scope.frameSize ≤ maxOffset := by
    have := Scope.frameExtent?_eq activation.reach
    have := Scope.frameSize_eq activation.reach
    rw [← same]
    omega
  have top : above layout.bottom activation.top =
      above (core.get .stack) procedure.scope.frameSize := by
    rw [stack, above_above, activation.top_eq, count, same]
  simp only [procedure.code_output, epilogue, Watch.spans_append] at spans
  obtain ⟨after, ⟨before, spansPrologue, spansBody⟩, dropped, spansDrop, found, inside, -, -⟩ :=
    spans
  obtain ⟨entered, ran, made, linked, world⟩ :=
    exists_run?_prologue machine core annotate procedure.heading few
  have stands : activation.setting.Stands 0 entered :=
    ⟨by rw [above_zero, made]; exact top.symm, linked.trans link⟩
  have follows : activation.Follows 0 core.world ⟨procedure.fresh arguments, shared⟩
      entered.world := by
    rw [world]
    exact follows_fresh same count row holds
  have does := tracks 0 label entered core.world _ stands activation.fits
    (by rw [same]; exact procedure.unclamped_body unclamped) follows
  refine Watch.Realizes.run spansPrologue ran ((does before after ?_).bind ?_)
  · rw [same]
    exact spansBody
  · rintro store ended - ⟨kept, follows'⟩
    obtain ⟨last', ran', down, linked', world'⟩ := exists_run?_dropCode machine ended few
    have stack' : last'.get .stack = core.get .stack := by
      rw [down, kept.stack (Nat.le_refl _), made, above, BitVec.add_sub_cancel]
    have link' : last'.get .link = activation.link :=
      (linked'.trans (kept.link (Nat.le_refl _))).trans stands.link
    have back : machine.execute ⟨dropped, last'⟩ .ret = some ⟨finish, last'⟩ := by
      simp only [Machine.execute, link', returns, Option.map_some]
    refine .run spansDrop ran' (.mono (.jump found inside back (.done ⟨stack', ?_, ?_⟩))
      (Nat.le_succ _))
    · rw [world']
      exact follows'.shared
    · intro height inside
      rw [world']
      exact follows'.kept height (.inl inside) (Nat.lt_of_lt_of_le inside (Nat.le_add_right _ _))

end Activation

/-! ## Every call -/

/-- The machine holds the code of every procedure of a program, each with a body
in which names are used as what they stand for. -/
structure Layout.Carries (layout : Layout machine) (annotate : Bool) (root : Node) : Prop where
  closed : ∀ name, machine.external name = false
  fits : machine.address machine.program.length < 2 ^ 32
  globals : layout.globals = root.globalDeclarations
  shape : ∀ procedure ∈ root.procedures,
    procedure.scope.frameExtent?.isSome ∧ procedure.body.Command
  resolved : ∀ procedure ∈ root.procedures,
    procedure.body.resolves (procedure.scope.lookup? root.globalDeclarations) root.defines
  placed : ∀ procedure ∈ root.procedures, ∃ label start finish,
    machine.everywhere.Spans start (procedure.output annotate layout.globals label).code finish ∧
      Unclamped (procedure.output annotate layout.globals label).events

theorem Node.exists_of_defines {root : Node} {name : String} {count : Nat}
    (defined : root.defines name count) :
    ∃ procedure ∈ root.procedures, procedure.heading.name = name ∧
      procedure.heading.parameters.length = count ∧
      ∀ arithmetic room, (root.source arithmetic room).procedure? name = some procedure := by
  obtain ⟨procedure, found, same⟩ := (Option.any_eq_true _ _).mp defined
  have named : procedure.heading.name = name := by simpa using List.find?_some found
  exact ⟨procedure, List.mem_of_find?_eq_some found, named, by simpa using same, fun _ _ => found⟩

namespace Layout.Carries

variable {annotate : Bool} {root : Node}

theorem few (carries : layout.Carries annotate root) (name : String) (count : Nat)
    (defined : root.defines name count) : count ≤ maxOffset := by
  obtain ⟨procedure, member, -, rfl, -⟩ := root.exists_of_defines defined
  obtain ⟨extent, reach⟩ := Option.isSome_iff_exists.mp (carries.shape procedure member).1
  obtain ⟨same, few⟩ := Scope.frameExtent?_eq reach
  have : procedure.scope.parameters.length = procedure.heading.parameters.length := rfl
  omega

/-- The body of a procedure does what it means, if calls do. -/
theorem tracks_body (carries : layout.Carries annotate root) {procedure : Procedure}
    {activation : Activation layout} {fuel : Nat}
    {invoke : String → List Word → Nat → Shared → Outcome Shared}
    (member : procedure ∈ root.procedures) (same : activation.scope = procedure.scope)
    (invokes : layout.Invokes fuel root.defines invoke) :
    activation.EffectTracks fuel
      (procedure.body.plan annotate (activation.scope.resolve layout.globals)).effect
      (procedure.body.sense ((root.source machine.arithmetic layout.room).around procedure.scope
        fuel invoke)).effect := by
  have around : (root.source machine.arithmetic layout.room).around procedure.scope fuel invoke =
      activation.around fuel invoke := by
    rw [Activation.around, carries.globals, same]
    rfl
  have resolved := carries.resolved procedure member
  rw [← carries.globals, ← same] at resolved
  rw [around]
  exact (carries.shape procedure member).2.tracks carries.few invokes resolved

/-- A call goes to the code of the procedure. -/
theorem execute_call (carries : layout.Carries annotate root) {procedure : Procedure}
    {label start finish position : Nat}
    (spans : machine.everywhere.Spans start
      (procedure.output annotate layout.globals label).code finish) (core : Core) :
    machine.execute ⟨position, core⟩ (.call (Label.procedure procedure.heading.name).text) =
      some ⟨start, core.set .link (machine.link (position + 1))⟩ := by
  rw [procedure.code_output] at spans
  have target : machine.target? (Label.procedure procedure.heading.name).text = some start :=
    spans.2.2.1 _ rfl
  simp [Machine.execute, carries.closed, target]

/-- **A call of a procedure realizes what the call means**, however deep calls are
nested. -/
theorem invokes (carries : layout.Carries annotate root) (fuel : Nat) :
    layout.Invokes fuel root.defines
      ((root.source machine.arithmetic layout.room).invoke fuel) := by
  induction fuel with
  | zero =>
      intro name arguments low shared core start finish _ _ _ _ holds _
      exact ⟨0, _, .refl _, Nat.le_refl _, holds.channel⟩
  | succ fuel ih =>
      intro name arguments low shared core start finish defined stack enough row holds spans
      obtain ⟨procedure, member, rfl, count, known⟩ := root.exists_of_defines defined
      obtain ⟨label, entry, last, spans', unclamped⟩ := carries.placed procedure member
      obtain ⟨extent, reach⟩ := Option.isSome_iff_exists.mp (carries.shape procedure member).1
      obtain ⟨found, inside, -, rfl⟩ := spans
      have top : low + arguments.length + procedure.scope.frameSize = low + extent := by
        rw [(Scope.frameExtent?_eq reach).1, ← Scope.frameSize_eq reach, ← count,
          Nat.add_comm procedure.scope.frameSize, Nat.add_assoc]
        rfl
      simp only [Source.invoke, known, top]
      split
      next fits =>
        let activation : Activation layout :=
          ⟨procedure.scope, extent, reach, low, fits, machine.link (start + 1)⟩
        have tracks : activation.EffectTracks fuel _ _ := carries.tracks_body member rfl ih
        have returns := Machine.positionAt?_link carries.fits found (machine.width_pos _)
        refine .imp (.jump found inside (carries.execute_call spans' core)
          (activation.realizes_procedure rfl tracks spans' unclamped returns
            (core.get_set_self _ (by decide)) count ?_ row holds)) ?_
        · rw [core.get_set_of_ne _ (by decide), stack]
        · rintro shared' after - ⟨stack', rest⟩
          exact ⟨stack'.trans (core.get_set_of_ne _ (by decide)), rest⟩
      next => exact machine.realizes_fault

end Layout.Carries

end ProcLang
