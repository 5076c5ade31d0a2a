import ProcLang.Proofs.Machine.Run

/-!
# What can be seen of a machine

A machine stops, or it waits, or it goes on forever, and all the time it reads
and writes. `Machine.Agrees` says that a meaning, which gives an outcome for
every fuel, tells the same of a program. If runs of the machine realize these
outcomes, and no outcome is a fault, then both agree (`Machine.agrees`): a fuel
beyond the length of a run shows how the run ends, and what a machine has
written it never takes back.
-/

set_option autoImplicit false

namespace ProcLang

/-- All runs are watched, and of a run that goes wrong nothing is asked. -/
def Machine.everywhere (machine : Machine) : Watch :=
  ⟨machine, fun _ => True, fun _ => True⟩

theorem Machine.realizes_fault {machine : Machine} {α : Type} {fuel start finish : Nat}
    {core : Core} {post : α → Core → Prop} :
    machine.everywhere.Realizes fuel start finish core .fault post :=
  ⟨0, _, .refl _, trivial⟩

namespace Machine

section

variable (machine : Machine)

/-- A state that the machine comes to. -/
def Reaches (start state : State) : Prop :=
  ∃ count, machine.steps count start = some state

/-- The machine stops, and this is what it has read and written. -/
def HaltsWith (start : State) (channel : Channel) : Prop :=
  ∃ state, machine.Reaches start state ∧ machine.Halts state ∧ state.core.world.channel = channel

/-- The machine comes to wait, and this is what it has read and written. -/
def WaitsWith (start : State) (channel : Channel) : Prop :=
  ∃ state, machine.Reaches start state ∧ machine.Waits state ∧ state.core.world.channel = channel

/-- The machine never comes to a stand. -/
def GoesOn (start : State) : Prop :=
  ∀ count, (machine.steps count start).isSome

/-- A machine and a meaning agree on how a run ends, if it ends, and on what is
read and written until then or forever. -/
structure Agrees (start : State) (outcome : Nat → Outcome Channel) : Prop where
  halts : ∀ channel, machine.HaltsWith start channel ↔ ∃ fuel, outcome fuel = .done channel
  waits : ∀ channel, machine.WaitsWith start channel ↔ ∃ fuel, outcome fuel = .waits channel
  goesOn : machine.GoesOn start ↔ ∀ fuel, ∃ channel, outcome fuel = .cut channel
  writes : machine.GoesOn start → ∀ output : List Word,
    (∃ state, machine.Reaches start state ∧ output <+: state.core.world.channel.output) ↔
      ∃ fuel channel, outcome fuel = .cut channel ∧ output <+: channel.output

end

variable {machine : Machine} {start state state' next : State} {count : Nat}

/-! ## Where runs come to a stand -/

theorem not_waits_of_halts (halts : machine.Halts state) : ¬machine.Waits state := by
  rintro (⟨target, found, -⟩ | ⟨name, found, -⟩)
  · cases halts.symm.trans found
  · cases halts.symm.trans found

/-- A machine comes to a stand in one state only. -/
theorem Reaches.stand_unique (reaches : machine.Reaches start state)
    (stand : machine.step state = none) (reaches' : machine.Reaches start state')
    (stand' : machine.step state' = none) : state = state' := by
  have stays : ∀ {state : State} (more : Nat), machine.step state = none →
      machine.steps (more + 1) state = none := by
    intro state more stand
    rw [steps, stand]
  obtain ⟨count, taken⟩ := reaches
  obtain ⟨count', taken'⟩ := reaches'
  rcases Nat.lt_trichotomy count count' with before | rfl | after
  · obtain ⟨more, rfl⟩ := Nat.exists_eq_add_of_lt before
    rw [Nat.add_assoc, steps_add, taken, Option.bind_some, stays more stand] at taken'
    cases taken'
  · exact Option.some.inj (taken.symm.trans taken')
  · obtain ⟨more, rfl⟩ := Nat.exists_eq_add_of_lt after
    rw [Nat.add_assoc, steps_add, taken', Option.bind_some, stays more stand'] at taken
    cases taken

theorem HaltsWith.unique {channel channel' : Channel} (halts : machine.HaltsWith start channel)
    (halts' : machine.HaltsWith start channel') : channel = channel' := by
  obtain ⟨state, reaches, halt, rfl⟩ := halts
  obtain ⟨state', reaches', halt', rfl⟩ := halts'
  rw [reaches.stand_unique (machine.step_of_halts halt) reaches' (machine.step_of_halts halt')]

theorem WaitsWith.unique {channel channel' : Channel} (waits : machine.WaitsWith start channel)
    (waits' : machine.WaitsWith start channel') : channel = channel' := by
  obtain ⟨state, reaches, wait, rfl⟩ := waits
  obtain ⟨state', reaches', wait', rfl⟩ := waits'
  rw [reaches.stand_unique (machine.step_of_waits wait) reaches' (machine.step_of_waits wait')]

theorem HaltsWith.not_waitsWith {channel channel' : Channel}
    (halts : machine.HaltsWith start channel) : ¬machine.WaitsWith start channel' := by
  rintro ⟨state', reaches', wait, -⟩
  obtain ⟨state, reaches, halt, -⟩ := halts
  obtain rfl := reaches.stand_unique (machine.step_of_halts halt) reaches'
    (machine.step_of_waits wait)
  exact not_waits_of_halts halt wait

theorem GoesOn.step_ne_none (goesOn : machine.GoesOn start)
    (reaches : machine.Reaches start state) :
    machine.step state ≠ none := by
  intro stand
  obtain ⟨count, taken⟩ := reaches
  have further := goesOn (count + 1)
  rw [steps_add, taken, Option.bind_some, steps, stand] at further
  cases further

/-! ## What has been written -/

theorem output_read? {world world' : World} {value : Word}
    (taken : world.read? = some (value, world')) :
    world'.channel.output = world.channel.output := by
  unfold World.read? at taken
  split at taken
  · cases taken
  · cases taken
    rfl

theorem output_effect? {core after : Core} {instruction : Instruction}
    (done : machine.effect? core instruction = some after) :
    core.world.channel.output <+: after.world.channel.output := by
  cases instruction with
  | read target =>
      obtain ⟨⟨value, world⟩, taken, rfl⟩ := Option.map_eq_some_iff.mp done
      exact (output_read? taken).symm ▸ List.prefix_refl _
  | write source =>
      cases done
      exact List.prefix_append _ _
  | jump | branchIfZero | call | ret | halt | reserve => cases done
  | _ =>
      cases done
      exact List.prefix_refl _

/-- A step without answers from outside only moves, or it does what an instruction
does. -/
theorem world_step (closed : ∀ name, machine.external name = false)
    (stepped : machine.step state = some next) :
    next.core.world = state.core.world ∨
      ∃ instruction, machine.effect? state.core instruction = some next.core := by
  unfold step at stepped
  split at stepped
  next => cases stepped
  next instruction found =>
    cases instruction with
    | jump name | ret =>
        obtain ⟨position, -, rfl⟩ := Option.map_eq_some_iff.mp stepped
        exact .inl rfl
    | call name =>
        rw [execute, closed, if_neg Bool.false_ne_true] at stepped
        obtain ⟨position, -, rfl⟩ := Option.map_eq_some_iff.mp stepped
        exact .inl rfl
    | branchIfZero tested name =>
        rw [execute] at stepped
        split at stepped
        · obtain ⟨position, -, rfl⟩ := Option.map_eq_some_iff.mp stepped
          exact .inl rfl
        · cases stepped
          exact .inl rfl
    | _ =>
        simp only [execute, Option.map_eq_some_iff] at stepped
        obtain ⟨after, done, rfl⟩ := stepped
        exact .inr ⟨_, done⟩

/-- A step takes back nothing that was written. -/
theorem output_step (closed : ∀ name, machine.external name = false)
    (stepped : machine.step state = some next) :
    state.core.world.channel.output <+: next.core.world.channel.output := by
  rcases world_step closed stepped with same | ⟨instruction, done⟩
  · exact same ▸ List.prefix_refl _
  · exact output_effect? done

/-- A run takes back nothing that was written. -/
theorem output_steps (closed : ∀ name, machine.external name = false)
    (taken : machine.steps count state = some next) :
    state.core.world.channel.output <+: next.core.world.channel.output := by
  induction count generalizing state with
  | zero =>
      cases taken
      exact List.prefix_refl _
  | succ count ih =>
      rw [steps] at taken
      split at taken
      · cases taken
      next middle stepped => exact (output_step closed stepped).trans (ih taken)

/-! ## Meanings that agree -/

section Agrees

variable {outcome : Nat → Outcome Channel} {first finish fuel : Nat} {core : Core}
  {channel : Channel}

theorem haltsWith_of_done (stop : machine.program[finish]? = some .halt)
    (realizes : machine.everywhere.Realizes fuel first finish core (.done channel)
      fun channel after => after.world.channel = channel) :
    machine.HaltsWith ⟨first, core⟩ channel := by
  obtain ⟨count, after, path, same⟩ := realizes
  exact ⟨_, ⟨count, path.steps_eq⟩, stop, same⟩

theorem waitsWith_of_waits {post : Channel → Core → Prop}
    (realizes : machine.everywhere.Realizes fuel first finish core (.waits channel) post) :
    machine.WaitsWith ⟨first, core⟩ channel := by
  obtain ⟨count, state, path, waits, -, same⟩ := realizes
  exact ⟨state, ⟨count, path.steps_eq⟩, waits, same⟩

theorem isSome_steps_of_cut {post : Channel → Core → Prop}
    (realizes : machine.everywhere.Realizes fuel first finish core (.cut channel) post) :
    (machine.steps fuel ⟨first, core⟩).isSome := by
  obtain ⟨count, state, path, enough, -⟩ := realizes
  obtain ⟨middle, before, -⟩ := path.split enough
  exact Option.isSome_iff_exists.mpr ⟨middle, before.steps_eq⟩

section Meaning

variable (stop : machine.program[finish]? = some .halt)
  (realizes : ∀ fuel, machine.everywhere.Realizes fuel first finish core (outcome fuel)
    fun channel after => after.world.channel = channel)
  (right : ∀ fuel, outcome fuel ≠ .fault)

include stop realizes in
theorem haltsWith_of_outcome (ended : outcome fuel = .done channel) :
    machine.HaltsWith ⟨first, core⟩ channel :=
  haltsWith_of_done stop (ended ▸ realizes fuel)

include realizes in
theorem waitsWith_of_outcome (ended : outcome fuel = .waits channel) :
    machine.WaitsWith ⟨first, core⟩ channel :=
  waitsWith_of_waits (ended ▸ realizes fuel)

include stop realizes right

/-- A meaning with more fuel than a run takes sees how the run ends. -/
theorem outcome_of_stand (reaches : machine.Reaches ⟨first, core⟩ state)
    (stand : machine.step state = none) :
    ∃ fuel channel, outcome fuel = .done channel ∧ machine.HaltsWith ⟨first, core⟩ channel ∨
      outcome fuel = .waits channel ∧ machine.WaitsWith ⟨first, core⟩ channel := by
  obtain ⟨count, taken⟩ := reaches
  refine ⟨count + 1, ?_⟩
  cases ended : outcome (count + 1) with
  | done channel => exact ⟨channel, .inl ⟨rfl, haltsWith_of_outcome stop realizes ended⟩⟩
  | waits channel => exact ⟨channel, .inr ⟨rfl, waitsWith_of_outcome realizes ended⟩⟩
  | cut channel =>
      have further := isSome_steps_of_cut (ended ▸ realizes (count + 1))
      rw [steps_add, taken, Option.bind_some, steps, stand] at further
      cases further
  | fault => exact absurd ended (right _)

theorem outcome_of_haltsWith (halts : machine.HaltsWith ⟨first, core⟩ channel) :
    ∃ fuel, outcome fuel = .done channel := by
  have ⟨state, reaches, halt, _⟩ := halts
  rcases outcome_of_stand stop realizes right reaches (machine.step_of_halts halt) with
    ⟨fuel, channel', ⟨ended, halts'⟩ | ⟨-, waits⟩⟩
  · exact ⟨fuel, halts.unique halts' ▸ ended⟩
  · exact absurd waits halts.not_waitsWith

theorem outcome_of_waitsWith (waits : machine.WaitsWith ⟨first, core⟩ channel) :
    ∃ fuel, outcome fuel = .waits channel := by
  have ⟨state, reaches, wait, _⟩ := waits
  rcases outcome_of_stand stop realizes right reaches (machine.step_of_waits wait) with
    ⟨fuel, channel', ⟨-, halts⟩ | ⟨ended, waits'⟩⟩
  · exact absurd waits halts.not_waitsWith
  · exact ⟨fuel, waits.unique waits' ▸ ended⟩

theorem outcome_of_goesOn (goesOn : machine.GoesOn ⟨first, core⟩) (fuel : Nat) :
    ∃ channel, outcome fuel = .cut channel := by
  cases ended : outcome fuel with
  | done channel =>
      obtain ⟨state, reaches, halts, -⟩ := haltsWith_of_outcome stop realizes ended
      exact absurd (machine.step_of_halts halts) (goesOn.step_ne_none reaches)
  | waits channel =>
      obtain ⟨state, reaches, waits, -⟩ := waitsWith_of_outcome realizes ended
      exact absurd (machine.step_of_waits waits) (goesOn.step_ne_none reaches)
  | cut channel => exact ⟨channel, rfl⟩
  | fault => exact absurd ended (right fuel)

/-- What a run that goes on writes at some time is written by the meaning, if it
has as much fuel as the run takes steps. -/
theorem outcome_of_written (closed : ∀ name, machine.external name = false)
    (goesOn : machine.GoesOn ⟨first, core⟩) (reaches : machine.Reaches ⟨first, core⟩ state) :
    ∃ fuel channel, outcome fuel = .cut channel ∧
      state.core.world.channel.output <+: channel.output := by
  obtain ⟨count, taken⟩ := reaches
  obtain ⟨channel, ended⟩ := outcome_of_goesOn stop realizes right goesOn count
  have realized := realizes count
  rw [ended] at realized
  obtain ⟨more, last, path, enough, rfl⟩ := realized
  obtain ⟨rest, rfl⟩ := Nat.exists_eq_add_of_le enough
  have later : machine.steps (count + rest) ⟨first, core⟩ = some last := path.steps_eq
  rw [steps_add, taken, Option.bind_some] at later
  exact ⟨count, _, ended, output_steps closed later⟩

/-- **A machine agrees with a meaning that its runs realize**, if nothing goes
wrong. -/
theorem agrees (closed : ∀ name, machine.external name = false) :
    machine.Agrees ⟨first, core⟩ outcome where
  halts _ := ⟨outcome_of_haltsWith stop realizes right,
    fun ⟨_, ended⟩ => haltsWith_of_outcome stop realizes ended⟩
  waits _ := ⟨outcome_of_waitsWith stop realizes right,
    fun ⟨_, ended⟩ => waitsWith_of_outcome realizes ended⟩
  goesOn := by
    refine ⟨outcome_of_goesOn stop realizes right, fun spent fuel => ?_⟩
    obtain ⟨channel, ended⟩ := spent fuel
    exact isSome_steps_of_cut (ended ▸ realizes fuel)
  writes goesOn output := by
    constructor
    · rintro ⟨state, reaches, written⟩
      obtain ⟨fuel, channel, ended, longer⟩ :=
        outcome_of_written stop realizes right closed goesOn reaches
      exact ⟨fuel, channel, ended, written.trans longer⟩
    · rintro ⟨fuel, channel, ended, written⟩
      have realized := realizes fuel
      rw [ended] at realized
      obtain ⟨count, state, path, -, rfl⟩ := realized
      exact ⟨state, ⟨count, path.steps_eq⟩, written⟩

end Meaning

end Agrees

end Machine

end ProcLang
