import ProcLang.Proofs.Machine.Basic

/-!
# Runs and outcomes

A meaning gives a program an `Outcome`: it is done with a result, it waits for
the world, it is cut short because its fuel is spent, or it goes wrong, and then
nothing is said about it. `Watch.Realizes` says that a run of the machine from
one position to another agrees with an outcome. A meaning that is cut short with
a given fuel promises that the machine takes at least that many steps, and a
meaning that goes wrong promises a state that counts as bad.

Outcomes are put together by `bind`, and so are the runs that realize them
(`Watch.Realizes.bind`).
-/

set_option autoImplicit false

namespace ProcLang

/-! ## Runs -/

/-- A run of a number of steps in which every step starts at an allowed
position. -/
inductive Machine.Path (machine : Machine) (allowed : Nat → Prop) : Nat → State → State → Prop
  | refl (state : State) : Path machine allowed 0 state state
  | step {count : Nat} {state next last : State} (inside : allowed state.position)
      (stepped : machine.step state = some next)
      (path : Path machine allowed count next last) : Path machine allowed (count + 1) state last

namespace Machine.Path

variable {machine : Machine} {allowed : Nat → Prop} {count more : Nat}
  {state middle last last' : State}

theorem trans (first : machine.Path allowed count state middle)
    (second : machine.Path allowed more middle last) :
    machine.Path allowed (count + more) state last := by
  induction first with
  | refl state => simpa using second
  | step inside stepped _ ih => exact Nat.succ_add _ _ ▸ .step inside stepped (ih second)

theorem steps_eq (path : machine.Path allowed count state last) :
    machine.steps count state = some last := by
  induction path with
  | refl state => rfl
  | step inside stepped _ ih => simp only [steps, stepped, ih]

/-- A run of a number of steps can be followed for fewer. -/
theorem split (path : machine.Path allowed count state last) (fewer : more ≤ count) :
    ∃ middle, machine.Path allowed more state middle ∧
      machine.Path allowed (count - more) middle last := by
  induction path generalizing more with
  | refl state =>
      obtain rfl := Nat.le_zero.mp fewer
      exact ⟨state, .refl state, .refl state⟩
  | @step count state next last inside stepped path ih =>
      cases more with
      | zero => exact ⟨state, .refl state, .step inside stepped path⟩
      | succ more =>
          obtain ⟨middle, before, after⟩ := ih (Nat.le_of_succ_le_succ fewer)
          refine ⟨middle, .step inside stepped before, ?_⟩
          rwa [Nat.succ_sub_succ]

/-- From a state where the machine has come to a stand, no run goes on. -/
theorem le_of_stuck (path : machine.Path allowed count state last)
    (stuck : machine.step last = none) (taken : machine.steps more state = some last') :
    more ≤ count := by
  induction path generalizing more with
  | refl state =>
      cases more with
      | zero => exact Nat.le_refl _
      | succ more => simp [steps, stuck] at taken
  | step inside stepped path ih =>
      cases more with
      | zero => exact Nat.zero_le _
      | succ more =>
          simp only [steps, stepped] at taken
          exact Nat.succ_le_succ (ih stuck taken)

/-- Before its end, a run is where steps may start, and so is any run from there. -/
theorem inside_of_lt (path : machine.Path allowed count state last) (fewer : more < count)
    (taken : machine.steps more state = some last') :
    machine.Path allowed more state last' ∧ allowed last'.position := by
  obtain ⟨middle, before, after⟩ := path.split (Nat.le_of_lt fewer)
  obtain rfl : middle = last' := Option.some.inj (before.steps_eq.symm.trans taken)
  refine ⟨before, ?_⟩
  generalize left : count - more = rest at after
  cases after with
  | refl => omega
  | step inside => exact inside

/-- A run that has left the allowed positions is as long as any. -/
theorem le_of_outside (path : machine.Path allowed count state last)
    (outside : ¬allowed last.position) (other : machine.Path allowed more state last') :
    more ≤ count :=
  Nat.not_lt.mp fun longer => outside (other.inside_of_lt longer path.steps_eq).2

end Machine.Path

theorem Machine.steps_add (machine : Machine) (count more : Nat) (state : State) :
    machine.steps (count + more) state =
      (machine.steps count state).bind (machine.steps more) := by
  induction count generalizing state with
  | zero => simp [steps]
  | succ count ih =>
      rw [Nat.succ_add]
      cases stepped : machine.step state with
      | none => simp [steps, stepped]
      | some next => simpa [steps, stepped] using ih next

/-! ## Outcomes -/

/-- What becomes of a program: a result, the channel at which it waits, the
channel at which its fuel is spent, or nothing that can be said. -/
inductive Outcome (α : Type) where
  | done (value : α)
  | waits (seen : Channel)
  | cut (seen : Channel)
  | fault

namespace Outcome

variable {α β γ : Type}

/-- Go on with a result, if there is one. -/
protected def bind (first : Outcome α) (second : α → Outcome β) : Outcome β :=
  match first with
  | done value => second value
  | waits seen => waits seen
  | cut seen => cut seen
  | fault => fault

instance : Monad Outcome where
  pure := done
  bind := Outcome.bind

@[simp] theorem pure_eq (value : α) : (pure value : Outcome α) = done value := rfl

@[simp] theorem done_bind (value : α) (next : α → Outcome β) :
    (done value >>= next) = next value := rfl

@[simp] theorem waits_bind (seen : Channel) (next : α → Outcome β) :
    (waits seen >>= next) = waits seen := rfl

@[simp] theorem cut_bind (seen : Channel) (next : α → Outcome β) :
    (cut seen >>= next) = cut seen := rfl

@[simp] theorem fault_bind (next : α → Outcome β) : (fault >>= next) = fault := rfl

theorem bind_done (outcome : Outcome α) : (outcome >>= done) = outcome := by
  cases outcome <;> rfl

theorem bind_assoc (outcome : Outcome α) (second : α → Outcome β) (third : β → Outcome γ) :
    (outcome >>= second >>= third) = (outcome >>= fun value => second value >>= third) := by
  cases outcome <;> rfl

/-- What follows may be handed something made of the value, together with the value. -/
theorem bind_tag (outcome : Outcome α) (tag : α → β) (next : α → Outcome γ) :
    (outcome >>= next) =
      (outcome >>= fun value => .done (tag value, value)) >>= fun tagged => next tagged.2 := by
  cases outcome <;> rfl

theorem bind_eq_done {outcome : Outcome α} {next : α → Outcome β} {value : β}
    (done : outcome >>= next = .done value) :
    ∃ first, outcome = .done first ∧ next first = .done value := by
  cases outcome with
  | done first => exact ⟨first, rfl, done⟩
  | waits seen => cases done
  | cut seen => cases done
  | fault => cases done

/-- Nothing goes wrong, and a result is as described. -/
def Ensures (outcome : Outcome α) (post : α → Prop) : Prop :=
  match outcome with
  | done value => post value
  | waits _ | cut _ => True
  | fault => False

theorem Ensures.ne_fault {outcome : Outcome α} {post : α → Prop}
    (ensures : outcome.Ensures post) : outcome ≠ .fault := by
  rintro rfl
  exact ensures

theorem Ensures.imp {outcome : Outcome α} {post post' : α → Prop} (ensures : outcome.Ensures post)
    (weaker : ∀ value, post value → post' value) : outcome.Ensures post' := by
  cases outcome with
  | done value => exact weaker value ensures
  | waits seen => trivial
  | cut seen => trivial
  | fault => exact ensures

theorem Ensures.bind {outcome : Outcome α} {next : α → Outcome β} {post : α → Prop}
    {post' : β → Prop} (ensures : outcome.Ensures post)
    (second : ∀ value, post value → (next value).Ensures post') :
    (outcome >>= next).Ensures post' := by
  cases outcome with
  | done value => exact second value ensures
  | waits seen => trivial
  | cut seen => trivial
  | fault => exact ensures

/-- Fuel is not what stops a program. -/
def Settled (outcome : Outcome α) : Prop :=
  ∀ seen, outcome ≠ cut seen

theorem settled_done (value : α) : (done value).Settled := nofun

theorem settled_waits (seen : Channel) : (waits seen : Outcome α).Settled := nofun

theorem settled_fault : (fault : Outcome α).Settled := nofun

theorem Settled.bind {outcome : Outcome α} {next : α → Outcome β} (settled : outcome.Settled)
    (second : ∀ value, (next value).Settled) : (outcome >>= next).Settled := by
  cases outcome with
  | done value => exact second value
  | waits seen => exact nofun
  | cut seen => exact absurd rfl (settled seen)
  | fault => exact nofun

/-- Do something as long as a test does not give zero. The test may change what
it looks at. -/
def iterate {σ : Type} (seen : σ → Channel) (test : σ → Outcome (Word × σ))
    (body : σ → Outcome σ) : Nat → σ → Outcome σ
  | 0, state => cut (seen state)
  | fuel + 1, state => do
      let (value, state) ← test state
      if value = 0 then done state
      else do
        let state ← body state
        iterate seen test body fuel state

end Outcome

/-! ## Realizing outcomes -/

/-- What is fixed while a run is watched: the machine, the positions at which
its steps may start, and the states that count as bad. -/
structure Watch where
  machine : Machine
  allowed : Nat → Prop
  bad : State → Prop

/-- Runs from one position to another agree with an outcome. -/
def Watch.Realizes {α : Type} (watch : Watch) (fuel start finish : Nat) (core : Core)
    (outcome : Outcome α) (post : α → Core → Prop) : Prop :=
  match outcome with
  | .done value =>
      ∃ count after, watch.machine.Path watch.allowed count ⟨start, core⟩ ⟨finish, after⟩ ∧
        post value after
  | .waits seen =>
      ∃ count state, watch.machine.Path watch.allowed count ⟨start, core⟩ state ∧
        watch.machine.Waits state ∧ watch.allowed state.position ∧
        state.core.world.channel = seen
  | .cut seen =>
      ∃ count state, watch.machine.Path watch.allowed count ⟨start, core⟩ state ∧
        fuel ≤ count ∧ state.core.world.channel = seen
  | .fault =>
      ∃ count state, watch.machine.Path watch.allowed count ⟨start, core⟩ state ∧
        watch.bad state

namespace Watch.Realizes

variable {α β : Type} {watch : Watch} {fuel fuel' start middle finish count : Nat}
  {core core' : Core} {outcome : Outcome α} {next : α → Outcome β} {post : α → Core → Prop}
  {post' : β → Core → Prop}

/-- A run in front of one that realizes an outcome. -/
theorem prepend (path : watch.machine.Path watch.allowed count ⟨start, core⟩ ⟨middle, core'⟩)
    (realizes : watch.Realizes fuel middle finish core' outcome post) :
    watch.Realizes (count + fuel) start finish core outcome post := by
  cases outcome with
  | done value =>
      obtain ⟨more, after, run, holds⟩ := realizes
      exact ⟨count + more, after, path.trans run, holds⟩
  | waits seen =>
      obtain ⟨more, state, run, holds⟩ := realizes
      exact ⟨count + more, state, path.trans run, holds⟩
  | cut seen =>
      obtain ⟨more, state, run, enough, same⟩ := realizes
      exact ⟨count + more, state, path.trans run, Nat.add_le_add_left enough count, same⟩
  | fault =>
      obtain ⟨more, state, run, bad⟩ := realizes
      exact ⟨count + more, state, path.trans run, bad⟩

theorem mono (realizes : watch.Realizes fuel start finish core outcome post)
    (less : fuel' ≤ fuel) : watch.Realizes fuel' start finish core outcome post := by
  cases outcome with
  | done value => exact realizes
  | waits seen => exact realizes
  | cut seen =>
      obtain ⟨more, state, run, enough, same⟩ := realizes
      exact ⟨more, state, run, Nat.le_trans less enough, same⟩
  | fault => exact realizes

/-- The result may be described in a weaker way. -/
theorem imp {post post' : α → Core → Prop}
    (realizes : watch.Realizes fuel start finish core outcome post)
    (weaker : ∀ value after, outcome = .done value → post value after → post' value after) :
    watch.Realizes fuel start finish core outcome post' := by
  cases outcome with
  | done value =>
      obtain ⟨more, after, run, holds⟩ := realizes
      exact ⟨more, after, run, weaker value after rfl holds⟩
  | waits seen => exact realizes
  | cut seen => exact realizes
  | fault => exact realizes

/-- One run after another realizes one outcome after another. -/
theorem bind (first : watch.Realizes fuel start middle core outcome post)
    (second : ∀ value after, outcome = .done value → post value after →
      watch.Realizes fuel middle finish after (next value) post') :
    watch.Realizes fuel start finish core (outcome >>= next) post' := by
  cases outcome with
  | done value =>
      obtain ⟨more, after, run, holds⟩ := first
      exact (prepend run (second value after rfl holds)).mono (Nat.le_add_left _ _)
  | waits seen => exact first
  | cut seen => exact first
  | fault => exact first

/-- Where nothing is left to do, what is known is the result. -/
theorem done {value : α} (holds : post value core) :
    watch.Realizes fuel start start core (.done value) post :=
  ⟨0, core, .refl _, holds⟩

/-- A run that arrives has done what the outcome says. -/
theorem done_of_path {after : Core}
    (realizes : watch.Realizes (count + 1) start finish core outcome post)
    (right : outcome ≠ .fault) (outside : ¬watch.allowed finish)
    (path : watch.machine.Path watch.allowed count ⟨start, core⟩ ⟨finish, after⟩) :
    ∃ value, outcome = .done value ∧ post value after := by
  cases outcome with
  | done value =>
      obtain ⟨more, after', run, holds⟩ := realizes
      obtain rfl : more = count :=
        Nat.le_antisymm (path.le_of_outside outside run) (run.le_of_outside outside path)
      obtain ⟨⟩ := Option.some.inj (path.steps_eq.symm.trans run.steps_eq)
      exact ⟨value, rfl, holds⟩
  | waits seen =>
      obtain ⟨more, state, run, waits, inside, -⟩ := realizes
      obtain rfl : more = count := Nat.le_antisymm (path.le_of_outside outside run)
        (run.le_of_stuck (watch.machine.step_of_waits waits) path.steps_eq)
      obtain rfl := Option.some.inj (path.steps_eq.symm.trans run.steps_eq)
      exact absurd inside outside
  | cut seen =>
      obtain ⟨more, state, run, enough, -⟩ := realizes
      exact absurd (path.le_of_outside outside run) (Nat.not_le.mpr enough)
  | fault => exact absurd rfl right

/-- A run stays where steps may start until it arrives. -/
theorem inside_or_arrived {state : State}
    (realizes : watch.Realizes (count + 1) start finish core outcome post)
    (right : outcome ≠ .fault) (taken : watch.machine.steps count ⟨start, core⟩ = some state) :
    watch.machine.Path watch.allowed count ⟨start, core⟩ state ∧ watch.allowed state.position ∨
      ∃ fewer, fewer ≤ count ∧ ∃ after,
        watch.machine.Path watch.allowed fewer ⟨start, core⟩ ⟨finish, after⟩ := by
  cases outcome with
  | done value =>
      obtain ⟨more, after, run, -⟩ := realizes
      rcases Nat.lt_or_ge count more with longer | arrived
      · exact .inl (run.inside_of_lt longer taken)
      · exact .inr ⟨more, arrived, after, run⟩
  | waits seen =>
      obtain ⟨more, stuck, run, waits, inside, -⟩ := realizes
      rcases Nat.eq_or_lt_of_le (run.le_of_stuck (watch.machine.step_of_waits waits) taken) with
        rfl | longer
      · obtain rfl := Option.some.inj (taken.symm.trans run.steps_eq)
        exact .inl ⟨run, inside⟩
      · exact .inl (run.inside_of_lt longer taken)
  | cut seen =>
      obtain ⟨more, stuck, run, enough, -⟩ := realizes
      exact .inl (run.inside_of_lt enough taken)
  | fault => exact absurd rfl right

end Watch.Realizes

end ProcLang
