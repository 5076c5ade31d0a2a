import ProcLang.Proofs.Lowering.Plan
import ProcLang.Proofs.Machine.Run

/-!
# Running pieces of code

`Watch.Spans` says that a piece of code stands between two positions of the
program, that steps may start there, and that each of its labels belongs to the
place where it stands. A piece without jumps is run by `Machine.run?`; what is
realized after it is realized from its start (`Watch.Realizes.run`).

The stack grows upward. Pushing registers puts them in a row above the stack
register (`Core.pushAll`), and popping them finds what is in that row
(`Core.popAll`).
-/

set_option autoImplicit false

namespace ProcLang

/-! ## Places -/

/-- Code stands from one position up to another. -/
def Watch.Spans (watch : Watch) (start : Nat) (code : List Instruction) (finish : Nat) : Prop :=
  match code with
  | [] => start = finish
  | instruction :: rest =>
      watch.machine.program[start]? = some instruction ∧ watch.allowed start ∧
        (∀ name, instruction = .label name → watch.machine.target? name = some start) ∧
        watch.Spans (start + 1) rest finish

theorem Watch.spans_append {watch : Watch} {start finish : Nat} {first second : List Instruction} :
    watch.Spans start (first ++ second) finish ↔
      ∃ middle, watch.Spans start first middle ∧ watch.Spans middle second finish := by
  induction first generalizing start with
  | nil => simp [Spans]
  | cons instruction rest ih =>
      simp only [List.cons_append, Spans, ih, ← exists_and_left, and_assoc]

/-- What stands between the two positions is part of the code. -/
theorem Watch.Spans.exists_mem {watch : Watch} {start finish position : Nat}
    {code : List Instruction} (spans : watch.Spans start code finish) (late : start ≤ position)
    (early : position < finish) :
    ∃ instruction ∈ code, watch.machine.program[position]? = some instruction := by
  induction code generalizing start with
  | nil =>
      obtain rfl : start = finish := spans
      omega
  | cons instruction rest ih =>
      obtain ⟨found, -, -, others⟩ := spans
      rcases Nat.eq_or_lt_of_le late with rfl | later
      · exact ⟨instruction, List.mem_cons_self, found⟩
      · obtain ⟨other, member, found⟩ := ih others later
        exact ⟨other, .tail _ member, found⟩

/-- The label at a position is found there, if it stands nowhere else. -/
theorem Machine.target?_of_count {machine : Machine} {front back : List Instruction} {name : String}
    (placed : machine.program = front ++ .label name :: back)
    (once : machine.program.count (.label name) = 1) :
    machine.target? name = some front.length := by
  rw [placed, List.count_append, List.count_cons_self] at once
  have absent : ∀ instruction ∈ front, (instruction == .label name) = false := by
    intro instruction member
    refine beq_eq_false_iff_ne.mpr fun same => ?_
    have := List.count_pos_iff.mpr (same ▸ member)
    omega
  rw [target?, placed, List.findIdx?_append, List.findIdx?_eq_none_iff.mpr absent]
  simp [List.findIdx?_cons]

/-- Code that stands in a program, with labels that stand nowhere else. -/
theorem Watch.spans_of_placed {watch : Watch} {front code back : List Instruction}
    (placed : watch.machine.program = front ++ code ++ back)
    (inside : ∀ position, front.length ≤ position → position < front.length + code.length →
      watch.allowed position)
    (once : ∀ name, .label name ∈ code → watch.machine.program.count (.label name) = 1) :
    watch.Spans front.length code (front.length + code.length) := by
  induction code generalizing front with
  | nil => exact Nat.add_zero _
  | cons instruction rest ih =>
      rw [List.length_cons] at inside ⊢
      have later := @ih (front ++ [instruction]) (by simpa using placed)
        (fun position late early => inside position
          (by rw [List.length_append] at late; omega)
          (by rw [List.length_append, List.length_singleton] at early; omega))
        (fun name member => once name (.tail _ member))
      rw [List.length_append, List.length_singleton, Nat.add_assoc, Nat.add_comm 1] at later
      refine ⟨?_, inside _ (Nat.le_refl _) (by omega), ?_, later⟩
      · rw [placed, List.append_assoc, List.getElem?_append_right (Nat.le_refl _), Nat.sub_self]
        rfl
      · rintro name rfl
        have split : watch.machine.program = front ++ .label name :: (rest ++ back) := by
          rw [placed, List.append_assoc, List.cons_append]
        exact Machine.target?_of_count split (once name List.mem_cons_self)

/-- What a piece of code does if the machine goes straight through it. -/
def Machine.run? (machine : Machine) : List Instruction → Core → Option Core
  | [], core => some core
  | instruction :: rest, core =>
      match machine.effect? core instruction with
      | none => none
      | some after => run? machine rest after

namespace Watch.Realizes

variable {α : Type} {watch : Watch} {fuel start middle finish : Nat} {core core' : Core}
  {outcome : Outcome α} {post : α → Core → Prop} {code : List Instruction}

theorem path_of_run (spans : watch.Spans start code finish)
    (ran : watch.machine.run? code core = some core') :
    watch.machine.Path watch.allowed code.length ⟨start, core⟩ ⟨finish, core'⟩ := by
  induction code generalizing start core with
  | nil =>
      obtain rfl : core = core' := by simpa [Machine.run?] using ran
      obtain rfl : start = finish := spans
      exact .refl _
  | cons instruction rest ih =>
      obtain ⟨found, inside, -, others⟩ := spans
      cases done : watch.machine.effect? core instruction with
      | none => simp [Machine.run?, done] at ran
      | some after =>
          exact .step inside (watch.machine.step_of_effect found done)
            (ih others (by simpa [Machine.run?, done] using ran))

/-- Go straight through a piece of code. -/
theorem run (spans : watch.Spans start code middle)
    (ran : watch.machine.run? code core = some core')
    (realizes : watch.Realizes fuel middle finish core' outcome post) :
    watch.Realizes fuel start finish core outcome post :=
  (prepend (path_of_run spans ran) realizes).mono (Nat.le_add_left _ _)

/-- Go straight through a piece of code to its end. -/
theorem run_done {value : α} (spans : watch.Spans start code finish)
    (ran : watch.machine.run? code core = some core') (result : post value core') :
    watch.Realizes fuel start finish core (.done value) post :=
  run spans ran (done result)

end Watch.Realizes

/-! ## Addresses in a row -/

/-- The word a number of words above another. -/
def above (base : Word) (words : Nat) : Word :=
  base + BitVec.ofNat 32 words

@[simp] theorem above_zero (base : Word) : above base 0 = base := by
  simp [above]

theorem above_above (base : Word) (words more : Nat) :
    above (above base words) more = above base (words + more) := by
  rw [above, above, above, BitVec.add_assoc, BitVec.ofNat_add]

theorem above_one (base : Word) : above base 1 = base + 1 := rfl

theorem above_sub (base : Word) (words more : Nat) :
    above base (words + more) - BitVec.ofNat 32 more = above base words := by
  rw [above, BitVec.ofNat_add, ← BitVec.add_assoc, BitVec.add_sub_cancel, above]

theorem above_injective {base : Word} {words more : Nat} (small : words < 2 ^ 32)
    (small' : more < 2 ^ 32) (same : above base words = above base more) : words = more := by
  have numbers := congrArg BitVec.toNat (BitVec.add_right_inj base |>.mp same)
  rwa [BitVec.toNat_ofNat, BitVec.toNat_ofNat, Nat.mod_eq_of_lt small,
    Nat.mod_eq_of_lt small'] at numbers

theorem toNat_above_sub (base : Word) {words : Nat} (small : words < 2 ^ 32) :
    (above base words - base).toNat = words := by
  rw [above, BitVec.add_comm, BitVec.add_sub_cancel, BitVec.toNat_ofNat, Nat.mod_eq_of_lt small]

/-- Values stand in a row in the memory. -/
def World.HasRow (world : World) (base : Word) (values : List Word) : Prop :=
  ∀ (index : Nat) (value : Word), values[index]? = some value →
    world.memory (above base index) = value

/-- A row of words is the same in two worlds. -/
def World.Keeps (base : Word) (words : Nat) (before after : World) : Prop :=
  ∀ index, index < words → after.memory (above base index) = before.memory (above base index)

namespace World

variable {world before middle after : World} {base : Word} {words more : Nat}

theorem Keeps.refl (base : Word) (words : Nat) (world : World) : Keeps base words world world :=
  fun _ _ => rfl

theorem Keeps.trans (first : Keeps base words before middle)
    (second : Keeps base words middle after) :
    Keeps base words before after :=
  fun index inside => (second index inside).trans (first index inside)

theorem Keeps.mono (keeps : Keeps base words before after) (fewer : more ≤ words) :
    Keeps base more before after :=
  fun index inside => keeps index (Nat.lt_of_lt_of_le inside fewer)

/-- Storing right above a row leaves the row alone. -/
theorem keeps_store (world : World) (base : Word) (value : Word) (small : words < 2 ^ 32)
    (place : words ≤ more) (small' : more < 2 ^ 32) :
    Keeps base words world (world.store (above base more) value) := by
  intro index inside
  apply memory_store_of_ne
  intro same
  have := above_injective (Nat.lt_trans inside small) small' same
  omega

theorem keeps_storeAll (world : World) (base : Word) (values : List Word)
    (small : words + values.length < 2 ^ 32) :
    Keeps base words world (world.storeAll (above base words) values) := by
  induction values generalizing world words with
  | nil => exact .refl base words world
  | cons value rest ih =>
      rw [List.length_cons] at small
      have first : Keeps base words world (world.store (above base words) value) :=
        keeps_store world base value (by omega) (Nat.le_refl _) (by omega)
      have others := ih (world.store (above base words) value) (by omega : words + 1 + _ < _)
      rw [← above_above, above_one] at others
      exact first.trans (others.mono (Nat.le_succ _))

/-- What is stored in a row is found there. -/
theorem hasRow_storeAll (world : World) (base : Word) (values : List Word)
    (small : values.length < 2 ^ 32) : (world.storeAll base values).HasRow base values := by
  induction values generalizing world base with
  | nil => exact nofun
  | cons value rest ih =>
      rw [List.length_cons] at small
      intro index found listed
      cases index with
      | zero =>
          obtain rfl : value = found := by simpa using listed
          have kept : Keeps base 1 (world.store base value)
              ((world.store base value).storeAll (above base 1) rest) :=
            keeps_storeAll (world.store base value) base rest (by omega)
          simpa [storeAll, above_one] using kept 0 (by omega)
      | succ index =>
          have later := ih (world.store base value) (base + 1) (by omega) index found
            (by simpa using listed)
          rwa [← above_one, above_above, Nat.add_comm 1] at later

/-- A row with one more word at its end. -/
theorem HasRow.concat {values : List Word} (row : world.HasRow base values) {value : Word}
    (last : world.memory (above base values.length) = value) :
    world.HasRow base (values ++ [value]) := by
  intro index found listed
  rcases Nat.lt_or_ge index values.length with inside | outside
  · rw [List.getElem?_append_left inside] at listed
    exact row index found listed
  · rw [List.getElem?_append_right outside] at listed
    have bound := (List.getElem?_eq_some_iff.mp listed).1
    obtain rfl : index = values.length := by
      rw [List.length_singleton] at bound
      omega
    obtain rfl : value = found := by simpa using listed
    exact last

theorem HasRow.of_keeps {values : List Word} (row : before.HasRow (above base words) values)
    (keeps : Keeps base (words + values.length) before after) :
    after.HasRow (above base words) values := by
  intro index value listed
  have inside := (List.getElem?_eq_some_iff.mp listed).1
  rw [above_above, keeps (words + index) (by omega), ← above_above]
  exact row index value listed

end World

/-! ## The stack -/

namespace Core

/-- Push a register. -/
def push (core : Core) (register : Register) : Core :=
  (core.withWorld (core.world.store (core.get .stack) (core.get register))).set .stack
    (core.get .stack + 1)

/-- Pop a register. -/
def pop (core : Core) (register : Register) : Core :=
  (core.set .stack (core.get .stack - 1)).set register (core.world.memory (core.get .stack - 1))

/-- Push registers, the first one first. -/
def pushAll (core : Core) (registers : List Register) : Core :=
  registers.foldl push core

/-- Pop registers, the first one first. -/
def popAll (core : Core) (registers : List Register) : Core :=
  registers.foldl pop core

end Core

theorem Machine.run?_append (machine : Machine) (first second : List Instruction) (core : Core) :
    machine.run? (first ++ second) core = (machine.run? first core).bind (machine.run? second) := by
  induction first generalizing core with
  | nil => rfl
  | cons instruction rest ih =>
      cases done : machine.effect? core instruction with
      | none => simp [run?, done]
      | some after => simpa [run?, done] using ih after

theorem Machine.run?_pushCode (machine : Machine) (registers : List Register) (core : Core) :
    machine.run? (pushCode registers) core = some (core.pushAll registers) := by
  induction registers generalizing core with
  | nil => rfl
  | cons register rest ih =>
      have first : machine.run? [.store register .stack 0, .addImmediate .stack .stack 1] core =
          some (core.push register) := by
        simp [run?, effect?, Core.push]
      rw [pushCode, List.flatMap_cons, ← pushCode, run?_append, first]
      exact ih (core.push register)

theorem Machine.run?_popCode (machine : Machine) (registers : List Register) (core : Core) :
    machine.run? (popCode registers) core = some (core.popAll registers) := by
  induction registers generalizing core with
  | nil => rfl
  | cons register rest ih =>
      have first : machine.run? [.addImmediate .stack .stack (-1), .load register .stack 0] core =
          some (core.pop register) := by
        have minus : core.get .stack + (-1 : Int32).toBitVec = core.get .stack - 1 :=
          (BitVec.sub_eq_add_neg _ _).symm
        have moved := core.get_set_self (core.get .stack - 1)
          (show Register.stack.number ≠ 0 by decide)
        simp only [run?, effect?, minus, moved]
        simp [Core.pop]
      rw [popCode, List.flatMap_cons, ← popCode, run?_append, first]
      exact ih (core.pop register)

namespace Core

variable {core before middle after : Core} {registers : List Register} {limit : Nat}

/-- The registers below a number are the same in two cores. -/
def Same (limit : Nat) (before after : Core) : Prop :=
  ∀ register : Register, register.number < limit → after.get register = before.get register

theorem Same.refl (limit : Nat) (core : Core) : Same limit core core :=
  fun _ _ => rfl

theorem Same.trans (first : Same limit before middle) (second : Same limit middle after) :
    Same limit before after :=
  fun register below => (second register below).trans (first register below)

theorem Same.mono {limit' : Nat} (same : Same limit before after) (fewer : limit' ≤ limit) :
    Same limit' before after :=
  fun register below => same register (Nat.lt_of_lt_of_le below fewer)

theorem Same.stack (same : Same limit before after) (scratch : Register.scratchBase ≤ limit) :
    after.get .stack = before.get .stack :=
  same .stack (Nat.lt_of_lt_of_le (by decide) scratch)

theorem Same.link (same : Same limit before after) (scratch : Register.scratchBase ≤ limit) :
    after.get .link = before.get .link :=
  same .link (Nat.lt_of_lt_of_le (by decide) scratch)

/-- Changing a register at the limit or above it leaves those below it alone. -/
theorem same_set (core : Core) (value : Word) {register : Register}
    (high : limit ≤ register.number) : Same limit core (core.set register value) := by
  intro other below
  exact core.get_set_of_ne value (by omega)

theorem same_withWorld (core : Core) (world : World) : Same limit core (core.withWorld world) :=
  fun _ _ => rfl

theorem get_eq_of_number_eq (core : Core) {register : Register} (other : Register)
    (same : register.number = other.number) : core.get register = core.get other := by
  simp only [get, same]

/-- Below the scratch registers there are only the stack and the link register. -/
theorem same_scratchBase (stack : after.get .stack = before.get .stack)
    (link : after.get .link = before.get .link) : Same Register.scratchBase before after := by
  intro register below
  match number : register.number, below with
  | 0, _ => simp [get, number]
  | 1, _ =>
      rw [get_eq_of_number_eq after .stack number, stack,
        get_eq_of_number_eq before .stack number]
  | 2, _ =>
      rw [get_eq_of_number_eq after .link number, link,
        get_eq_of_number_eq before .link number]

/-! ### Pushing -/

theorem get_stack_push (core : Core) (register : Register) :
    (core.push register).get .stack = core.get .stack + 1 :=
  get_set_self _ _ (by decide)

theorem get_push (core : Core) (register : Register) {other : Register}
    (usual : other.number ≠ Register.stack.number) :
    (core.push register).get other = core.get other :=
  get_set_of_ne _ _ usual

@[simp] theorem world_push (core : Core) (register : Register) :
    (core.push register).world = core.world.store (core.get .stack) (core.get register) := rfl

theorem get_stack_pushAll (core : Core) (registers : List Register) :
    (core.pushAll registers).get .stack = above (core.get .stack) registers.length := by
  induction registers generalizing core with
  | nil => simp [pushAll]
  | cons register rest ih =>
      have later := ih (core.push register)
      rwa [get_stack_push, ← above_one, above_above, Nat.add_comm] at later

theorem get_pushAll (core : Core) (registers : List Register) {other : Register}
    (usual : other.number ≠ Register.stack.number) :
    (core.pushAll registers).get other = core.get other := by
  induction registers generalizing core with
  | nil => rfl
  | cons register rest ih => exact (ih (core.push register)).trans (get_push core register usual)

theorem world_pushAll (core : Core)
    (usual : ∀ register ∈ registers, register.number ≠ Register.stack.number) :
    (core.pushAll registers).world =
      core.world.storeAll (core.get .stack) (registers.map core.get) := by
  induction registers generalizing core with
  | nil => rfl
  | cons register rest ih =>
      have later := ih (core.push register) fun other member => usual other (.tail _ member)
      have unchanged : rest.map (core.push register).get = rest.map core.get :=
        List.map_congr_left fun other member =>
          get_push core register (usual other (.tail _ member))
      rw [get_stack_push, unchanged] at later
      exact later

/-! ### Popping -/

theorem get_stack_pop (core : Core) {register : Register}
    (usual : register.number ≠ Register.stack.number) :
    (core.pop register).get .stack = core.get .stack - 1 := by
  rw [pop, get_set_of_ne _ _ (Ne.symm usual), get_set_self _ _ (by decide)]

/-- Popping in the order opposite to pushing finds every register again, if the
row on the stack is what was pushed. -/
theorem popAll_reverse (original : Core) {base : Word}
    (usual : ∀ register ∈ registers, Register.stack.number < register.number)
    (row : core.world.HasRow base (registers.map original.get))
    (height : core.get .stack = above base registers.length) :
    (core.popAll registers.reverse).get .stack = base ∧
      (core.popAll registers.reverse).world = core.world ∧
      (∀ register ∈ registers,
        (core.popAll registers.reverse).get register = original.get register) ∧
      ∀ other : Register, other.number ≠ Register.stack.number →
        (∀ register ∈ registers, other.number ≠ register.number) →
        (core.popAll registers.reverse).get other = core.get other := by
  induction registers generalizing base with
  | nil => exact ⟨by simpa [popAll] using height, rfl, nofun, fun _ _ _ => rfl⟩
  | cons register rest ih =>
      have high : Register.stack.number < register.number := usual register List.mem_cons_self
      have top : core.get .stack = above (above base 1) rest.length := by
        rw [height, above_above, List.length_cons, Nat.add_comm]
      have others : core.world.HasRow (above base 1) (rest.map original.get) := by
        intro index value listed
        rw [above_above, Nat.add_comm]
        exact row (index + 1) value (by simpa using listed)
      obtain ⟨stack, world, found, untouched⟩ :=
        ih (fun other member => usual other (.tail _ member)) others top
      have split :
          core.popAll (register :: rest).reverse = (core.popAll rest.reverse).pop register := by
        simp [popAll]
      have down : above base 1 - 1 = base := by
        rw [above_one, BitVec.add_sub_cancel]
      have first : core.world.memory base = original.get register := by
        simpa using row 0 (original.get register) rfl
      have popped : ((core.popAll rest.reverse).pop register).get register =
          original.get register := by
        rw [pop, get_set_self _ _ (by omega), world, stack, down, first]
      have other : ∀ other : Register, other.number ≠ Register.stack.number →
          other.number ≠ register.number →
          ((core.popAll rest.reverse).pop register).get other =
            (core.popAll rest.reverse).get other := by
        intro other usual different
        rw [pop, get_set_of_ne _ _ different, get_set_of_ne _ _ usual]
      rw [split]
      refine ⟨?_, world, ?_, ?_⟩
      · rw [get_stack_pop _ (by omega), stack, down]
      · intro register' member
        by_cases same : register'.number = register.number
        · rw [get_eq_of_number_eq _ register same, get_eq_of_number_eq original register same,
            popped]
        · rcases List.mem_cons.mp member with rfl | member
          · exact absurd rfl same
          · rw [other register' (Nat.ne_of_gt (usual register' (.tail _ member))) same]
            exact found register' member
      · intro register' usual' different
        rw [other register' usual' (different register List.mem_cons_self)]
        exact untouched register' usual' fun other member => different other (.tail _ member)

/-! ### Operands -/

/-- The values of the scratch registers below a number. -/
def pending (core : Core) (limit : Nat) : List Word :=
  (Emitter.scratchBelow limit).map core.get

theorem length_scratchBelow (limit : Nat) :
    (Emitter.scratchBelow limit).length = limit - Register.scratchBase := by
  simp [Emitter.scratchBelow]

theorem length_pending (core : Core) (limit : Nat) :
    (core.pending limit).length = limit - Register.scratchBase := by
  rw [pending, List.length_map, length_scratchBelow]

theorem mem_scratchBelow {register : Register} (member : register ∈ Emitter.scratchBelow limit) :
    Register.scratchBase ≤ register.number ∧ register.number < limit := by
  obtain ⟨index, listed, rfl⟩ := List.mem_map.mp member
  obtain ⟨step, inside, rfl⟩ := List.mem_range'.mp listed
  simp only [Register.number]
  omega

theorem general_mem_scratchBelow {index : Nat} (scratch : Register.scratchBase ≤ index)
    (below : index < limit) : Register.general index ∈ Emitter.scratchBelow limit := by
  refine List.mem_map.mpr ⟨index, List.mem_range'.mpr ⟨index - Register.scratchBase, ?_, ?_⟩, rfl⟩
  · omega
  · omega

@[simp] theorem pending_scratchBase (core : Core) : core.pending Register.scratchBase = [] := rfl

theorem pending_succ (core : Core) (scratch : Register.scratchBase ≤ limit) :
    core.pending (limit + 1) = core.pending limit ++ [core.get (.general limit)] := by
  have split : limit + 1 - Register.scratchBase = (limit - Register.scratchBase) + 1 := by omega
  have last : Register.scratchBase + (limit - Register.scratchBase) = limit := by omega
  simp [pending, Emitter.scratchBelow, split, List.range'_concat, last]

theorem world_pushAll_scratchBelow (core : Core) (limit : Nat) :
    (core.pushAll (Emitter.scratchBelow limit)).world =
      core.world.storeAll (core.get .stack) (core.pending limit) :=
  core.world_pushAll fun _ member =>
    Nat.ne_of_gt (Nat.lt_of_lt_of_le (by decide) (mem_scratchBelow member).1)

theorem Same.pending_eq (same : Same limit before after) :
    after.pending limit = before.pending limit :=
  List.map_congr_left fun register member => same register (mem_scratchBelow member).2

end Core

end ProcLang
