import ProcLang.Proofs.Lowering.ProgramLayout

/-!
# Programs keep their meaning

A source text that is read and lowered gives a program for the machine. The
machine does with it what the source means over named variables: it stops, waits
or goes on forever as the source does, and it reads and writes the same
(`lowerProgram_agrees`).

This is asked of sources in which every name is used as what it stands for
(`Node.Scoped`), whose frames are in reach of the immediates, and which never go
wrong: no word is read before it has a value, no array is left by an index, and
the stack has room for all activations.
-/

set_option autoImplicit false

namespace ProcLang

/-- How a machine is found before a program is started: the globals are zero, and
nothing has been read or written yet. -/
structure Machine.Ready (machine : Machine) (globals : List Declaration) (input : List Word)
    (core : Core) : Prop where
  globals : ∀ declared ∈ globals, ∀ index < declared.words,
    core.world.memory (above (machine.globalAddress declared.name) index) = 0
  channel : core.world.channel = ⟨input, []⟩

section Run

variable {machine : Machine} {annotate : Bool} {entry : String} {items : List Node} {room : Nat}
  {input : List Word} {core : Core}

/-- **From the first instruction to the last, the machine realizes a run of the
program.** -/
theorem Machine.Loads.realizes_run (loads : machine.Loads annotate entry items room)
    (carries : loads.layout.Carries annotate (.program items))
    (defined : (Node.program items).defines entry 0)
    (ready : machine.Ready (Node.program items).globalDeclarations input core) (fuel : Nat) :
    machine.everywhere.Realizes fuel 0 2 core
      (((Node.program items).source machine.arithmetic room).run entry fuel input)
      fun channel after => after.world.channel = channel := by
  obtain ⟨found, inside, labels, call, inside', labels', -⟩ := loads.start
  have pointed : machine.everywhere.Spans 0 [.loadAddress .stack Label.stackBegin.text] 1 :=
    ⟨found, inside, labels, rfl⟩
  have called : machine.everywhere.Spans 1 [.call (Label.procedure entry).text] 2 :=
    ⟨call, inside', labels', rfl⟩
  have holds : loads.layout.Holds ⟨fun _ _ => 0, ⟨input, []⟩⟩ core.world :=
    ⟨fun listed within => ready.globals _ listed _ within, ready.channel⟩
  have stack : (core.set .stack (machine.labelAddress Label.stackBegin.text)).get .stack =
      above loads.layout.bottom (0 + ([] : List Word).length) := by
    rw [core.get_set_self _ (by decide)]
    exact (above_zero _).symm
  have invoked := carries.invokes fuel entry [] 0 _ _ 1 2 defined stack (Nat.zero_le _) nofun holds
    called
  refine .run pointed rfl (invoked.bind ?_)
  rintro shared after - ⟨-, holds', -⟩
  exact .done holds'.channel

/-- What is known of a source that has been read and lowered. -/
theorem Machine.loads_of_parse {source : String} {events : List Event} {root : Node}
    {options : LoweringOptions} {program : LoweredProgram}
    (parsed : parse source = (.ok root, events)) (names : root.Scoped options.entry)
    (lowered : lowerProgram options root = .ok program)
    (loaded : machine.program = program.instructions)
    (fits : machine.address machine.program.length + room < 2 ^ 32) :
    ∃ items, root = .program items ∧
      machine.Loads options.annotate options.entry items room ∧
      ∀ event ∈ (Node.programOutput options.annotate items).events, event ∈ program.events := by
  obtain ⟨items, rfl, shape⟩ := parse_shape parsed
  obtain ⟨listed, noted⟩ := lowerProgram_eq shape lowered
  exact ⟨items, rfl, ⟨loaded.trans listed, shape, names.procedures, names.globals, fits⟩, noted⟩

end Run

/-- **A lowered program does what its source means.** -/
theorem lowerProgram_agrees {source : String} {events : List Event} {root : Node}
    {options : LoweringOptions} {program : LoweredProgram} {machine : Machine} {room : Nat}
    {input : List Word} {core : Core} (parsed : parse source = (.ok root, events))
    (names : root.Scoped options.entry) (lowered : lowerProgram options root = .ok program)
    (unclamped : Unclamped program.events) (loaded : machine.program = program.instructions)
    (closed : ∀ name, machine.external name = false)
    (fits : machine.address machine.program.length + room < 2 ^ 32)
    (ready : machine.Ready root.globalDeclarations input core)
    (right : ∀ fuel,
      (root.source machine.arithmetic room).run options.entry fuel input ≠ .fault) :
    machine.Agrees ⟨0, core⟩ fun fuel =>
      (root.source machine.arithmetic room).run options.entry fuel input := by
  obtain ⟨items, rfl, loads, noted⟩ := machine.loads_of_parse parsed names lowered loaded fits
  have carries := loads.carries closed (fun event member => unclamped event (noted event member))
    names.resolved
  obtain ⟨-, -, -, -, -, -, stop, -⟩ := loads.start
  exact machine.agrees stop (loads.realizes_run carries names.entry ready) right closed

/-- A program that reads a number into an array and adds up the numbers below it
by recursion. -/
def sumSource : String :=
  "var total;
   proc add(n) begin if n then total := total + n; add(n - 1) end end
   proc main() var seen[2] begin read(seen[1]); add(seen[1]); write(total) end"

/-- The tree of the program. -/
def sumTree : Node :=
  let element : Node := .unary .dereference (.binary .add (.reference "seen") (.constant 1))
  .program [.declarations [⟨"total", 1⟩],
    .procedure ⟨"add", ["n"]⟩ [] (.block [.branch (.reference "n") (.block
      [.assign (.reference "total") (.binary .add (.reference "total") (.reference "n")),
        .call "add" [.binary .sub (.reference "n") (.constant 1)]]) none]),
    .procedure ⟨"main", []⟩ [⟨"seen", 2⟩]
      (.block [.call "read" [element], .call "add" [element], .call "write" [.reference "total"]])]

/-- The lowered program. -/
def sumProgram : LoweredProgram :=
  match lowerProgram .standard sumTree with
  | .ok program => program
  | .error _ => ⟨[], []⟩

/-- A machine that runs the program. -/
def sumMachine : Machine := .alone sumProgram.instructions

/-- Empty registers and an empty memory, and `3` to be read. -/
def sumCore : Core := ⟨fun _ => 0, ⟨fun _ => 0, ⟨[3], []⟩, []⟩⟩

theorem run_sumTree (fuel : Nat) :
    (sumTree.source sumMachine.arithmetic 100).run "main" (fuel + 5) [3] = .done ⟨[], [6]⟩ := by
  cbv

set_option maxRecDepth 4000 in
/-- The sum is read and lowered, and the machine writes `6`. -/
theorem lowerProgram_agrees_sum :
    (parse sumSource).1 = .ok sumTree ∧ sumTree.Scoped "main" ∧
      lowerProgram .standard sumTree = .ok sumProgram ∧
      sumMachine.HaltsWith ⟨0, sumCore⟩ ⟨[], [6]⟩ := by
  have parsed : (parse sumSource).1 = .ok sumTree := by with_unfolding_all rfl
  have names : sumTree.Scoped LoweringOptions.standard.entry :=
    ⟨by decide +kernel, by decide +kernel, by decide +kernel, by decide +kernel⟩
  have unclamped : Unclamped sumProgram.events := by decide +kernel
  have fits : sumMachine.address sumMachine.program.length + 100 < 2 ^ 32 := by decide +kernel
  have ready : sumMachine.Ready sumTree.globalDeclarations [3] sumCore :=
    ⟨fun _ _ _ _ => rfl, rfl⟩
  have right : ∀ fuel, (sumTree.source sumMachine.arithmetic 100).run
      LoweringOptions.standard.entry fuel [3] ≠ .fault
    | 0 | 1 | 2 | 3 | 4 => nofun
    | fuel + 5 => by
        rw [show LoweringOptions.standard.entry = "main" from rfl, run_sumTree]
        nofun
  have agrees := lowerProgram_agrees (Prod.ext parsed rfl) names rfl unclamped rfl (fun _ => rfl)
    fits ready right
  exact ⟨parsed, names, rfl, (agrees.halts _).mpr ⟨5, run_sumTree 0⟩⟩

end ProcLang
