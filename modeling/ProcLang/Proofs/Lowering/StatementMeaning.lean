import ProcLang.Proofs.Assembly.Label
import ProcLang.Proofs.Lowering.FlatMeaning
import ProcLang.Proofs.Semantics.Statement

/-!
# Lowered statements

The code of a statement that calls no procedure does exactly what the natural
semantics says (`Node.Statement.path_iff_executes`), whatever the memory holds and
wherever pointers lead.
-/

set_option autoImplicit false

namespace ProcLang

namespace Node

variable {node : Node}

theorem Plain.generalCalls_eq (plain : node.Plain) : node.generalCalls = [] := by
  induction plain with
  | constant value => rfl
  | reference name => rfl
  | unary op _ ih => exact ih
  | binary op _ _ ih ih' => rw [generalCalls, ih, ih', List.append_nil]

theorem Statement.generalCalls_eq (statement : node.Statement) : node.generalCalls = [] := by
  induction statement with
  | block all ih =>
      rw [generalCalls, List.eq_nil_iff_forall_not_mem]
      intro call member
      obtain ⟨statement, member, listed⟩ := mem_generalCallsAll.mp member
      rw [ih statement member] at listed
      cases listed
  | assign plain plain' =>
      rw [generalCalls, plain.generalCalls_eq, plain'.generalCalls_eq, List.append_nil]
  | branch plain _ ih => rw [generalCalls, plain.generalCalls_eq, ih, List.append_nil]
  | branchElse plain _ _ ih ih' =>
      rw [generalCalls, plain.generalCalls_eq, ih, ih', List.append_nil, List.append_nil]
  | loop plain _ ih => rw [generalCalls, plain.generalCalls_eq, ih, List.append_nil]
  | read known plain => rw [generalCalls_intrinsic _ _ known, plain.generalCalls_eq]
  | write known plain => rw [generalCalls_intrinsic _ _ known, plain.generalCalls_eq]

/-- Wherever it stands, the code of a statement realizes the meaning of the
statement. -/
theorem Statement.realizes (statement : node.Statement) {before : Context}
    {emitted : Emitted Unit} (lowered : node.lower.effect.run before = .ok emitted)
    (level : before.pushed = 0) (unclamped : Unclamped emitted.output.events) {watch : Watch}
    {core : Core} (touch : ∀ state, watch.machine.Touches (core.get .stack) state → watch.bad state)
    {start finish : Nat} (spans : watch.Spans start emitted.output.code finish) (fuel : Nat) :
    watch.Realizes fuel start finish core
      ((node.meaning (watch.machine.setting before.resolve (core.get .stack) (core.get .link))
        fuel).effect 0 core.world)
      fun state after => core.Same Register.scratchBase after ∧ state = after.world := by
  have outside : watch.machine.Outside node.generalCalls := by
    rw [statement.generalCalls_eq]
    exact nofun
  have stands : (watch.machine.setting before.resolve (core.get .stack) (core.get .link)).Stands
      before.pushed core := by
    rw [level]
    exact ⟨(above_zero _).symm, rfl⟩
  have does := lower_effect_does fuel touch outside lowered (by omega) unclamped stands start finish
    spans
  rw [level] at does
  exact does.imp fun state after _ holds => ⟨holds.1, holds.2.1⟩

/-- **The code of a statement does what the statement does.** It arrives just
after its end in exactly those worlds to which the statement executes, where the
top of the frame is the stack register; it leaves the stack and the link register
as they were; and before it arrives it never leaves the code. -/
theorem Statement.path_iff_executes (statement : node.Statement) {before : Context}
    {emitted : Emitted Unit} (lowered : node.lower.effect.run before = .ok emitted)
    (level : before.pushed = 0) (unclamped : Unclamped emitted.output.events) {machine : Machine}
    {front back : List Instruction}
    (placed : machine.program = front ++ emitted.output.code ++ back)
    (once : ∀ name ∈ definedLabels emitted.output.code,
      machine.program.count (.label name) = 1) (core : Core) :
    let start := front.length
    let finish := front.length + emitted.output.code.length
    let inside (position : Nat) := start ≤ position ∧ position < finish
    let setting := machine.setting before.resolve (core.get .stack) (core.get .link)
    (∀ world, (∃ count after, machine.Path inside count ⟨start, core⟩ ⟨finish, after⟩ ∧
      after.world = world) ↔ node.Executes setting core.world world) ∧
    (∀ count after, machine.Path inside count ⟨start, core⟩ ⟨finish, after⟩ →
      after.get .stack = core.get .stack ∧ after.get .link = core.get .link) ∧
    ∀ count state, machine.steps count ⟨start, core⟩ = some state →
      machine.Path inside count ⟨start, core⟩ state ∧ inside state.position ∨
        ∃ fewer, fewer ≤ count ∧ ∃ after,
          machine.Path inside fewer ⟨start, core⟩ ⟨finish, after⟩ := by
  intro start finish inside setting
  let watch : Watch := ⟨machine, inside, machine.Touches (core.get .stack)⟩
  have spans : watch.Spans start emitted.output.code finish :=
    Watch.spans_of_placed placed (fun position late early => ⟨late, early⟩) fun name member =>
      once name (mem_definedLabels.mpr member)
  have realizes := statement.realizes lowered level unclamped (fun _ touches => touches) spans
  have ensures := fun fuel => statement.ensures setting fuel core.world
  have left : ¬inside finish := fun both => Nat.lt_irrefl _ both.2
  have arrives : ∀ count after, machine.Path inside count ⟨start, core⟩ ⟨finish, after⟩ →
      core.Same Register.scratchBase after ∧ node.Executes setting core.world after.world := by
    intro count after path
    obtain ⟨world, done, same, rfl⟩ :=
      (realizes (count + 1)).done_of_path (ensures _).ne_fault left path
    have executes := ensures (count + 1)
    rw [done] at executes
    exact ⟨same, executes⟩
  refine ⟨fun world => ⟨?_, ?_⟩, ?_, ?_⟩
  · rintro ⟨count, after, path, rfl⟩
    exact (arrives count after path).2
  · intro executes
    obtain ⟨fuel, done⟩ := statement.exists_done executes
    have realizes := realizes fuel
    rw [done fuel (Nat.le_refl _)] at realizes
    obtain ⟨count, after, path, -, same⟩ := realizes
    exact ⟨count, after, path, same.symm⟩
  · intro count after path
    have same := (arrives count after path).1
    exact ⟨same.stack (Nat.le_refl _), same.link (Nat.le_refl _)⟩
  · intro count state taken
    exact (realizes (count + 1)).inside_or_arrived (ensures _).ne_fault taken

/-- `read(p); while (p) {*p = 7; p = p - 1} write(*1)` -/
def pointerLoop : Node :=
  .block [.call "read" [.reference "p"],
    .loop (.reference "p") (.block [
      .assign (.unary .dereference (.reference "p")) (.constant 7),
      .assign (.reference "p") (.binary .sub (.reference "p") (.constant 1))]),
    .call "write" [.unary .dereference (.constant 1)]]

/-- A procedure whose only local is `p`. -/
def pointerContext : Context :=
  { Context.initial false with scope := ⟨[⟨"p", 1⟩], []⟩ }

theorem pointerLoop_executes {setting : Setting}
    (found : setting.resolve "p" = .frameLocal 1 1) (top : setting.top = 100) :
    ∃ world, pointerLoop.Executes setting ⟨fun _ => 0, ⟨[1], []⟩, []⟩ world ∧
      world.channel = ⟨[], [7]⟩ := by
  have place : setting.address "p" = 99 := by
    simp only [Setting.address, found, top]
    decide
  have scalar : (setting.resolve "p").isArray = false := by
    rw [found]
    rfl
  refine ⟨_, .cons (.read rfl rfl) (.cons (.round ?_ (.cons .assign (.cons .assign .nil))
    (.leave ?_)) (.cons (.write rfl) .nil)), ?_⟩
  all_goals simp [evaluate, locate, place, scalar, World.store, World.write, Arithmetic.binary]

/-- The loop stores through the pointer that was read, and the word is found
there. -/
theorem Statement.path_iff_executes_pointer :
    ∃ emitted, pointerLoop.lower.effect.run pointerContext = .ok emitted ∧
      ∃ count after, (Machine.alone (.comment "start" :: emitted.output.code)).Path
        (fun position => 1 ≤ position ∧ position < 1 + emitted.output.code.length) count
        ⟨1, ⟨fun _ => 100, ⟨fun _ => 0, ⟨[1], []⟩, []⟩⟩⟩
        ⟨1 + emitted.output.code.length, after⟩ ∧ after.world.channel = ⟨[], [7]⟩ := by
  obtain ⟨emitted, ran, unclamped, once⟩ :
      ∃ emitted, pointerLoop.lower.effect.run pointerContext = .ok emitted ∧
        Unclamped emitted.output.events ∧ ∀ name ∈ definedLabels emitted.output.code,
          (.comment "start" :: emitted.output.code).count (.label name) = 1 :=
    ⟨_, rfl, by decide, by decide +kernel⟩
  have pointer : Plain (.reference "p") := .reference "p"
  have statement : pointerLoop.Statement := by
    refine .block ?_
    simp only [List.forall_mem_cons]
    refine ⟨.read rfl pointer, .loop pointer (.block ?_),
      .write rfl (.unary _ (.constant 1)), nofun⟩
    simp only [List.forall_mem_cons]
    exact ⟨.assign (.unary _ pointer) (.constant 7),
      .assign pointer (.binary _ pointer (.constant 1)), nofun⟩
  have placed : (Machine.alone (.comment "start" :: emitted.output.code)).program =
      [.comment "start"] ++ emitted.output.code ++ [] := by
    rw [List.append_nil]
    rfl
  obtain ⟨runs, -, -⟩ := statement.path_iff_executes ran rfl unclamped placed once
    ⟨fun _ => 100, ⟨fun _ => 0, ⟨[1], []⟩, []⟩⟩
  have found : pointerContext.resolve "p" = .frameLocal 1 1 := by decide
  obtain ⟨world, executes, channel⟩ := @pointerLoop_executes
    ((Machine.alone (.comment "start" :: emitted.output.code)).setting pointerContext.resolve 100
      100)
    found rfl
  obtain ⟨count, after, path, rfl⟩ := (runs world).mpr executes
  exact ⟨emitted, ran, count, after, path, channel⟩

end Node

end ProcLang
