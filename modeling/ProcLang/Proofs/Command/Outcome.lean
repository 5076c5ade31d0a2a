import Mathlib
import ProcLang.Command.Run

/-!
# The outcome of a run

A run is performed step by step, and each step sees what the steps before it have left.
In a world that comes to one of three outcomes: the run fails (`Settings.failure`), it
delivers a text (`Settings.deliver`), or a counter overflows (`Settings.overflowed`).
`Settings.run_eq` says which, from what the input holds and where the output goes.

A failed run leaves the files as they were, though its steps could have changed them:
a file is emptied only after all that can make a run fail, and a sink without space is
no file.
-/

set_option autoImplicit false

namespace ProcLang.Command

/-- The last of two writes to a file counts. -/
theorem Files.write_write (files : Files) (key : List String) (first second : ByteArray) :
    (files.write key first).write key second = files.write key second := by
  simp [Files.write, List.filter_append]

/-- Done before what remains at first, an action gives a value and leaves what remains then. -/
def Leads {α : Type} (action : StateM Remains α) (before : Remains) (value : α)
    (after : Remains) : Prop :=
  action.run before = (value, after)

/-- One action after another. -/
theorem Leads.bind {α β : Type} {action : StateM Remains α} {next : α → StateM Remains β}
    {before middle after : Remains} {value : α} {result : β}
    (first : Leads action before value middle) (second : Leads (next value) middle result after) :
    Leads (action >>= next) before result after := by
  unfold Leads at *
  rw [StateT.run_bind, first]
  exact second

namespace Settings

variable (settings : Settings) (world : World)

/-! ## Outcomes -/

/-- The bytes of the input. -/
def readInput : Except FileFault ByteArray :=
  match settings.input with
  | some path => world.read path
  | none => .ok world.standardInput

/-- Where the output goes. -/
def openOutput : Except FileFault Sink :=
  match settings.output with
  | some path => world.create path
  | none => .ok .standardOutput

/-- A failed run: nothing is written. -/
def failure (diagnostic : Diagnostic) (events : List Event) : RunResult :=
  ⟨exitFailure, "",
    settings.showLog events ++ ErrorStream.ofLine (settings.errorText diagnostic), world.files⟩

/-- A run that writes a text. An empty text fits also where there is no space. -/
def deliver (sink : Sink) (text : String) (events : List Event) : RunResult :=
  let log := settings.showLog events
  match sink with
  | .standardOutput => ⟨exitSuccess, text, log, world.files⟩
  | .standardError => ⟨exitSuccess, "", log ++ ErrorStream.ofChars text.toList, world.files⟩
  | .nowhere => ⟨exitSuccess, "", log, world.files⟩
  | .full =>
      if text.isEmpty then ⟨exitSuccess, "", log, world.files⟩
      else settings.failure world FileFault.noSpace.diagnostic events
  | .file key => ⟨exitSuccess, "", log, world.files.write key text.toUTF8⟩

/-- A run in which a counter left its range: an output file is left empty. -/
def overflowed (sink : Sink) (overflow : Overflow) (events : List Event) : RunResult :=
  ⟨exitOverflow, "", settings.showLog events ++ ErrorStream.ofLine overflow.message,
    sink.opened world.files⟩

/-! ## Steps -/

theorem showLog_append (events more : List Event) :
    settings.showLog (events ++ more) = settings.showLog events ++ settings.showLog more := by
  simp [showLog, Event.keep]

section Steps

variable {settings : Settings} {world : World} {log : ErrorStream} {files : Files}

theorem leads_report (stream : ErrorStream) :
    Leads (world.surroundings.report stream) ⟨"", log, files⟩ () ⟨"", log ++ stream, files⟩ :=
  rfl

theorem leads_fail (diagnostic : Diagnostic) :
    Leads (settings.fail world.surroundings diagnostic) ⟨"", log, files⟩ exitFailure
      ⟨"", log ++ ErrorStream.ofLine (settings.errorText diagnostic), files⟩ :=
  rfl

theorem leads_fetchInput :
    Leads (settings.fetchInput world.surroundings) ⟨"", log, world.files⟩
      (settings.readInput world) ⟨"", log, world.files⟩ := by
  unfold fetchInput readInput
  cases settings.input <;> rfl

theorem leads_openSink_of_error {fault : FileFault}
    (failed : settings.openOutput world = .error fault) :
    Leads (settings.openSink world.surroundings) ⟨"", log, world.files⟩ (.error fault)
      ⟨"", log, world.files⟩ := by
  unfold openOutput at failed
  unfold openSink
  cases asked : settings.output with
  | none => simp [asked] at failed
  | some path =>
      simp only [asked] at failed
      show world.openFile path ⟨"", log, world.files⟩ = _
      simp only [World.openFile, failed]

/-- Opening a sink empties a file. -/
theorem leads_openSink_of_ok {sink : Sink} (opened : settings.openOutput world = .ok sink) :
    Leads (settings.openSink world.surroundings) ⟨"", log, world.files⟩ (.ok sink)
      ⟨"", log, sink.opened world.files⟩ := by
  unfold openOutput at opened
  unfold openSink
  cases asked : settings.output with
  | none =>
      simp only [asked, Except.ok.injEq] at opened
      subst opened
      rfl
  | some path =>
      simp only [asked] at opened
      show world.openFile path ⟨"", log, world.files⟩ = _
      simp only [World.openFile, opened]

variable {sink : Sink} {tree : Node} {text : String} {more : List Event}

theorem leads_write {before after : Remains} {outcome : Except FileFault Unit}
    (wrote : sink.write text before = (outcome, after)) :
    Leads (world.surroundings.write sink text) before outcome after :=
  wrote

theorem leads_emit_of_overflow {overflow : Overflow}
    (failed : settings.render tree = .error overflow) :
    Leads (settings.emit world.surroundings sink tree) ⟨"", log, files⟩ exitOverflow
      ⟨"", log ++ ErrorStream.ofLine overflow.message, files⟩ := by
  unfold emit
  rw [failed]
  exact (leads_report _).bind rfl

theorem leads_emit_of_written {remains : Remains}
    (rendered : settings.render tree = .ok (text, more))
    (written : sink.write text ⟨"", log ++ settings.showLog more, files⟩ = (.ok (), remains)) :
    Leads (settings.emit world.surroundings sink tree) ⟨"", log, files⟩ exitSuccess remains := by
  unfold emit
  rw [rendered]
  exact (leads_report _).bind ((leads_write written).bind rfl)

theorem leads_emit_of_refused {fault : FileFault}
    (rendered : settings.render tree = .ok (text, more))
    (refused : sink.write text ⟨"", log ++ settings.showLog more, files⟩ =
      (.error fault, ⟨"", log ++ settings.showLog more, files⟩)) :
    Leads (settings.emit world.surroundings sink tree) ⟨"", log, files⟩ exitFailure
      ⟨"", log ++ settings.showLog more ++ ErrorStream.ofLine (settings.errorText fault.diagnostic),
        files⟩ := by
  unfold emit
  rw [rendered]
  exact (leads_report _).bind ((leads_write refused).bind (leads_fail _))

/-- A sink takes the text, or there is no space and the run fails after all. -/
theorem of_run_emit {events : List Event} (rendered : settings.render tree = .ok (text, more)) :
    RunResult.of ((settings.emit world.surroundings sink tree).run
      ⟨"", settings.showLog events, sink.opened world.files⟩) =
      settings.deliver world sink text (events ++ more) := by
  simp only [deliver, failure, showLog_append]
  cases sink with
  | standardOutput | standardError | nowhere =>
      rw [leads_emit_of_written rendered rfl]
      rfl
  | full =>
      by_cases empty : text.isEmpty
      · rw [leads_emit_of_written rendered (by rw [Sink.write, if_pos empty])]
        simp only [empty, if_true]
        rfl
      · rw [leads_emit_of_refused rendered (by rw [Sink.write, if_neg empty])]
        simp only [empty]
        rfl
  | file key =>
      rw [leads_emit_of_written rendered rfl]
      show RunResult.mk _ _ _ ((world.files.write key ByteArray.empty).write key text.toUTF8) = _
      rw [Files.write_write]

/-- What is left in a world after a run, from where the run leads. -/
theorem run_of_leads {code : Nat} {remains : Remains}
    (leads : Leads (settings.perform world.surroundings) ⟨"", [], world.files⟩ code remains) :
    settings.run world = .of (code, remains) := by
  rw [run, World.after, leads]

section Built

variable {events : List Event}

theorem run_of_rejected {diagnostic : Diagnostic}
    (rejected : settings.buildTree (settings.readInput world) = (.error diagnostic, events)) :
    settings.run world = settings.failure world diagnostic events := by
  have leads : Leads (settings.perform world.surroundings) ⟨"", [], world.files⟩ exitFailure
      ⟨"", settings.showLog events ++ ErrorStream.ofLine (settings.errorText diagnostic),
        world.files⟩ := by
    refine leads_fetchInput.bind ?_
    rw [rejected]
    exact (leads_report _).bind (leads_fail _)
  exact run_of_leads leads

variable (built : settings.buildTree (settings.readInput world) = (.ok tree, events))

include built

theorem run_of_unopened {fault : FileFault} (failed : settings.openOutput world = .error fault) :
    settings.run world = settings.failure world fault.diagnostic events := by
  have leads : Leads (settings.perform world.surroundings) ⟨"", [], world.files⟩ exitFailure
      ⟨"", settings.showLog events ++ ErrorStream.ofLine (settings.errorText fault.diagnostic),
        world.files⟩ := by
    refine leads_fetchInput.bind ?_
    rw [built]
    exact (leads_report _).bind ((leads_openSink_of_error failed).bind (leads_fail _))
  exact run_of_leads leads

theorem run_of_opened (opened : settings.openOutput world = .ok sink) :
    settings.run world = .of ((settings.emit world.surroundings sink tree).run
      ⟨"", settings.showLog events, sink.opened world.files⟩) := by
  refine run_of_leads (leads_fetchInput.bind ?_)
  rw [built]
  exact (leads_report _).bind ((leads_openSink_of_ok opened).bind rfl)

end Built

end Steps

/-- **How a run comes out.** It fails if the input has no tree or the output cannot be
opened. Else it delivers the text for the tree, unless a counter overflows. -/
theorem run_eq (settings : Settings) (world : World) :
    settings.run world =
      match settings.buildTree (settings.readInput world) with
      | (.error diagnostic, events) => settings.failure world diagnostic events
      | (.ok tree, events) =>
          match settings.openOutput world with
          | .error fault => settings.failure world fault.diagnostic events
          | .ok sink =>
              match settings.render tree with
              | .error overflow => settings.overflowed world sink overflow events
              | .ok (text, more) => settings.deliver world sink text (events ++ more) := by
  rcases built : settings.buildTree (settings.readInput world) with ⟨diagnostic | tree, events⟩
  · exact run_of_rejected built
  · cases opened : settings.openOutput world with
    | error fault => exact run_of_unopened built opened
    | ok sink =>
        rw [run_of_opened built opened]
        rcases rendered : settings.render tree with overflow | ⟨text, more⟩ <;>
          simp only [rendered]
        · rw [leads_emit_of_overflow rendered]
          rfl
        · exact of_run_emit rendered

end Settings

/-- Arguments that ask for a compilation have it run. -/
theorem run_of_compile {arguments : List String} {settings : Settings}
    (asked : parseArguments arguments = .ok (.compile settings)) (world : World) :
    run arguments world = settings.run world := by
  unfold run perform
  rw [asked]
  rfl

end ProcLang.Command
