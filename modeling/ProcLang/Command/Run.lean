import ProcLang.Command.Arguments
import ProcLang.Command.ErrorStream
import ProcLang.Command.Files
import ProcLang.Grammar.Program
import ProcLang.Lowering.Program
import ProcLang.Syntax.Interchange
import ProcLang.Syntax.Outline

/-!
# Runs of the command

A run reads its input, builds the tree of the program, makes sure of its
output, and writes one result there. It stops at the first failure, with the
diagnostic on the error stream and without having written anything.

The two stages of a run, from the input to the tree (`buildTree`) and from the
tree to the text (`render`), touch nothing outside. `perform` puts them together,
one effect after the other, in any surroundings that can be read from and written
to. A `World` is such surroundings, and `run` gives what is left there in the end.

The output is opened after the tree is built and before it is rendered, so a
program that is refused leaves an existing output file as it was.
-/

set_option autoImplicit false

namespace ProcLang.Command

/-- The name and the version of the command. -/
def versionText : String := "plc 0.1.0\n"

/-- How the command is used. -/
def usageText : String :=
  "Usage: plc [OPTIONS] [INPUT]\n\n" ++
  "  -o, --output <OUTPUT>  Output file (stdout when omitted)\n" ++
  "      --emit <EMIT>      What to produce: asm, tree or json\n" ++
  "      --entry <ENTRY>    Procedure called at program start\n" ++
  "      --annotate         Comment frame sizes and call sites in the assembly\n" ++
  "      --from-json        Input is a JSON syntax tree instead of source text\n" ++
  "  -v, --verbose...       Increase log verbosity\n" ++
  "  -h, --help             Print help\n" ++
  "  -V, --version          Print version\n"

/-- What is reported of arguments that are refused. -/
def refusal (fault : UsageFault) : ErrorStream :=
  ErrorStream.ofLine ("error: " ++ fault.message) ++ ErrorStream.ofChars usageText.toList

/-- The fault of a file as it is reported. -/
def FileFault.diagnostic (fault : FileFault) : Diagnostic :=
  .environment fault.message

namespace Settings

/-- How much of the log is shown. -/
def level (settings : Settings) : Level :=
  match settings.verbosity with
  | 0 => .warn
  | 1 => .info
  | 2 => .debug
  | _ => .trace

/-- The tree of the input, and what was logged on the way. -/
def buildTree (settings : Settings) (input : Except FileFault ByteArray) :
    Except Diagnostic Node × List Event :=
  match input.bind decodeText with
  | .error fault => (.error fault.diagnostic, [])
  | .ok text =>
      let (tree, events) :=
        if settings.fromJson then (Node.ofJsonText text, []) else parse text
      match tree with
      | .ok tree => (.ok tree, events ++ [.treeBuilt])
      | .error diagnostic => (.error diagnostic, events)

/-- What is asked of lowering. -/
def loweringOptions (settings : Settings) : LoweringOptions :=
  ⟨settings.entry, settings.annotate⟩

/-- The text to be written for a tree, and what was logged on the way. -/
def render (settings : Settings) (tree : Node) : Except Overflow (String × List Event) :=
  match settings.emission with
  | .outline => .ok (tree.outlineText, [])
  | .json => .ok (tree.jsonText ++ "\n", [])
  | .assembly =>
      match lowerProgram settings.loweringOptions tree with
      | .error overflow => .error overflow
      | .ok lowered =>
          .ok (listing lowered.instructions,
            lowered.events ++ [.emitting lowered.instructions.length])

/-- A diagnostic as it is shown: after the input path, if there is one. -/
def errorText (settings : Settings) (diagnostic : Diagnostic) : String :=
  match settings.input with
  | some path => path ++ ": " ++ diagnostic.text
  | none => diagnostic.text

end Settings

/-- The part of a log that is shown, as it is written to the error stream. -/
def Settings.showLog (settings : Settings) (events : List Event) : ErrorStream :=
  (Event.keep settings.level events).flatMap Event.record

/-- The exit code of a run that was asked for and done. -/
def exitSuccess : Nat := 0

/-- The exit code of a run that failed. -/
def exitFailure : Nat := 1

/-- The exit code for arguments that are refused. -/
def exitUsage : Nat := 2

/-- The exit code of a run in which a counter left its range. -/
def exitOverflow : Nat := 101

/-! ## Effects -/

/-- What a run can do outside itself. A sink is something to write to. -/
structure Surroundings (m : Type → Type) (σ : Type) where
  readFile : String → m (Except FileFault ByteArray)
  readStandardInput : m (Except FileFault ByteArray)
  /-- Make a file, or empty it, to write to it. -/
  create : String → m (Except FileFault σ)
  openStandardOutput : m (Except FileFault σ)
  write : σ → String → m (Except FileFault Unit)
  /-- Put a text on the standard output. -/
  print : String → m Unit
  /-- Put something on the error stream. -/
  report : ErrorStream → m Unit

section Perform

variable {m : Type → Type} [Monad m] {σ : Type} (outside : Surroundings m σ)

namespace Settings

variable (settings : Settings)

/-- Read the input. -/
def fetchInput : m (Except FileFault ByteArray) :=
  match settings.input with
  | some path => outside.readFile path
  | none => outside.readStandardInput

/-- Open the output. -/
def openSink : m (Except FileFault σ) :=
  match settings.output with
  | some path => outside.create path
  | none => outside.openStandardOutput

/-- Fail with a diagnostic. -/
def fail (diagnostic : Diagnostic) : m Nat := do
  outside.report (ErrorStream.ofLine (settings.errorText diagnostic))
  return exitFailure

/-- Write the text for a tree to an open output. -/
def emit (sink : σ) (tree : Node) : m Nat := do
  match settings.render tree with
  | .error overflow =>
      outside.report (ErrorStream.ofLine overflow.message)
      return exitOverflow
  | .ok (text, events) =>
      outside.report (settings.showLog events)
      match ← outside.write sink text with
      | .error fault => settings.fail outside fault.diagnostic
      | .ok () => return exitSuccess

/-- Compile a program. -/
def perform : m Nat := do
  let (tree, events) := settings.buildTree (← settings.fetchInput outside)
  outside.report (settings.showLog events)
  match tree with
  | .error diagnostic => settings.fail outside diagnostic
  | .ok tree =>
      match ← settings.openSink outside with
      | .error fault => settings.fail outside fault.diagnostic
      | .ok sink => settings.emit outside sink tree

end Settings

/-- Run the command in its surroundings, and give its exit code. -/
def perform (arguments : List String) : m Nat := do
  match parseArguments arguments with
  | .error fault =>
      outside.report (refusal fault)
      return exitUsage
  | .ok .version =>
      outside.print versionText
      return exitSuccess
  | .ok .help =>
      outside.print usageText
      return exitSuccess
  | .ok (.compile settings) => settings.perform outside

end Perform

/-! ## Runs in a world -/

/-- What a run leaves of the streams and the files. -/
structure Remains where
  standardOutput : String
  errorStream : ErrorStream
  files : Files
  deriving DecidableEq

namespace Sink

/-- The files after a sink was opened. -/
def opened (sink : Sink) (files : Files) : Files :=
  match sink with
  | .file key => files.write key ByteArray.empty
  | _ => files

/-- Write a text to a sink. An empty text fits also where there is no space. -/
def write (sink : Sink) (text : String) (remains : Remains) : Except FileFault Unit × Remains :=
  match sink with
  | .standardOutput => (.ok (), { remains with standardOutput := remains.standardOutput ++ text })
  | .standardError =>
      (.ok (), { remains with errorStream := remains.errorStream ++ .ofChars text.toList })
  | .nowhere => (.ok (), remains)
  | .full => (if text.isEmpty then .ok () else .error .noSpace, remains)
  | .file key => (.ok (), { remains with files := remains.files.write key text.toUTF8 })

end Sink

namespace World

/-- Open a file to write to it. -/
def openFile (world : World) (path : String) (remains : Remains) :
    Except FileFault Sink × Remains :=
  match World.create { world with files := remains.files } path with
  | .error fault => (.error fault, remains)
  | .ok sink => (.ok sink, { remains with files := sink.opened remains.files })

/-- A world as surroundings. -/
def surroundings (world : World) : Surroundings (StateM Remains) Sink where
  readFile path := return World.read { world with files := (← get).files } path
  readStandardInput := return .ok world.standardInput
  create path := modifyGet (world.openFile path)
  openStandardOutput := return .ok .standardOutput
  write sink text := modifyGet (sink.write text)
  print text := modify fun remains =>
    { remains with standardOutput := remains.standardOutput ++ text }
  report stream := modify fun remains =>
    { remains with errorStream := remains.errorStream ++ stream }

end World

/-- What a run leaves. -/
structure RunResult where
  exitCode : Nat
  standardOutput : String
  errorStream : ErrorStream
  files : Files
  deriving DecidableEq

/-- The result with an exit code and what remains. -/
def RunResult.of (ended : Nat × Remains) : RunResult :=
  ⟨ended.1, ended.2.standardOutput, ended.2.errorStream, ended.2.files⟩

/-- What is left in a world after something was done there. -/
def World.after (world : World) (action : StateM Remains Nat) : RunResult :=
  .of (action.run ⟨"", [], world.files⟩)

/-- Compile a program. -/
def Settings.run (settings : Settings) (world : World) : RunResult :=
  world.after (settings.perform world.surroundings)

/-- Run the command. -/
def run (arguments : List String) (world : World) : RunResult :=
  world.after (perform world.surroundings arguments)

end ProcLang.Command
