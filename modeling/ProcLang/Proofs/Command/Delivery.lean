import ProcLang.Proofs.Command.Files
import ProcLang.Proofs.Command.JsonRoute

/-!
# What a run leaves behind

A run reads the whole input and builds its tree before it opens the output, and it
opens the output before it writes. So what prevents a run (`Settings.Prevented`) shows
before anything is written, and a run that is not prevented writes one text to one
place (`Sink.Receives`). The output may be the file that the input came from.

A run has three ways to end, and `Settings.run_cases` says when it takes each. The
third one, in which a counter overflows while the program is lowered, takes a tree of
at least `2 ^ 31` nodes.
-/

set_option autoImplicit false

namespace ProcLang.Command

namespace Settings

variable {settings : Settings} {world : World} {tree : Node} {sink : Sink}

/-! ## What a run is about -/

/-- The tree that the front end makes of a text. -/
def treeOf (settings : Settings) (text : String) : Except Diagnostic Node :=
  if settings.fromJson then Node.ofJsonText text else (parse text).1

/-- The input is a text, and the front end makes a tree of it. -/
def HasTree (settings : Settings) (world : World) (tree : Node) : Prop :=
  ∃ bytes text, settings.readInput world = .ok bytes ∧ String.fromUTF8? bytes = some text ∧
    settings.treeOf text = .ok tree

/-- Why a run cannot do what it is asked to. -/
inductive Prevented (settings : Settings) (world : World) : Prop
  | unreadable {fault : FileFault} (failed : settings.readInput world = .error fault)
  | notText {bytes : ByteArray} (read : settings.readInput world = .ok bytes)
      (invalid : String.fromUTF8? bytes = none)
  | rejected {bytes : ByteArray} {text : String} {diagnostic : Diagnostic}
      (read : settings.readInput world = .ok bytes) (decoded : String.fromUTF8? bytes = some text)
      (failed : settings.treeOf text = .error diagnostic)
  | uncreatable {path : String} {fault : FileFault} (asked : settings.output = some path)
      (failed : world.create path = .error fault)

/-- What is written for a tree. -/
inductive Writes (settings : Settings) (tree : Node) : String → Prop
  | outline (asked : settings.emission = .outline) : Writes settings tree tree.outlineText
  | json (asked : settings.emission = .json) : Writes settings tree (tree.jsonText ++ "\n")
  | assembly {program : LoweredProgram} (asked : settings.emission = .assembly)
      (lowered : lowerProgram ⟨settings.entry, settings.annotate⟩ tree = .ok program) :
      Writes settings tree (listing program.instructions)

/-- What a run writes to its output is taken there. -/
def Writable (settings : Settings) (world : World) : Prop :=
  ∀ tree text, settings.HasTree world tree → settings.Writes tree text →
    settings.openOutput world = .ok .full → text = ""

end Settings

/-- A run has ended well, and of all it can leave a text at, one sink alone has got the
text. The log goes to the error stream, whatever the sink is. -/
inductive Sink.Receives (text : String) (world : World) (log : ErrorStream) :
    Sink → RunResult → Prop
  | standardOutput : Receives text world log .standardOutput ⟨0, text, log, world.files⟩
  | standardError : Receives text world log .standardError
      ⟨0, "", log ++ ErrorStream.ofChars text.toList, world.files⟩
  | nowhere : Receives text world log .nowhere ⟨0, "", log, world.files⟩
  | full (nothing : text = "") : Receives text world log .full ⟨0, "", log, world.files⟩
  | file {key : List String} {files : Files}
      (written : files.entry? key = some (.file text.toUTF8))
      (others : ∀ other, other ≠ key → files.entry? other = world.files.entry? other)
      (directories : files.directories = world.files.directories)
      (links : files.links = world.files.links) (refusals : files.refusals = world.files.refusals) :
      Receives text world log (.file key) ⟨0, "", log, files⟩

theorem Sink.Receives.exitCode_eq {text : String} {world : World} {log : ErrorStream} {sink : Sink}
    {result : RunResult} (receives : sink.Receives text world log result) :
    result.exitCode = 0 := by
  cases receives <;> rfl

namespace Settings

variable {settings : Settings} {world : World} {tree : Node} {sink : Sink}

/-! ## The stages of a run -/

theorem toUTF8_of_fromUTF8? {bytes : ByteArray} {text : String}
    (decoded : String.fromUTF8? bytes = some text) : text.toUTF8 = bytes := by
  unfold String.fromUTF8? at decoded
  split at decoded
  next =>
    cases decoded
    rfl
  next => cases decoded

/-- The first stage ends with the tree of the input, or what prevents the run is known. -/
theorem buildTree_cases (settings : Settings) (world : World) :
    (∃ tree, settings.HasTree world tree ∧
      (settings.buildTree (settings.readInput world)).1 = .ok tree) ∨
    settings.Prevented world ∧ ∃ diagnostic,
      (settings.buildTree (settings.readInput world)).1 = .error diagnostic := by
  cases read : settings.readInput world with
  | error fault => exact .inr ⟨.unreadable read, fault.diagnostic, rfl⟩
  | ok bytes =>
      cases decoded : String.fromUTF8? bytes with
      | none =>
          refine .inr ⟨.notText read decoded, FileFault.notText.diagnostic, ?_⟩
          simp [buildTree, Except.bind, decodeText, decoded]
      | some text =>
          obtain rfl := toUTF8_of_fromUTF8? decoded
          rw [buildTree_toUTF8]
          cases made : settings.treeOf text with
          | error diagnostic => exact .inr ⟨.rejected read decoded made, diagnostic, made⟩
          | ok tree => exact .inl ⟨tree, ⟨_, text, read, decoded, made⟩, made⟩

theorem openOutput_cases (settings : Settings) (world : World) :
    (∃ sink, settings.openOutput world = .ok sink) ∨
      settings.Prevented world ∧ ∃ fault, settings.openOutput world = .error fault := by
  unfold openOutput
  split
  next path asked =>
    cases opened : world.create path with
    | ok sink => exact .inl ⟨sink, rfl⟩
    | error fault => exact .inr ⟨.uncreatable asked opened, fault, rfl⟩
  next => exact .inl ⟨_, rfl⟩

/-- The text for a tree is there, unless a counter overflows. -/
theorem render_cases (settings : Settings) (tree : Node) :
    (∃ text more, settings.Writes tree text ∧ settings.render tree = .ok (text, more)) ∨
      settings.emission = .assembly ∧ ∃ overflow,
        lowerProgram settings.loweringOptions tree = .error overflow ∧
          settings.render tree = .error overflow := by
  unfold render
  split
  next asked => exact .inl ⟨_, _, .outline asked, rfl⟩
  next asked => exact .inl ⟨_, _, .json asked, rfl⟩
  next asked =>
    split
    next overflow failed => exact .inr ⟨asked, overflow, failed, rfl⟩
    next program lowered => exact .inl ⟨_, _, .assembly asked lowered, rfl⟩

/-- There is one tree at most. -/
theorem HasTree.unique {tree' : Node} (built : settings.HasTree world tree)
    (built' : settings.HasTree world tree') : tree = tree' := by
  obtain ⟨bytes, text, read, decoded, made⟩ := built
  obtain ⟨bytes', text', read', decoded', made'⟩ := built'
  obtain rfl := Except.ok.inj (read.symm.trans read')
  obtain rfl := Option.some.inj (decoded.symm.trans decoded')
  exact Except.ok.inj (made.symm.trans made')

/-- What prevents a run leaves it without a tree or without an output. -/
theorem HasTree.not_prevented (built : settings.HasTree world tree)
    (opened : settings.openOutput world = .ok sink) : ¬ settings.Prevented world := by
  obtain ⟨bytes, text, read, decoded, made⟩ := built
  rintro (failed | ⟨read', invalid⟩ | ⟨read', decoded', failed⟩ | ⟨asked, failed⟩)
  · rw [read] at failed
    cases failed
  · rw [read] at read'
    cases read'
    rw [decoded] at invalid
    cases invalid
  · rw [read] at read'
    cases read'
    rw [decoded] at decoded'
    cases decoded'
    rw [made] at failed
    cases failed
  · rw [openOutput, asked] at opened
    simp only [failed] at opened
    cases opened

/-- **How a run ends.** It is prevented and fails; or it has a tree and an output, and
then it delivers the text for the tree, or a counter overflows on the way to the text. -/
theorem run_cases (settings : Settings) (world : World) :
    (settings.Prevented world ∧ ∃ diagnostic events,
      settings.run world = settings.failure world diagnostic events) ∨
    ∃ tree sink, settings.HasTree world tree ∧ settings.openOutput world = .ok sink ∧
      ((∃ text events, settings.Writes tree text ∧
          settings.run world = settings.deliver world sink text events) ∨
        ∃ overflow events, settings.emission = .assembly ∧
          lowerProgram settings.loweringOptions tree = .error overflow ∧
          settings.run world = settings.overflowed world sink overflow events) := by
  rw [run_eq]
  rcases whole : settings.buildTree (settings.readInput world) with ⟨outcome, events⟩
  have first := settings.buildTree_cases world
  rw [whole] at first
  rcases first with ⟨tree, built, rfl⟩ | ⟨prevented, diagnostic, rfl⟩
  · rcases settings.openOutput_cases world with ⟨sink, opened⟩ | ⟨prevented, fault, opened⟩
    · refine .inr ⟨tree, sink, built, opened, ?_⟩
      simp only [opened]
      rcases settings.render_cases tree with
        ⟨text, more, writes, rendered⟩ | ⟨asked, overflow, failed, rendered⟩
      · simp only [rendered]
        exact .inl ⟨text, _, writes, rfl⟩
      · simp only [rendered]
        exact .inr ⟨overflow, events, asked, failed, rfl⟩
    · simp only [opened]
      exact .inl ⟨prevented, _, _, rfl⟩
  · exact .inl ⟨prevented, _, _, rfl⟩

/-- A delivered text is received, where writing succeeds. -/
theorem receives_deliver (world : World) {text : String} (taken : sink = .full → text = "")
    (events : List Event) :
    sink.Receives text world (settings.showLog events)
      (settings.deliver world sink text events) := by
  cases sink with
  | standardOutput => exact .standardOutput
  | standardError => exact .standardError
  | nowhere => exact .nowhere
  | full =>
      obtain rfl := taken rfl
      exact .full rfl
  | file key =>
      exact .file (Files.entry?_write_self _ _ _)
        (fun _ different => Files.entry?_write_of_ne _ _ different) rfl rfl rfl

/-- What was delivered to a file is read back from its path. -/
theorem read_deliver {text path : String} {key : List String} (asked : settings.output = some path)
    (opened : settings.openOutput world = .ok (.file key)) (events : List Event) :
    World.read
      { world with files := (settings.deliver world (.file key) text events).files } path =
      .ok text.toUTF8 := by
  rw [openOutput, asked] at opened
  exact World.read_of_create opened text.toUTF8

end Settings

/-- A counter overflows in large trees only. -/
theorem le_size_of_overflow {options : LoweringOptions} {tree : Node} {overflow : Overflow}
    (failed : lowerProgram options tree = .error overflow) : 2 ^ 31 ≤ tree.size := by
  by_contra small
  obtain ⟨program, lowered⟩ := @exists_lowerProgram options tree (by unfold maxCount; omega)
  rw [lowered] at failed
  cases failed

/-- The exit code tells how a run has ended. -/
theorem Settings.run_ends {settings : Settings} {world : World} {result : RunResult}
    (writable : settings.Writable world) (ran : settings.run world = result) :
    (result.exitCode = 1 ∧ settings.Prevented world ∧
      result.standardOutput = "" ∧ result.files = world.files) ∨
    ¬ settings.Prevented world ∧
      ((result.exitCode = 0 ∧ ∃ tree text sink events, settings.HasTree world tree ∧
          settings.Writes tree text ∧ settings.openOutput world = .ok sink ∧
          sink.Receives text world (settings.showLog events) result ∧
          ∀ path key, settings.output = some path → sink = .file key →
            World.read { world with files := result.files } path = .ok text.toUTF8) ∨
        result.exitCode = 101 ∧ ∃ tree, settings.HasTree world tree ∧
          settings.emission = .assembly ∧ 2 ^ 31 ≤ tree.size) := by
  rcases settings.run_cases world with ⟨prevented, diagnostic, events, ended⟩ |
    ⟨tree, sink, built, opened, ⟨text, events, writes, ended⟩ |
      ⟨overflow, events, asked, failed, ended⟩⟩
  · obtain rfl := ran.symm.trans ended
    exact .inl ⟨rfl, prevented, rfl, rfl⟩
  · have receives := settings.receives_deliver world
      (fun full => writable tree text built writes (full ▸ opened)) events
    obtain rfl := ran.symm.trans ended
    refine .inr ⟨built.not_prevented opened, .inl ⟨receives.exitCode_eq, tree, text, sink, events,
      built, writes, opened, receives, ?_⟩⟩
    rintro path key asked rfl
    exact settings.read_deliver asked opened events
  · obtain rfl := ran.symm.trans ended
    exact .inr ⟨built.not_prevented opened, .inr ⟨rfl, tree, built, asked,
      le_size_of_overflow failed⟩⟩

/-- **A run that fails leaves no trace, and one that succeeds writes one text.** It fails
exactly if the input is no text, the front end rejects it, or the output file cannot be
created; then nothing is on the standard output and all files are as they were. If it
succeeds, the chosen sink alone has got the text for the tree of the input, and a file
holds that text under its path, also if the input came from there. There is no third
end, unless a tree of at least `2 ^ 31` nodes is lowered. -/
theorem run_delivers {arguments : List String} {settings : Settings}
    (accepted : parseArguments arguments = .ok (.compile settings)) {world : World}
    (writable : settings.Writable world) :
    let result := run arguments world
    (result.exitCode = 1 → result.standardOutput = "" ∧ result.files = world.files) ∧
    (result.exitCode = 1 ↔ settings.Prevented world) ∧
    (result.exitCode = 0 → ∃ tree text sink events, settings.HasTree world tree ∧
      settings.Writes tree text ∧ settings.openOutput world = .ok sink ∧
      sink.Receives text world (settings.showLog events) result ∧
      ∀ path key, settings.output = some path → sink = .file key →
        World.read { world with files := result.files } path = .ok text.toUTF8) ∧
    (result.exitCode ≠ 0 → result.exitCode ≠ 1 → ∃ tree, settings.HasTree world tree ∧
      settings.emission = .assembly ∧ 2 ^ 31 ≤ tree.size) := by
  rw [run_of_compile accepted]
  intro result
  rcases Settings.run_ends writable rfl with
    ⟨code, prevented, traceless⟩ | ⟨clear, ⟨code, delivered⟩ | ⟨code, large⟩⟩
  · have failed : result.exitCode ≠ 0 := by
      rw [code]
      exact Nat.one_ne_zero
    exact ⟨fun _ => traceless, iff_of_true code prevented, fun success => absurd success failed,
      fun _ other => absurd code other⟩
  · have succeeded : result.exitCode ≠ 1 := by
      rw [code]
      exact Nat.zero_ne_one
    exact ⟨fun failed => absurd failed succeeded, iff_of_false succeeded clear,
      fun _ => delivered, fun other => absurd code other⟩
  · have neither : result.exitCode ≠ 0 ∧ result.exitCode ≠ 1 := by
      rw [code]
      decide
    exact ⟨fun failed => absurd failed neither.2, iff_of_false neither.2 clear,
      fun success => absurd success neither.1, fun _ _ => large⟩

/-- A directory with one file, whose content is given. -/
def World.single (source : String) : World :=
  ⟨ByteArray.empty, ["w"], ⟨[(["w", "a"], .file source.toUTF8)], [["w"]], [], []⟩⟩

/-- The settings for writing the outline of that file over it. -/
def outlineInPlace : Settings :=
  ⟨some "a", some "a", .outline, "main", false, false, 0⟩

theorem outlineInPlace_accepted :
    parseArguments ["a", "-o", "a", "--emit=tree"] = .ok (.compile outlineInPlace) := by
  decide

theorem outlineInPlace_opens (source : String) :
    outlineInPlace.openOutput (.single source) = .ok (.file ["w", "a"]) := by
  rfl

theorem outlineInPlace_writable (source : String) :
    outlineInPlace.Writable (.single source) := by
  intro tree text _ _ full
  rw [outlineInPlace_opens] at full
  cases full

theorem outlineInPlace_reads (source : String) :
    outlineInPlace.readInput (.single source) = .ok source.toUTF8 := by
  rfl

theorem hasTree_of_parse {source : String} {tree : Node} (parsed : (parse source).1 = .ok tree) :
    outlineInPlace.HasTree (.single source) tree := by
  refine ⟨source.toUTF8, source, outlineInPlace_reads source, ?_, parsed⟩
  exact dif_pos source.isValidUTF8

/-- A file is read before it is written over; and a file that is no program stays as it
is, though the output was to go there. -/
theorem run_delivers_inPlace :
    let arguments := ["a", "-o", "a", "--emit=tree"]
    let done := run arguments (.single "proc f() begin end")
    let failed := run arguments (.single "proc f() begin")
    (done.exitCode = 0 ∧ World.read { World.single "" with files := done.files } "a" =
      .ok "procedure\n|   proc_header f\n".toUTF8) ∧
    failed.exitCode = 1 ∧ failed.standardOutput = "" ∧
      failed.files = (World.single "proc f() begin").files := by
  intro arguments done failed
  have parsed : (parse "proc f() begin end").1 =
      .ok (.program [.procedure ⟨"f", []⟩ [] (.block [])]) := by with_unfolding_all rfl
  constructor
  · obtain ⟨-, prevented, delivered, other⟩ := @run_delivers arguments _ outlineInPlace_accepted
      (.single "proc f() begin end") (outlineInPlace_writable _)
    have built := hasTree_of_parse parsed
    have success : done.exitCode = 0 := by
      by_contra unsuccessful
      have failure : done.exitCode ≠ 1 := fun failure =>
        built.not_prevented (outlineInPlace_opens _) (prevented.mp failure)
      obtain ⟨-, -, assembly, -⟩ := other unsuccessful failure
      cases assembly
    obtain ⟨tree, text, sink, events, built', writes, opened, -, kept⟩ := delivered success
    obtain rfl := built.unique built'
    obtain rfl : sink = .file ["w", "a"] :=
      Except.ok.inj (opened.symm.trans (outlineInPlace_opens _))
    refine ⟨success, ?_⟩
    have read := kept "a" _ rfl rfl
    cases writes with
    | outline asked => exact read
    | json asked => cases asked
    | assembly asked lowered => cases asked
  · obtain ⟨traceless, prevented, -, -⟩ := @run_delivers arguments _ outlineInPlace_accepted
      (.single "proc f() begin") (outlineInPlace_writable _)
    have rejected : ∃ diagnostic, (parse "proc f() begin").1 = .error diagnostic :=
      ⟨_, by with_unfolding_all rfl⟩
    obtain ⟨diagnostic, rejected⟩ := rejected
    have failure := prevented.mpr (.rejected (outlineInPlace_reads _)
      (dif_pos (String.isValidUTF8 _)) rejected)
    exact ⟨failure, traceless failure⟩

end ProcLang.Command
