import Mathlib
import ProcLang.Proofs.Command.Outcome
import ProcLang.Proofs.Grammar.HandedOver
import ProcLang.Proofs.Lowering.Completion
import ProcLang.Proofs.Lowering.Remarks
import ProcLang.Proofs.Syntax.Interchange

/-!
# Compiling through JSON

A program can be compiled from its source, or in two runs, the first of which
writes its tree as JSON and the second of which reads that. Arguments are taken
as they are given to the command, and each run is one of `Command.run` over the
standard streams, in the same surroundings.

Both routes lower the same tree, since a tree that was parsed passes the checks
that a tree from JSON has to pass, and the line end behind the text is white
space. The second run differs in one thing: it refuses a text with more than 127
arrays and objects open at once, and `run_jsonRoute` says that the routes agree
exactly if the text stays below that. A program of a single assignment can go
beyond (`run_fromJson_refuses_negated`).
-/

set_option autoImplicit false

namespace ProcLang.Command

/-! ## Arguments -/

/-- The arguments that choose an entry, if one is chosen, and ask for remarks. -/
def choiceArguments (entry : Option String) (annotate : Bool) : List String :=
  (entry.map ("--entry=" ++ ·)).toList ++ if annotate then ["--annotate"] else []

/-- An entry is taken as it is spelled, whatever it is. -/
theorem Given.take_entry {given : Given} (unnamed : given.entry = none) (name : String) :
    given.take ("--entry=" ++ name) = .ok (.next { given with entry := some name }) := by
  have spelled : ("--entry=" ++ name).toList =
      '-' :: '-' :: ("entry".toList ++ '=' :: name.toList) := by
    simp [String.toList_append]
  rw [take, spelled]
  simp [takeLong, CommandOption.ofLongName?, store, set, unnamed]

theorem takeArguments_remarks {given : Given} (annotate : Bool)
    (unannotated : given.annotate = false) :
    takeArguments given (if annotate then ["--annotate"] else []) =
      .ok (.compile { given with annotate := annotate }.settings) := by
  cases annotate with
  | false => simp [takeArguments, Given.settings, unannotated]
  | true =>
      have taken : given.take "--annotate" = .ok (.next { given with annotate := true }) := by
        simp [Given.take, Given.takeLong, CommandOption.ofLongName?, Given.raise, unannotated]
      simp [takeArguments, taken]

theorem takeArguments_choices {given : Given} (entry : Option String) (annotate : Bool)
    (unnamed : given.entry = none) (unannotated : given.annotate = false) :
    takeArguments given (choiceArguments entry annotate) =
      .ok (.compile { given with entry := entry, annotate := annotate }.settings) := by
  cases entry with
  | none =>
      show takeArguments given (if annotate then ["--annotate"] else []) = _
      rw [takeArguments_remarks annotate unannotated]
      simp [Given.settings, unnamed]
  | some name =>
      have other : "--entry=" ++ name ≠ "--" := by
        intro same
        have lengths := congrArg String.length same
        rw [String.length_append] at lengths
        have long : "--entry=".length = 8 := rfl
        have short : "--".length = 2 := rfl
        omega
      show takeArguments given (("--entry=" ++ name) :: _) = _
      rw [takeArguments, if_neg other, Given.take_entry unnamed]
      exact takeArguments_remarks annotate unannotated

/-! ## Runs over the standard streams -/

/-- The same surroundings with a text on the standard input. -/
def World.withInput (world : World) (text : String) : World :=
  { world with standardInput := text.toUTF8 }

theorem decodeText_toUTF8 (text : String) : decodeText text.toUTF8 = .ok text := by
  have valid : String.fromUTF8? text.toUTF8 = some text := dif_pos text.isValidUTF8
  rw [decodeText, valid]

namespace Settings

variable {settings : Settings} {text : String} {tree : Node}

/-- The tree of a text, from source or from JSON. -/
theorem buildTree_toUTF8 (settings : Settings) (text : String) :
    (settings.buildTree (.ok text.toUTF8)).1 =
      if settings.fromJson then Node.ofJsonText text else (parse text).1 := by
  have decoded : (Except.ok text.toUTF8 : Except FileFault ByteArray).bind decodeText = .ok text :=
    decodeText_toUTF8 text
  unfold buildTree
  rw [decoded]
  cases settings.fromJson with
  | false => rcases parsed : parse text with ⟨diagnostic | tree, events⟩ <;> simp [parsed]
  | true => rcases read : Node.ofJsonText text with diagnostic | tree <;> simp [read]

section Streams

variable (fromInput : settings.input = none) (toOutput : settings.output = none) (world : World)

include fromInput toOutput

theorem run_withInput :
    settings.run (world.withInput text) =
      match settings.buildTree (.ok text.toUTF8) with
      | (.error diagnostic, events) => settings.failure (world.withInput text) diagnostic events
      | (.ok tree, events) =>
          match settings.render tree with
          | .error overflow =>
              settings.overflowed (world.withInput text) .standardOutput overflow events
          | .ok (out, more) =>
              settings.deliver (world.withInput text) .standardOutput out (events ++ more) := by
  have input : settings.readInput (world.withInput text) = .ok text.toUTF8 := by
    rw [readInput, fromInput]
    rfl
  have sink : settings.openOutput (world.withInput text) = .ok .standardOutput := by
    rw [openOutput, toOutput]
  rw [run_eq, input]
  rcases settings.buildTree (.ok text.toUTF8) with ⟨diagnostic | tree, events⟩
  · rfl
  · rcases rendered : settings.render tree with overflow | ⟨out, more⟩ <;>
      simp only [sink, rendered]

/-- A run that writes a text to the standard output. -/
theorem run_of_rendered {out : String} {more : List Event}
    (built : (settings.buildTree (.ok text.toUTF8)).1 = .ok tree)
    (rendered : settings.render tree = .ok (out, more)) :
    (settings.run (world.withInput text)).exitCode = 0 ∧
      (settings.run (world.withInput text)).standardOutput = out := by
  rw [run_withInput fromInput toOutput]
  rcases whole : settings.buildTree (.ok text.toUTF8) with ⟨outcome, events⟩
  rw [whole] at built
  obtain rfl : outcome = .ok tree := built
  simp only [rendered]
  exact ⟨rfl, rfl⟩

/-- A run that refuses its input. -/
theorem run_of_refused {diagnostic : Diagnostic}
    (built : (settings.buildTree (.ok text.toUTF8)).1 = .error diagnostic) :
    (settings.run (world.withInput text)).exitCode = 1 ∧
      (settings.run (world.withInput text)).standardOutput = "" := by
  rw [run_withInput fromInput toOutput]
  rcases whole : settings.buildTree (.ok text.toUTF8) with ⟨outcome, events⟩
  rw [whole] at built
  obtain rfl : outcome = .error diagnostic := built
  exact ⟨rfl, rfl⟩

/-- A run that ends well has a tree and a text for it. -/
theorem rendered_of_run (success : (settings.run (world.withInput text)).exitCode = 0) :
    ∃ tree out more, (settings.buildTree (.ok text.toUTF8)).1 = .ok tree ∧
      settings.render tree = .ok (out, more) := by
  rw [run_withInput fromInput toOutput] at success
  rcases whole : settings.buildTree (.ok text.toUTF8) with ⟨diagnostic | tree, events⟩
  · rw [whole] at success
    cases success
  · rcases rendered : settings.render tree with overflow | ⟨out, more⟩
    · simp only [whole, rendered] at success
      cases success
    · exact ⟨tree, out, more, rfl, rendered⟩

end Streams

end Settings

/-! ## The two routes -/

theorem run_choices (entry : Option String) (annotate : Bool) (world : World) :
    run (choiceArguments entry annotate) world =
      Settings.run ⟨none, none, .assembly, entry.getD "main", annotate, false, 0⟩ world := by
  have asked := @takeArguments_choices .nothing entry annotate rfl rfl
  refine run_of_compile ?_ world
  rw [parseArguments, asked]
  rfl

theorem run_fromJson_choices (entry : Option String) (annotate : Bool) (world : World) :
    run ("--from-json" :: choiceArguments entry annotate) world =
      Settings.run ⟨none, none, .assembly, entry.getD "main", annotate, true, 0⟩ world := by
  have asked := @takeArguments_choices { Given.nothing with fromJson := true } entry annotate
    rfl rfl
  have first : takeArguments .nothing ("--from-json" :: choiceArguments entry annotate) =
      takeArguments { Given.nothing with fromJson := true } (choiceArguments entry annotate) := by
    have taken : Given.nothing.take "--from-json" =
        .ok (.next { Given.nothing with fromJson := true }) := by decide
    rw [takeArguments, if_neg (by decide), taken]
  refine run_of_compile ?_ world
  rw [parseArguments, first, asked]
  rfl

theorem run_emitJson (world : World) :
    run ["--emit", "json"] world =
      Settings.run ⟨none, none, .json, "main", false, false, 0⟩ world := by
  have asked : parseArguments ["--emit", "json"] =
      .ok (.compile ⟨none, none, .json, "main", false, false, 0⟩) := by decide
  exact run_of_compile asked world

section Routes

variable (world : World) {entry : Option String} {annotate : Bool} {source : String} {tree : Node}
  {program : LoweredProgram}

theorem render_of_lowered {settings : Settings} (assembly : settings.emission = .assembly)
    (lowered : lowerProgram settings.loweringOptions tree = .ok program) :
    settings.render tree = .ok (listing program.instructions,
      program.events ++ [.emitting program.instructions.length]) := by
  simp only [Settings.render, assembly, lowered]

/-- A source that is parsed and lowered is compiled. -/
theorem run_of_lowered (parsed : (parse source).1 = .ok tree)
    (lowered : lowerProgram ⟨entry.getD "main", annotate⟩ tree = .ok program) :
    (run (choiceArguments entry annotate) (world.withInput source)).exitCode = 0 ∧
      (run (choiceArguments entry annotate) (world.withInput source)).standardOutput =
        listing program.instructions := by
  rw [run_choices]
  refine Settings.run_of_rendered rfl rfl world ?_ (render_of_lowered rfl lowered)
  rw [Settings.buildTree_toUTF8, if_neg Bool.false_ne_true, parsed]

/-- A source that is compiled is parsed and lowered. -/
theorem lowered_of_run
    (success : (run (choiceArguments entry annotate) (world.withInput source)).exitCode = 0) :
    ∃ tree program, (parse source).1 = .ok tree ∧
      lowerProgram ⟨entry.getD "main", annotate⟩ tree = .ok program := by
  rw [run_choices] at success
  obtain ⟨tree, out, more, built, rendered⟩ := Settings.rendered_of_run rfl rfl world success
  rw [Settings.buildTree_toUTF8, if_neg Bool.false_ne_true] at built
  simp only [Settings.render, Settings.loweringOptions] at rendered
  split at rendered
  · cases rendered
  · rename_i program lowered
    exact ⟨tree, program, built, lowered⟩

/-- A source that is parsed is written as JSON, with a line end behind. -/
theorem run_emitJson_of_parsed (parsed : (parse source).1 = .ok tree) :
    (run ["--emit", "json"] (world.withInput source)).exitCode = 0 ∧
      (run ["--emit", "json"] (world.withInput source)).standardOutput = tree.jsonText ++ "\n" := by
  rw [run_emitJson]
  refine Settings.run_of_rendered rfl rfl world ?_ rfl
  rw [Settings.buildTree_toUTF8, if_neg Bool.false_ne_true, parsed]

/-- A tree that is not too deep is compiled from its JSON text. -/
theorem run_fromJson_of_shallow (checked : tree.check = .ok ())
    (shallow : tree.toJson.depth ≤ 127)
    (lowered : lowerProgram ⟨entry.getD "main", annotate⟩ tree = .ok program) :
    (run ("--from-json" :: choiceArguments entry annotate)
        (world.withInput (tree.jsonText ++ "\n"))).exitCode = 0 ∧
      (run ("--from-json" :: choiceArguments entry annotate)
        (world.withInput (tree.jsonText ++ "\n"))).standardOutput =
          listing program.instructions := by
  rw [run_fromJson_choices]
  refine Settings.run_of_rendered rfl rfl world ?_ (render_of_lowered rfl lowered)
  rw [Settings.buildTree_toUTF8, if_pos rfl, tree.ofJsonText_jsonText rfl, maxOpen,
    if_pos shallow, checked]

/-- A tree that is too deep is refused in its JSON text. -/
theorem run_fromJson_of_deep (deep : 127 < tree.toJson.depth) :
    (run ("--from-json" :: choiceArguments entry annotate)
        (world.withInput (tree.jsonText ++ "\n"))).exitCode = 1 ∧
      (run ("--from-json" :: choiceArguments entry annotate)
        (world.withInput (tree.jsonText ++ "\n"))).standardOutput = "" := by
  rw [run_fromJson_choices]
  refine @Settings.run_of_refused _ _ rfl rfl world .malformedTree ?_
  rw [Settings.buildTree_toUTF8, if_pos rfl, tree.ofJsonText_jsonText rfl, maxOpen,
    if_neg (Nat.not_le_of_lt deep)]

end Routes

/-- A source that compiles with some choices compiles with all, and its tree is
written as JSON. With any choices, compiling that text gives what compiling the
source gives exactly if the text never has more than 127 arrays and objects open;
otherwise the text is refused. -/
theorem run_jsonRoute (world : World) (source : String) {entry₀ : Option String}
    {annotate₀ : Bool}
    (compiles : (run (choiceArguments entry₀ annotate₀) (world.withInput source)).exitCode = 0)
    (entry : Option String) (annotate : Bool) :
    let direct := run (choiceArguments entry annotate) (world.withInput source)
    let written := run ["--emit", "json"] (world.withInput source)
    let again := run ("--from-json" :: choiceArguments entry annotate)
      (world.withInput written.standardOutput)
    direct.exitCode = 0 ∧ written.exitCode = 0 ∧
      ∃ tree, (parse source).1 = .ok tree ∧ written.standardOutput = tree.jsonText ++ "\n" ∧
        ((again.exitCode = 0 ∧ again.standardOutput = direct.standardOutput) ↔
          tree.toJson.depth ≤ 127) ∧
        (127 < tree.toJson.depth → again.exitCode = 1 ∧ again.standardOutput = "") := by
  obtain ⟨tree, program₀, parsed, lowered₀⟩ := lowered_of_run world compiles
  -- The choices do not decide whether the tree is lowered.
  obtain ⟨program, lowered⟩ : ∃ program,
      lowerProgram ⟨entry.getD "main", annotate⟩ tree = .ok program := by
    have same := isOk_lowerProgram ⟨entry.getD "main", annotate⟩
      ⟨entry₀.getD "main", annotate₀⟩ tree
    rw [lowered₀] at same
    rcases lowered : lowerProgram ⟨entry.getD "main", annotate⟩ tree with overflow | program
    · rw [lowered] at same
      cases same
    · exact ⟨program, rfl⟩
  have checked : tree.check = .ok () :=
    Node.check_of_isWellFormed (isWellFormed_of_parse (Prod.ext parsed rfl))
  obtain ⟨compiled, listed⟩ := run_of_lowered world parsed lowered
  obtain ⟨wrote, text⟩ := run_emitJson_of_parsed world parsed
  refine ⟨compiled, wrote, tree, parsed, text, ?_, ?_⟩
  · rw [text, listed]
    constructor
    · rintro ⟨success, -⟩
      by_contra deep
      obtain ⟨failure, -⟩ :=
        @run_fromJson_of_deep world entry annotate tree (Nat.lt_of_not_le deep)
      rw [failure] at success
      cases success
    · intro shallow
      exact run_fromJson_of_shallow world checked shallow lowered
  · rw [text]
    exact run_fromJson_of_deep world

/-! ## The limit is reached by programs -/

/-- A number under a given count of minus signs. -/
def negated : Nat → Node
  | 0 => .constant 1
  | count + 1 => .unary .minus (negated count)

/-- A program that assigns such a number. -/
def negatedTree (count : Nat) : Node :=
  .program [.procedure ⟨"main", []⟩ [] (.block [.assign (.reference "x") (negated count)])]

/-- The source of that program. -/
def negatedText (count : Nat) : String :=
  "proc main() begin x := " ++ String.ofList (List.replicate count '-') ++ "1; end"

/-- A minus sign opens two objects. -/
theorem depth_negated (count : Nat) : (negated count).toJson.depth = 2 * count + 1 := by
  induction count with
  | zero => simp [negated, Node.toJson]
  | succ count ih =>
      simp [negated, Node.toJson, Json.depthItems, ih]
      omega

theorem depth_negatedTree (count : Nat) : (negatedTree count).toJson.depth = 2 * count + 9 := by
  simp [negatedTree, Node.toJson, Node.toJsonAll, Json.depthItems, depth_negated, Header.toJson]

theorem size_negated (count : Nat) : (negated count).size = count + 1 := by
  induction count with
  | zero => rfl
  | succ count ih =>
      rw [negated, Node.size, ih]
      omega

/-- Such a program is compiled if it is parsed and not too large. -/
theorem run_negatedText (world : World) {count : Nat} (small : count ≤ 1000)
    (parsed : (parse (negatedText count)).1 = .ok (negatedTree count)) :
    (run [] (world.withInput (negatedText count))).exitCode = 0 := by
  have size : (negatedTree count).size + 6 ≤ maxCount := by
    simp only [negatedTree, Node.size, Node.sizeAll, size_negated, maxCount]
    omega
  obtain ⟨program, lowered⟩ := exists_lowerProgram .standard size
  exact (@run_of_lowered world none false _ _ _ parsed lowered).1

/-- A world without files. -/
def World.bare : World := ⟨ByteArray.empty, [], ⟨[], [], [], []⟩⟩

/-- With 59 minus signs the text has 127 arrays and objects open. -/
theorem run_jsonRoute_negated :
    let world := World.bare.withInput (negatedText 59)
    let written := run ["--emit", "json"] world
    let again := run ("--from-json" :: choiceArguments (some "start") true)
      (World.bare.withInput written.standardOutput)
    (run [] world).exitCode = 0 ∧ again.exitCode = 0 ∧
      again.standardOutput = (run (choiceArguments (some "start") true) world).standardOutput := by
  have parsed : (parse (negatedText 59)).1 = .ok (negatedTree 59) := by with_unfolding_all rfl
  have compiles := run_negatedText .bare (by decide) parsed
  obtain ⟨-, -, tree, built, -, route, -⟩ :=
    @run_jsonRoute .bare (negatedText 59) none false compiles (some "start") true
  obtain rfl : negatedTree 59 = tree := Except.ok.inj (parsed.symm.trans built)
  exact ⟨compiles, route.mpr (by rw [depth_negatedTree])⟩

/-- With one more the source is still compiled and its tree still written, but what
was written is refused. -/
theorem run_fromJson_refuses_negated :
    let world := World.bare.withInput (negatedText 60)
    let written := run ["--emit", "json"] world
    (run [] world).exitCode = 0 ∧ written.exitCode = 0 ∧
      (run ["--from-json"] (World.bare.withInput written.standardOutput)).exitCode = 1 := by
  have parsed : (parse (negatedText 60)).1 = .ok (negatedTree 60) := by with_unfolding_all rfl
  obtain ⟨wrote, text⟩ := run_emitJson_of_parsed .bare parsed
  have deep : 127 < (negatedTree 60).toJson.depth := by rw [depth_negatedTree]; decide
  refine ⟨run_negatedText .bare (by decide) parsed, wrote, ?_⟩
  rw [text]
  exact (@run_fromJson_of_deep .bare none false _ deep).1

end ProcLang.Command
