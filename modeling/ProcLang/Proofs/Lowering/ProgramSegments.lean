import ProcLang.Proofs.Lowering.ClosedCode
import ProcLang.Proofs.Lowering.Completion
import ProcLang.Proofs.Lowering.ProgramPlan

/-!
# The segments of a program

The procedures of a tree stand in the lowered program in their order, each in one
piece, whatever the tree looks like (`standIn_lowerProgram`).

A program that was read from a source text consists of these pieces and nothing
else, between the code that starts it and the storage of its globals
(`lowerProgram_layout`). No label is defined twice, no piece jumps into another,
and the names that calls and addresses refer to are defined exactly if the source
declares them.
-/

set_option autoImplicit false

namespace ProcLang

/-! ## Procedures in code -/

/-- Procedures stand in code in their order, each in one piece of which something
holds. -/
def StandIn (holds : Procedure → List Instruction → Prop) :
    List Procedure → List Instruction → Prop
  | [], _ => True
  | procedure :: rest, code =>
      ∃ front segment back, code = front ++ segment ++ back ∧ holds procedure segment ∧
        StandIn holds rest back

section StandIn

variable {holds holds' : Procedure → List Instruction → Prop} {procedures others : List Procedure}
  {code more : List Instruction}

theorem StandIn.after (stand : StandIn holds procedures code) (front : List Instruction) :
    StandIn holds procedures (front ++ code) := by
  cases procedures with
  | nil => trivial
  | cons procedure rest =>
      obtain ⟨before, segment, back, rfl, known, later⟩ := stand
      exact ⟨front ++ before, segment, back, by simp only [List.append_assoc], known, later⟩

theorem StandIn.append (stand : StandIn holds procedures code)
    (stand' : StandIn holds others more) :
    StandIn holds (procedures ++ others) (code ++ more) := by
  induction procedures generalizing code with
  | nil => exact stand'.after code
  | cons procedure rest ih =>
      obtain ⟨front, segment, back, rfl, known, later⟩ := stand
      exact ⟨front, segment, back ++ more, by simp only [List.append_assoc], known, ih later⟩

theorem StandIn.before (stand : StandIn holds procedures code) (back : List Instruction) :
    StandIn holds procedures (code ++ back) := by
  have whole := @StandIn.append holds procedures [] code back stand trivial
  rwa [List.append_nil] at whole

theorem StandIn.imp (stand : StandIn holds procedures code)
    (stronger : ∀ procedure ∈ procedures, ∀ segment,
      holds procedure segment → holds' procedure segment) :
    StandIn holds' procedures code := by
  induction procedures generalizing code with
  | nil => trivial
  | cons procedure rest ih =>
      obtain ⟨front, segment, back, rfl, known, later⟩ := stand
      refine ⟨front, segment, back, rfl, stronger procedure List.mem_cons_self segment known, ?_⟩
      exact ih later fun other member => stronger other (.tail _ member)

end StandIn

/-- The code of a procedure, from some number of the next choice or loop on. -/
def Procedure.IsCode (annotate : Bool) (globals : List Declaration) (procedure : Procedure)
    (code : List Instruction) : Prop :=
  ∃ label, code = (procedure.output annotate globals label).code

namespace Emitter

/-- What is known of a walk over items: the procedures stand in what it emits, and
it leaves the globals and the remarks as they were. -/
def Stands (walk : Emitter Unit) (procedures : List Procedure) : Prop :=
  ∀ before : Context, ∃ after output, walk.Ends before () after output ∧
    after.annotate = before.annotate ∧ after.globals = before.globals ∧
    StandIn (Procedure.IsCode before.annotate before.globals) procedures output.code

theorem stands_itemAll {items : List Node}
    (stands : ∀ node ∈ items, (item node).Stands node.procedures) :
    (itemAll items).Stands (Node.proceduresAll items) := by
  induction items with
  | nil => exact fun before => ⟨before, _, ends_pure () before, rfl, rfl, trivial⟩
  | cons node rest ih =>
      intro before
      obtain ⟨middle, output, ends, annotate, globals, here⟩ :=
        stands node List.mem_cons_self before
      obtain ⟨after, output', ends', annotate', globals', later⟩ :=
        ih (fun other member => stands other (.tail _ member)) middle
      rw [annotate, globals] at later
      exact ⟨after, output ++ output', .bind ends ends', annotate'.trans annotate,
        globals'.trans globals, here.append later⟩

theorem stands_statement (node : Node) :
    (enter .empty >>= fun _ => node.lower.effect).Stands [] := by
  intro before
  obtain ⟨cursor, performs⟩ := (Node.lower_follows node).effect
    { before with
      scope := .empty
      pushed := 0
      pendingArguments := 0
      cursor := Register.scratchBase } ⟨rfl, rfl⟩
  exact ⟨_, _, .bind (ends_enter .empty before) performs, rfl, rfl, trivial⟩

theorem stands_item (node : Node) : (item node).Stands node.procedures := by
  induction node with
  | program items ih => exact stands_itemAll ih
  | procedure heading locals body _ =>
      intro before
      obtain ⟨cursor, ends⟩ := ends_procedure heading locals body before
      refine ⟨_, _, ends, rfl, rfl, [], _, [], ?_, ⟨before.nextLabel, rfl⟩, trivial⟩
      rw [List.nil_append, List.append_nil]
      rfl
  | header heading => exact stands_statement (.header heading)
  | declarations declared => exact stands_statement (.declarations declared)
  | declaration declared => exact stands_statement (.declaration declared)
  | block statements _ => exact stands_statement (.block statements)
  | call name arguments _ => exact stands_statement (.call name arguments)
  | assign target value _ _ => exact stands_statement (.assign target value)
  | branch condition consequent _ _ => exact stands_statement (.branch condition consequent none)
  | branchElse condition consequent alternative _ _ _ =>
      exact stands_statement (.branch condition consequent (some alternative))
  | loop condition body _ _ => exact stands_statement (.loop condition body)
  | binary op left right _ _ => exact stands_statement (.binary op left right)
  | unary op operand _ => exact stands_statement (.unary op operand)
  | constant value => exact stands_statement (.constant value)
  | reference name => exact stands_statement (.reference name)

theorem stands_program (entry : String) (root : Node) (annotate : Bool) :
    ∃ after output, (program entry root).Ends (Context.initial annotate) () after output ∧
      StandIn (Procedure.IsCode annotate root.globalDeclarations.reverse) root.procedures
        output.code := by
  obtain ⟨after, output, ends, -, -, stand⟩ := stands_item root
    { Context.initial annotate with globals := root.globalDeclarations.reverse }
  rw [program_eq]
  refine ⟨after, _, .bind (ends_opening entry root annotate) ends, ?_⟩
  rw [Output.code_append, Output.code_append, code_entryNote]
  exact stand.after (startCode entry)

end Emitter

/-- **The code of the procedures of a tree stands in the lowered program**, in
their order and each in one piece. -/
theorem standIn_lowerProgram {options : LoweringOptions} {root : Node} {program : LoweredProgram}
    (lowered : lowerProgram options root = .ok program) :
    StandIn (Procedure.IsCode options.annotate root.globalDeclarations.reverse) root.procedures
      program.instructions := by
  obtain ⟨after, output, ends, stand⟩ :=
    Emitter.stands_program options.entry root options.annotate
  unfold lowerProgram at lowered
  split at lowered
  next => cases lowered
  next emitted ran =>
    obtain rfl := ends emitted ran
    cases lowered
    exact (stand.before output.data).before [.label Label.stackBegin.text]

/-! ## Segments -/

section Segments

variable {annotate : Bool} {globals : List Declaration} {items : List Node} {procedure : Procedure}
  {code : List Instruction}

/-- The code of items is that of their procedures. -/
theorem Node.exists_segments (shape : ∀ item ∈ items, item.Item) (label : Nat) :
    ∃ segments, (itemsOutput annotate globals items label).code = segments.flatten ∧
      List.Forall₂ (Procedure.IsCode annotate globals) (proceduresAll items) segments := by
  induction items generalizing label with
  | nil => exact ⟨[], rfl, .nil⟩
  | cons item rest ih =>
      obtain ⟨segments, whole, pieces⟩ := ih (fun item listed => shape item (.tail _ listed))
        (label + item.itemChoices annotate globals)
      rw [itemsOutput, Output.code_append, whole]
      cases shape item List.mem_cons_self with
      | declarations declared => exact ⟨segments, rfl, pieces⟩
      | @procedure heading locals body reach command =>
          exact ⟨_ :: segments, rfl, .cons ⟨label, rfl⟩ pieces⟩

theorem Node.procedureNamesAll_eq_map (shape : ∀ item ∈ items, item.Item) :
    procedureNamesAll items =
      (proceduresAll items).map fun procedure => procedure.heading.name := by
  induction items with
  | nil => rfl
  | cons item rest ih =>
      rw [procedureNamesAll, proceduresAll, List.map_append,
        ih fun item listed => shape item (.tail _ listed)]
      cases shape item List.mem_cons_self <;> rfl

/-- The code of a procedure of a given name: it starts with the label of the
procedure, ends with the return, has no storage in it, and jumps only to labels of
its own. -/
structure IsSegment (name : String) (code : List Instruction) : Prop where
  starts : code.head? = some (.label (Label.procedure name).text)
  ends : code.getLast? = some .ret
  bare : ∀ words, .reserve words ∉ code
  closed : ∀ label ∈ usedLabels code, label ∈ definedLabels code

/-- What stands in the code of a procedure besides its label and its return. -/
theorem Procedure.IsCode.inner (isCode : procedure.IsCode annotate globals code) :
    ∀ instruction ∈ code, instruction.Inner ∨ instruction = .ret := by
  obtain ⟨label, rfl⟩ := isCode
  rw [code_output]
  intro instruction member
  rcases List.mem_append.mp member with member | member
  · rcases List.mem_append.mp member with member | member
    · rcases mem_prologue _ _ _ member with rfl | ⟨text, rfl⟩ | rfl <;> exact .inl trivial
    · exact .inl (((procedure.body.plan_isClosed _ _).effect 0 label).inner instruction member)
  · rcases mem_epilogue _ member with rfl | rfl
    · exact .inl trivial
    · exact .inr rfl

theorem Procedure.inner_of_mem_flatten {procedures : List Procedure}
    {segments : List (List Instruction)}
    (pieces : List.Forall₂ (Procedure.IsCode annotate globals) procedures segments) :
    ∀ instruction ∈ segments.flatten, instruction.Inner ∨ instruction = .ret := by
  induction pieces with
  | nil => exact nofun
  | cons isCode _ ih =>
      intro instruction member
      rcases List.mem_append.mp member with here | later
      · exact isCode.inner instruction here
      · exact ih instruction later

theorem Procedure.IsCode.isSegment (isCode : procedure.IsCode annotate globals code) :
    IsSegment procedure.heading.name code := by
  have inner := isCode.inner
  obtain ⟨label, rfl⟩ := isCode
  have closed := (procedure.body.plan_isClosed annotate (procedure.scope.resolve globals)).effect
    0 label
  refine ⟨?_, ?_, ?_, ?_⟩
  · rw [code_output]
    rfl
  · rw [code_output, epilogue, ← List.append_assoc, List.getLast?_concat]
  · intro words member
    rcases inner _ member with within | same
    · exact within
    · cases same
  · intro name used
    have unused : usedLabels (prologue annotate procedure.heading procedure.scope.frameSize) = [] :=
      List.filterMap_eq_nil_iff.mpr fun instruction member => by
        rcases mem_prologue _ _ _ member with rfl | ⟨text, rfl⟩ | rfl <;> rfl
    have unused' : usedLabels (epilogue procedure.scope.frameSize) = [] :=
      List.filterMap_eq_nil_iff.mpr fun instruction member => by
        rcases mem_epilogue _ member with rfl | rfl <;> rfl
    rw [code_output, usedLabels_append, usedLabels_append, unused, unused', List.nil_append,
      List.append_nil] at used
    rw [code_output, definedLabels_append, definedLabels_append]
    have own := (closed.used name used).resolve_right List.not_mem_nil
    exact List.mem_append_left _ (List.mem_append_right _ own)

end Segments

/-! ## Labels of a listing -/

section Listing

variable {annotate : Bool} {entry : String} {items : List Node}

/-- The labels of a program are those of its procedures, its globals, the stack,
and its choices and loops. -/
theorem Node.mem_definedLabels_listing (shape : ∀ item ∈ items, item.Item) {place : Label}
    (fixed : place.choice? = none) :
    place.text ∈ definedLabels (listing annotate entry items) ↔
      (∃ name ∈ procedureNamesAll items, place = .procedure name) ∨
        (∃ declared ∈ globalDeclarationsAll items, place = .global declared.name) ∨
        place = .stackBegin := by
  obtain ⟨numbers, numbered, perm⟩ := @labels_itemsOutput annotate
    (globalDeclarationsAll items).reverse items shape 0
  have unnumbered : place.text ∉ numbers := by
    intro member
    obtain ⟨other, id, choice, spelled, -, -⟩ := numbered.range _ member
    obtain rfl := Label.text_injective spelled
    rw [fixed] at choice
    cases choice
  unfold listing programOutput
  simp only [definedLabels_append, data_itemsOutput shape, definedLabels_reserve,
    definedLabels_label, List.mem_append, perm.mem_iff, List.mem_map, unnumbered, Label.text_inj,
    or_false, List.mem_singleton, or_assoc]
  rw [show definedLabels (startCode entry) = [] from rfl]
  simp [eq_comm]

/-- What stands in a program besides the code of trees. -/
theorem Node.mem_listing (shape : ∀ item ∈ items, item.Item) {instruction : Instruction}
    (member : instruction ∈ listing annotate entry items) :
    instruction ∈ startCode entry ∨ instruction.Inner ∨ instruction = .ret ∨
      ∃ words, instruction = .reserve words := by
  rw [listing, programOutput, data_itemsOutput shape] at member
  rcases List.mem_append.mp member with member | member
  · rcases List.mem_append.mp member with member | member
    · rcases List.mem_append.mp member with member | member
      · exact .inl member
      · obtain ⟨segments, whole, pieces⟩ := exists_segments shape 0
        rw [whole] at member
        exact .inr ((Procedure.inner_of_mem_flatten pieces instruction member).imp_right .inl)
    · obtain ⟨declared, -, within⟩ := List.mem_flatMap.mp member
      rcases List.mem_pair.mp within with rfl | rfl
      · exact .inr (.inl trivial)
      · exact .inr (.inr (.inr ⟨_, rfl⟩))
  · obtain rfl := List.mem_singleton.mp member
    exact .inr (.inl trivial)

/-- What is called is a procedure, the entry or one that a tree names. -/
theorem Node.exists_callee (shape : ∀ item ∈ items, item.Item) {target : String}
    (member : .call target ∈ listing annotate entry items) :
    ∃ callee, target = (Label.procedure callee).text := by
  rcases mem_listing shape member with started | inner | same | ⟨words, same⟩
  · exact ⟨entry, by simpa [startCode] using started⟩
  · exact inner
  · cases same
  · cases same

/-- An address that is loaded is that of the stack or of a global that a tree
names. -/
theorem Node.exists_global (shape : ∀ item ∈ items, item.Item) {register : Register}
    {target : String} (member : .loadAddress register target ∈ listing annotate entry items) :
    target = Label.stackBegin.text ∨ ∃ name, target = (Label.global name).text := by
  rcases mem_listing shape member with started | inner | same | ⟨words, same⟩
  · exact .inl (by simp [startCode] at started; exact started.2)
  · exact .inr inner
  · cases same
  · cases same

end Listing

/-- **The layout of a program.** A source text that is read, in which no two
procedures and no two globals share a name, is lowered if its nodes can be counted.
The result is the code that starts the program, a piece for each procedure, the
storage of each global, and the label of the stack. No label is defined twice; what
a call names is defined if it is a procedure of the source, and what an address
names if it is the stack or a global of the source. -/
theorem lowerProgram_layout {source : String} {events : List Event} {root : Node}
    (parsed : parse source = (.ok root, events)) (procedures : root.procedureNames.Nodup)
    (globals : (root.globalDeclarations.map Declaration.name).Nodup) (options : LoweringOptions) :
    (root.size + 6 ≤ maxCount → ∃ program, lowerProgram options root = .ok program) ∧
      ∀ program, lowerProgram options root = .ok program →
        (∃ segments,
          program.instructions =
            [.loadAddress .stack Label.stackBegin.text, .call (Label.procedure options.entry).text,
              .halt] ++
              segments.flatten ++
              (root.globalDeclarations.flatMap fun declared =>
                [.label (Label.global declared.name).text, .reserve declared.size]) ++
              [.label Label.stackBegin.text] ∧
            List.Forall₂ IsSegment root.procedureNames segments) ∧
        (definedLabels program.instructions).Nodup ∧
        (∀ target, .call target ∈ program.instructions →
          ∃ callee, target = (Label.procedure callee).text ∧
            (target ∈ definedLabels program.instructions ↔ callee ∈ root.procedureNames)) ∧
        ∀ register target, .loadAddress register target ∈ program.instructions →
          (target ∈ definedLabels program.instructions ↔
            target = Label.stackBegin.text ∨
              ∃ declared ∈ root.globalDeclarations,
                target = (Label.global declared.name).text) := by
  refine ⟨exists_lowerProgram options, fun program lowered => ?_⟩
  obtain ⟨items, rfl, shape⟩ := parse_shape parsed
  obtain ⟨listed, -⟩ := lowerProgram_eq shape lowered
  rw [listed]
  refine ⟨?_, Node.nodup_definedLabels _ shape procedures globals, ?_, ?_⟩
  · obtain ⟨segments, whole, pieces⟩ := @Node.exists_segments options.annotate
      (Node.globalDeclarationsAll items).reverse items shape 0
    refine ⟨segments, ?_, ?_⟩
    · rw [Node.listing, Node.programOutput, whole, Node.data_itemsOutput shape]
      rfl
    · rw [Node.procedureNames, Node.procedureNamesAll_eq_map shape, List.forall₂_map_left_iff]
      exact pieces.imp fun procedure code isCode => isCode.isSegment
  · intro target member
    obtain ⟨callee, rfl⟩ := Node.exists_callee shape member
    refine ⟨callee, rfl, ?_⟩
    rw [Node.mem_definedLabels_listing shape rfl]
    simp [Node.procedureNames]
  · intro register target member
    rcases Node.exists_global shape member with rfl | ⟨name, rfl⟩ <;>
      rw [Node.mem_definedLabels_listing shape rfl] <;>
      simp [Label.text_inj, Node.globalDeclarations]

/-- A choice in a loop, a global array, and a call of a procedure that is missing. -/
def nestedSource : String :=
  "var g[2];
   proc main() begin while g[1] do if g then f(1) else h() end end end
   proc f(n) begin g := n end"

/-- The tree of the program. -/
def nestedTree : Node :=
  .program [.declarations [⟨"g", 2⟩],
    .procedure ⟨"main", []⟩ [] (.block
      [.loop (.unary .dereference (.binary .add (.reference "g") (.constant 1)))
        (.block [.branch (.reference "g") (.block [.call "f" [.constant 1]])
          (some (.block [.call "h" []]))])]),
    .procedure ⟨"f", ["n"]⟩ [] (.block [.assign (.reference "g") (.reference "n")])]

set_option maxRecDepth 4000 in
/-- The pieces of both procedures stand between the start and the storage, and the
label of the missing procedure is not defined. -/
theorem lowerProgram_layout_nested :
    (parse nestedSource).1 = .ok nestedTree ∧
      ∃ program, lowerProgram .standard nestedTree = .ok program ∧
        (definedLabels program.instructions).Nodup ∧
        (∃ first second, program.instructions =
          startCode "main" ++ (first ++ second) ++
            [.label (Label.global "g").text, .reserve 2, .label Label.stackBegin.text] ∧
          IsSegment "main" first ∧ IsSegment "f" second) ∧
        (Label.procedure "f").text ∈ definedLabels program.instructions ∧
        (Label.procedure "h").text ∉ definedLabels program.instructions := by
  have parsed : (parse nestedSource).1 = .ok nestedTree := by with_unfolding_all rfl
  obtain ⟨-, laid⟩ := lowerProgram_layout (Prod.ext parsed rfl) (by decide) (by decide) .standard
  have lowered : ∃ program, lowerProgram .standard nestedTree = .ok program ∧
      .call (Label.procedure "f").text ∈ program.instructions ∧
      .call (Label.procedure "h").text ∈ program.instructions :=
    ⟨_, rfl, by decide, by decide⟩
  obtain ⟨program, ran, called, missed⟩ := lowered
  obtain ⟨⟨segments, whole, pieces⟩, nodup, calls, -⟩ := laid program ran
  have defined : ∀ name, .call (Label.procedure name).text ∈ program.instructions →
      ((Label.procedure name).text ∈ definedLabels program.instructions ↔
        name ∈ nestedTree.procedureNames) := by
    intro name member
    obtain ⟨callee, same, iff⟩ := calls _ member
    obtain rfl := Label.procedure.inj (Label.text_injective same)
    exact iff
  obtain _ | ⟨first, _ | ⟨second, _ | _⟩⟩ := pieces
  refine ⟨parsed, program, ran, nodup, ⟨_, _, ?_, first, second⟩,
    (defined _ called).mpr (by decide),
    fun member => absurd ((defined _ missed).mp member) (by decide)⟩
  rw [whole]
  simp [nestedTree, startCode, LoweringOptions.standard, Node.globalDeclarations,
    Node.globalDeclarationsAll]

end ProcLang
