import ProcLang.Proofs.Lowering.Asides
import ProcLang.Proofs.Lowering.Following
import ProcLang.Proofs.Lowering.Labels
import ProcLang.Proofs.Lowering.ProcedureStack
import ProcLang.Proofs.Semantics.Named

/-!
# Lowered programs in closed form

A program of procedures and declarations is lowered to the code that starts it,
the code of its procedures in order, the storage of its globals in order, and
the label of the stack (`lowerProgram_eq`). The code of every procedure stands
in one piece (`Node.exists_segment`), and every label of the whole is defined
once (`Node.nodup_definedLabels`).
-/

set_option autoImplicit false

namespace ProcLang

/-! ## Code without data -/

/-- Nothing that is planned reserves storage. -/
structure Plan.Bare (plan : Plan) : Prop where
  value : ∀ cursor pushed label, (plan.value cursor pushed label).data = []
  address : ∀ cursor pushed label, (plan.address cursor pushed label).data = []
  effect : ∀ pushed label, (plan.effect pushed label).data = []

theorem Output.aside_data : Output.Aside Output.data where
  append _ _ := rfl
  code _ := rfl
  event _ _ := rfl

@[simp] theorem Plan.data_remark (annotate : Bool) (text : String) :
    (remark annotate text).data = [] :=
  part_remark Output.aside_data annotate text

@[simp] theorem Plan.data_reach (name : String) (scope : Scope) : (reach name scope).data = [] := by
  unfold reach
  split <;> rfl

theorem Node.Command.bare {annotate : Bool} {resolve : String → Address} {node : Node}
    (command : node.Command) : (node.plan annotate resolve).Bare := by
  have lacks := @Command.lacks _ _ Output.aside_data annotate resolve node command
  exact ⟨lacks.value, lacks.address, lacks.effect⟩

/-! ## Items -/

namespace Node

section

variable (annotate : Bool) (globals : List Declaration)

/-- What is emitted for an item, from the number of the next choice or loop on. -/
def itemOutput : Node → Nat → Output
  | .procedure heading locals body, label =>
      Plan.procedure annotate heading locals
        (body.plan annotate (Scope.resolve ⟨locals, heading.parameters⟩ globals)) label
  | node, label => (node.plan annotate (Scope.empty.resolve globals)).effect 0 label

/-- How many choices and loops of an item are lowered. -/
def itemChoices : Node → Nat
  | .procedure heading locals body =>
      (body.plan annotate (Scope.resolve ⟨locals, heading.parameters⟩ globals)).choices
  | node => (node.plan annotate (Scope.empty.resolve globals)).choices

/-- What is emitted for items, in order. -/
def itemsOutput : List Node → Nat → Output
  | [], _ => .empty
  | item :: rest, label =>
      item.itemOutput annotate globals label ++
        itemsOutput rest (label + item.itemChoices annotate globals)

/-- How many choices and loops of items are lowered. -/
def itemsChoices (items : List Node) : Nat :=
  (items.map (itemChoices annotate globals)).sum

end

end Node

namespace Emitter

/-- What is known of a walk over items: it emits a planned output, and it leaves
the globals and the remarks as they were. -/
def Lists (walk : Emitter Unit) (planned : Bool → List Declaration → Nat → Output)
    (choices : Bool → List Declaration → Nat) : Prop :=
  ∀ before : Context, ∃ after : Context,
    walk.Ends before () after (planned before.annotate before.globals before.nextLabel) ∧
      after.annotate = before.annotate ∧ after.globals = before.globals ∧
      after.nextLabel = before.nextLabel + choices before.annotate before.globals

theorem lists_item {node : Node} (shape : node.Item) :
    (item node).Lists (fun annotate globals => node.itemOutput annotate globals)
      (fun annotate globals => node.itemChoices annotate globals) := by
  intro before
  cases shape with
  | declarations declared =>
      have ends :
          (item (.declarations declared)).Ends before () _ (.empty ++ Plan.reserve declared) :=
        .bind (ends_enter .empty before) (ends_reserveAll declared _)
      exact ⟨_, ends, rfl, rfl, rfl⟩
  | @procedure heading locals body reach command =>
      obtain ⟨cursor, ends⟩ := ends_procedure heading locals body before
      exact ⟨_, ends, rfl, rfl, rfl⟩

theorem lists_itemAll {items : List Node} (shape : ∀ item ∈ items, item.Item) :
    (itemAll items).Lists (fun annotate globals => Node.itemsOutput annotate globals items)
      (fun annotate globals => Node.itemsChoices annotate globals items) := by
  induction items with
  | nil => exact fun before => ⟨before, ends_pure () before, rfl, rfl, rfl⟩
  | cons item rest ih =>
      intro before
      obtain ⟨middle, first, annotate, globals, label⟩ :=
        lists_item (shape item List.mem_cons_self) before
      obtain ⟨after, others, annotate', globals', label'⟩ :=
        ih (fun item member => shape item (.tail _ member)) middle
      rw [annotate, globals, label] at others label'
      refine ⟨after, .bind first others, annotate'.trans annotate, globals'.trans globals, ?_⟩
      simp [label', Node.itemsChoices, Nat.add_assoc]

theorem ends_recordGlobals (declared : List Declaration) (before : Context) :
    (declared.forM recordGlobal).Ends before ()
      { before with globals := declared.reverse ++ before.globals } .empty := by
  induction declared generalizing before with
  | nil => exact ends_pure () before
  | cons first rest ih =>
      have recorded : (recordGlobal first).Ends before ()
          { before with globals := first :: before.globals } .empty :=
        ends_change fun changed done => by simpa using done.symm
      exact Ends.congr (.bind recorded (ih _)) (by simp) rfl

/-- The log entry for an entry that no procedure defines. -/
def entryNote (entry : String) (root : Node) : Output :=
  if root.procedureNames.contains entry then .empty else .ofEvent (.entryUndefined entry)

@[simp] theorem code_entryNote (entry : String) (root : Node) :
    (entryNote entry root).code = [] := by
  unfold entryNote
  split <;> rfl

@[simp] theorem data_entryNote (entry : String) (root : Node) :
    (entryNote entry root).data = [] := by
  unfold entryNote
  split <;> rfl

/-- What a program does before its items are lowered. -/
def opening (entry : String) (root : Node) : Emitter Unit := do
  root.globalDeclarations.forM recordGlobal
  unless root.procedureNames.contains entry do
    note (.entryUndefined entry)
  emit (.loadAddress .stack Label.stackBegin.text)
  emit (.call (Label.procedure entry).text)
  emit .halt

theorem program_eq (entry : String) (root : Node) :
    program entry root = opening entry root >>= fun _ => item root := by
  simp only [program, opening, bind_assoc]
  congr 1
  funext _
  split <;> simp only [bind_assoc]

end Emitter

/-- The code that starts a program. -/
def startCode (entry : String) : List Instruction :=
  [.loadAddress .stack Label.stackBegin.text, .call (Label.procedure entry).text, .halt]

/-- What is emitted for all items of a program. -/
def Node.programOutput (annotate : Bool) (items : List Node) : Output :=
  itemsOutput annotate (globalDeclarationsAll items).reverse items 0

/-- All globals are known before the first item is lowered. -/
theorem Emitter.ends_opening (entry : String) (root : Node) (annotate : Bool) :
    (opening entry root).Ends (Context.initial annotate) ()
      { Context.initial annotate with globals := root.globalDeclarations.reverse }
      (entryNote entry root ++ .ofCode (startCode entry)) := by
  have recorded := ends_recordGlobals root.globalDeclarations (Context.initial annotate)
  rw [show (Context.initial annotate).globals = [] from rfl, List.append_nil] at recorded
  have started : ∀ before : Context, (do
      emit (.loadAddress .stack Label.stackBegin.text)
      emit (.call (Label.procedure entry).text)
      emit .halt).Ends before () before (.ofCode (startCode entry)) := fun before =>
    Ends.congr (.bind (ends_emit _ _) (.bind (ends_emit _ _) (ends_emit _ _))) rfl rfl
  refine Ends.congr (.bind recorded ?_) rfl (Output.empty_append _)
  unfold entryNote
  split
  next => exact started _
  next => exact .bind (ends_note _ _) (started _)

theorem Emitter.ends_program (entry : String) {items : List Node}
    (shape : ∀ item ∈ items, item.Item) (annotate : Bool) :
    ∃ after, (Emitter.program entry (.program items)).Ends (Context.initial annotate) () after
      (entryNote entry (.program items) ++ .ofCode (startCode entry) ++
        Node.programOutput annotate items) := by
  obtain ⟨after, listed, -, -, -⟩ := lists_itemAll shape
    { Context.initial annotate with globals := (Node.program items).globalDeclarations.reverse }
  rw [program_eq]
  exact ⟨after, .bind (ends_opening entry (.program items) annotate) listed⟩

/-- The code and the data of a program, from its start to the label of the stack. -/
def Node.listing (annotate : Bool) (entry : String) (items : List Node) : List Instruction :=
  startCode entry ++ (programOutput annotate items).code ++ (programOutput annotate items).data ++
    [.label Label.stackBegin.text]

/-- **A lowered program is its start, its procedures, its globals and the label of
the stack.** -/
theorem lowerProgram_eq {options : LoweringOptions} {items : List Node} {program : LoweredProgram}
    (shape : ∀ item ∈ items, item.Item)
    (lowered : lowerProgram options (.program items) = .ok program) :
    program.instructions = Node.listing options.annotate options.entry items ∧
      ∀ event ∈ (Node.programOutput options.annotate items).events, event ∈ program.events := by
  obtain ⟨after, ends⟩ := Emitter.ends_program options.entry shape options.annotate
  unfold lowerProgram at lowered
  split at lowered
  next => cases lowered
  next emitted ran =>
    obtain rfl := ends emitted ran
    cases lowered
    refine ⟨?_, fun event member => ?_⟩
    · simp [Node.listing]
    · simp [member]

/-! ## Parts of a program -/

section Parts

variable {annotate : Bool} {globals : List Declaration} {items : List Node} {procedure : Procedure}

/-- What is emitted for a procedure. -/
def Procedure.output (procedure : Procedure) (annotate : Bool) (globals : List Declaration)
    (label : Nat) : Output :=
  Plan.procedure annotate procedure.heading procedure.locals
    (procedure.body.plan annotate (procedure.scope.resolve globals)) label

theorem Procedure.code_output (procedure : Procedure) (label : Nat) :
    (procedure.output annotate globals label).code =
      prologue annotate procedure.heading procedure.scope.frameSize ++
        ((procedure.body.plan annotate (procedure.scope.resolve globals)).effect 0 label).code ++
        epilogue procedure.scope.frameSize :=
  Plan.code_procedure _ _ _ _ _

/-- Every procedure of a program is as the grammar wants it. -/
theorem Node.shape_of_mem_procedures (shape : ∀ item ∈ items, item.Item)
    (member : procedure ∈ proceduresAll items) :
    procedure.scope.frameExtent?.isSome ∧ procedure.body.Command := by
  induction items with
  | nil => cases member
  | cons item rest ih =>
      rcases List.mem_append.mp member with here | later
      · cases shape item List.mem_cons_self with
        | declarations declared => cases here
        | procedure heading locals reach command =>
            obtain rfl := List.mem_singleton.mp here
            exact ⟨reach, command⟩
      · exact ih (fun item listed => shape item (.tail _ listed)) later

/-- **The code of a procedure stands in one piece.** -/
theorem Node.exists_segment (shape : ∀ item ∈ items, item.Item)
    (member : procedure ∈ proceduresAll items) (label : Nat) :
    ∃ front back label',
      (itemsOutput annotate globals items label).code =
        front ++ (procedure.output annotate globals label').code ++ back ∧
      ∀ event ∈ (procedure.output annotate globals label').events,
        event ∈ (itemsOutput annotate globals items label).events := by
  induction items generalizing label with
  | nil => cases member
  | cons item rest ih =>
      rcases List.mem_append.mp member with here | later
      · cases shape item List.mem_cons_self with
        | declarations declared => cases here
        | procedure heading locals reach command =>
            obtain rfl := List.mem_singleton.mp here
            exact ⟨[], _, label, rfl, fun event listed => List.mem_append_left _ listed⟩
      · obtain ⟨front, back, label', code, events⟩ :=
          ih (fun item listed => shape item (.tail _ listed)) later
            (label + item.itemChoices annotate globals)
        refine ⟨(item.itemOutput annotate globals label).code ++ front, back, label', ?_,
          fun event listed => List.mem_append_right _ (events event listed)⟩
        rw [itemsOutput, Output.code_append, code]
        simp only [List.append_assoc]

/-- The data of a program is the storage of its globals. -/
theorem Node.data_itemsOutput (shape : ∀ item ∈ items, item.Item) (label : Nat) :
    (itemsOutput annotate globals items label).data =
      (Plan.reserve (globalDeclarationsAll items)).data := by
  induction items generalizing label with
  | nil => rfl
  | cons item rest ih =>
      have others := ih (fun item listed => shape item (.tail _ listed))
        (label + item.itemChoices annotate globals)
      rw [itemsOutput, Output.data_append, others, globalDeclarationsAll]
      cases shape item List.mem_cons_self with
      | declarations declared => exact List.flatMap_append.symm
      | @procedure heading locals body reach command =>
          have bare : (itemOutput annotate globals (.procedure heading locals body) label).data =
              [] := by
            simp [itemOutput, Plan.procedure, command.bare.effect]
          rw [bare]
          rfl

end Parts

/-! ## Labels of a program -/

section Labels

variable {annotate : Bool} {globals : List Declaration} {items : List Node}

theorem definedLabels_prologue (annotate : Bool) (heading : Header) (words : Nat) :
    definedLabels (prologue annotate heading words) = [(Label.procedure heading.name).text] := by
  have framed : definedLabels (frameCode words) = [] := by
    unfold frameCode
    split <;> rfl
  rw [prologue, definedLabels_append, framed, List.append_nil]
  cases annotate <;> rfl

theorem definedLabels_procedure (heading : Header) (locals : List Declaration) (body : Plan)
    (label : Nat) :
    definedLabels (Plan.procedure annotate heading locals body label).code =
      (Label.procedure heading.name).text :: definedLabels (body.effect 0 label).code := by
  have ended : ∀ words, definedLabels (epilogue words) = [] := by
    intro words
    rw [epilogue, definedLabels_append, definedLabels_dropCode]
    rfl
  rw [Plan.code_procedure, definedLabels_append, definedLabels_append, definedLabels_prologue,
    ended,
    List.append_nil]
  rfl

/-- The labels of items are those of the procedures and numbered ones. -/
theorem Node.labels_itemsOutput (shape : ∀ item ∈ items, item.Item) (label : Nat) :
    ∃ numbers, Numbered label (label + itemsChoices annotate globals items) numbers ∧
      (definedLabels (itemsOutput annotate globals items label).code).Perm
        ((procedureNamesAll items).map (fun name => (Label.procedure name).text) ++ numbers) := by
  induction items generalizing label with
  | nil => exact ⟨[], numbered_nil, .refl _⟩
  | cons item rest ih =>
      obtain ⟨numbers, numbered, perm⟩ := ih (fun item listed => shape item (.tail _ listed))
        (label + item.itemChoices annotate globals)
      have total : label + itemsChoices annotate globals (item :: rest) =
          label + item.itemChoices annotate globals + itemsChoices annotate globals rest := by
        simp [itemsChoices, Nat.add_assoc]
      rw [itemsOutput, Output.code_append, definedLabels_append, procedureNamesAll, total]
      cases shape item List.mem_cons_self with
      | declarations declared => exact ⟨numbers, numbered, perm⟩
      | @procedure heading locals body reach command =>
          have own := (body.plan_numbers annotate
            (Scope.resolve ⟨locals, heading.parameters⟩ globals)).effect 0 label
          refine ⟨_, own.append numbered (Nat.le_refl _) (Nat.le_add_right _ _)
            (Nat.le_add_right _ _), ?_⟩
          simp only [itemOutput, definedLabels_procedure, procedureNames, List.map_cons,
            List.cons_append, List.nil_append]
          exact .cons _ ((perm.append_left _).trans (List.perm_append_comm_assoc _ _ _))

theorem definedLabels_reserve (declared : List Declaration) :
    definedLabels (Plan.reserve declared).data =
      declared.map fun entry => (Label.global entry.name).text := by
  induction declared with
  | nil => rfl
  | cons entry rest ih =>
      rw [Plan.reserve, List.flatMap_cons, definedLabels_append, List.map_cons, ← ih]
      rfl

theorem nodup_map_text {names : List String} {family : String → Label} (distinct : names.Nodup)
    (injective : ∀ name name', family name = family name' → name = name') :
    (names.map fun name => (family name).text).Nodup :=
  List.Pairwise.map _ (fun _ _ different same =>
    different (injective _ _ (Label.text_injective same))) distinct

/-- **Every label of a program is defined once**, if no two procedures and no two
globals share a name. -/
theorem Node.nodup_definedLabels (entry : String) (shape : ∀ item ∈ items, item.Item)
    (procedures : (procedureNamesAll items).Nodup)
    (distinct : ((globalDeclarationsAll items).map Declaration.name).Nodup) :
    (definedLabels (listing annotate entry items)).Nodup := by
  obtain ⟨numbers, numbered, perm⟩ := @labels_itemsOutput annotate
    (globalDeclarationsAll items).reverse items shape 0
  unfold listing programOutput
  simp only [definedLabels_append, data_itemsOutput shape, definedLabels_reserve,
    definedLabels_label]
  rw [show definedLabels (startCode entry) = [] from rfl, List.nil_append]
  have perm' := (perm.append_right ((globalDeclarationsAll items).map fun entry =>
    (Label.global entry.name).text)).append_right [Label.stackBegin.text]
  have named :
      ((globalDeclarationsAll items).map fun entry => (Label.global entry.name).text).Nodup := by
    have := nodup_map_text distinct fun name name' => Label.global.inj
    rwa [List.map_map] at this
  rw [perm'.nodup_iff]
  refine List.nodup_append.mpr ⟨List.nodup_append.mpr ⟨List.nodup_append.mpr
    ⟨nodup_map_text procedures fun name name' => Label.procedure.inj, numbered.nodup, ?_⟩, named,
      ?_⟩,
    List.pairwise_singleton _ _, ?_⟩
  all_goals
    simp only [List.mem_append, List.mem_map, List.mem_singleton]
  · rintro _ ⟨name, -, rfl⟩ number member same
    obtain ⟨place, id, choice, spelled, -, -⟩ := numbered.range number member
    obtain rfl := Label.text_injective (same.trans spelled.symm)
    cases choice
  · rintro text (⟨name, -, rfl⟩ | member) _ ⟨declared, -, rfl⟩ same
    · cases Label.text_injective same
    · obtain ⟨place, id, choice, spelled, -, -⟩ := numbered.range text member
      obtain rfl := Label.text_injective (spelled.trans same)
      cases choice
  · rintro text ((⟨name, -, rfl⟩ | member) | ⟨declared, -, rfl⟩) _ rfl same
    · cases Label.text_injective same
    · obtain ⟨place, id, choice, spelled, -, -⟩ := numbered.range text member
      obtain rfl := Label.text_injective (spelled.trans same)
      cases choice
    · cases Label.text_injective same

end Labels

end ProcLang
