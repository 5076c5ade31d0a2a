import ProcLang.Proofs.Lowering.StaticStorage
import ProcLang.Proofs.Lowering.View

/-!
# The order of global declarations

All globals are known before the first item is lowered, and items that only declare
variables emit no code. So such items may stand anywhere among the others: if no two
globals share a name, a program has the same code and the same log wherever they stand,
and the same storage in their order (`lowerProgram_reordered`).

Two orders of the globals are two views of the program, which every item respects
(`View.reordering`). An item that declares variables leaves nothing behind that the next
item looks at, so it can be left out (`Emitter.emits_filter`).
-/

set_option autoImplicit false

namespace ProcLang

/-! ## Globals in another order -/

section Sizes

variable {globals globals' : List Declaration}

/-- Among declarations of different names there is one for each name. -/
theorem find?_name_iff (distinct : (globals.map Declaration.name).Nodup) (name : String)
    (declared : Declaration) :
    (globals.find? fun other => other.name == name) = some declared ↔
      declared ∈ globals ∧ declared.name = name := by
  constructor
  · intro found
    exact ⟨List.mem_of_find?_eq_some found, by simpa using List.find?_some found⟩
  · rintro ⟨member, rfl⟩
    cases found : globals.find? fun other => other.name == declared.name with
    | none => exact absurd (List.find?_eq_none.mp found declared member) (by simp)
    | some other =>
        have named : other.name = declared.name := by simpa using List.find?_some found
        rw [List.inj_on_of_nodup_map distinct (List.mem_of_find?_eq_some found) member named]

theorem sizeIn?_of_mem {declared : Declaration}
    (distinct : (globals.map Declaration.name).Nodup) (member : declared ∈ globals) :
    sizeIn? globals declared.name = some declared.size := by
  rw [sizeIn?, (find?_name_iff distinct _ declared).mpr ⟨member, rfl⟩]
  rfl

/-- The order of globals with different names does not matter for their sizes. -/
theorem sizeIn?_eq_of_perm (distinct : (globals.map Declaration.name).Nodup)
    (perm : globals.Perm globals') (name : String) :
    sizeIn? globals' name = sizeIn? globals name := by
  have distinct' : (globals'.map Declaration.name).Nodup :=
    (perm.map Declaration.name).nodup_iff.mp distinct
  have same : (globals'.find? fun other => other.name == name) =
      globals.find? fun other => other.name == name := by
    refine Option.ext fun declared => ?_
    rw [find?_name_iff distinct', find?_name_iff distinct, perm.mem_iff]
  rw [sizeIn?, sizeIn?, same]

end Sizes

/-- The view in which globals are known in another order. -/
def View.reordering {globals globals' : List Declaration}
    (same : ∀ name, sizeIn? globals' name = sizeIn? globals name) : View where
  annotate := id
  globals := fun known => if known = globals then globals' else known
  output := id
  size_eq := by
    intro known name
    by_cases known_eq : known = globals
    · rw [if_pos known_eq, known_eq, same]
    · rw [if_neg known_eq]
  output_empty := rfl
  output_append := fun _ _ => rfl
  output_code := fun _ _ => rfl
  output_data := fun _ => rfl
  output_event := fun _ => rfl
  output_remark := fun _ _ => rfl

namespace Node

/-- Whether a node declares variables and nothing else. -/
def declares : Node → Bool
  | .declarations _ | .declaration _ => true
  | _ => false

/-- The procedures of a program are its items that are procedures. -/
theorem procedureNames_eq (root : Node) :
    root.procedureNames = root.leaves.flatMap procedureNames := by
  induction root with
  | program items ih =>
      rw [procedureNames, leaves]
      induction items with
      | nil => rfl
      | cons item rest ihRest =>
          rw [procedureNamesAll, leavesAll, List.flatMap_append, ih item List.mem_cons_self,
            ihRest fun other member => ih other (.tail _ member)]
  | _ => exact (List.append_nil _).symm

theorem flatMap_procedureNames_filter (items : List Node) :
    (items.filter fun node => !node.declares).flatMap procedureNames =
      items.flatMap procedureNames := by
  induction items with
  | nil => rfl
  | cons node rest ih =>
      by_cases declares : node.declares
      · have none : node.procedureNames = [] := by
          cases node with
          | declarations declared => rfl
          | declaration declared => rfl
          | _ => cases declares
        rw [List.filter_cons_of_neg (by simp [declares]), ih, List.flatMap_cons, none]
        rfl
      · rw [List.filter_cons_of_pos (by simp [declares]), List.flatMap_cons, ih,
          List.flatMap_cons]

end Node

namespace Emitter

variable {α β : Type}

/-- What a walk emits, but for storage. -/
def emits (walk : Emitter α) (before : Context) : Except Overflow (List Instruction × List Event) :=
  (walk.run before).map fun emitted => (emitted.output.code, emitted.output.events)

theorem emits_bind (first : Emitter α) (second : α → Emitter β) (before : Context) :
    (first >>= second).emits before = (first.run before).bind fun middle =>
      ((second middle.value).emits middle.context).map fun more =>
        (middle.output.code ++ more.1, middle.output.events ++ more.2) := by
  unfold emits
  rw [run_bind]
  rcases first.run before with overflow | middle
  · rfl
  · simp only [Except.bind]
    rcases (second middle.value).run middle.context with overflow | last <;> rfl

/-- What is emitted does not depend on the order of the globals. -/
theorem Respects.emits_eq {walk : Emitter α} {globals globals' : List Declaration}
    (same : ∀ name, sizeIn? globals' name = sizeIn? globals name)
    (respects : walk.Respects (.reordering same)) (annotate : Bool) (label : Nat) :
    walk.emits (.fresh annotate globals' label) = walk.emits (.fresh annotate globals label) := by
  have reordered : (View.reordering same).context (.fresh annotate globals label) =
      .fresh annotate globals' label := by
    simp [View.context, View.reordering, Context.fresh]
  have ran := respects (.fresh annotate globals label)
  rw [reordered] at ran
  unfold emits
  rw [ran]
  rcases walk.run (.fresh annotate globals label) with overflow | emitted <;> rfl

/-! ## Declarations among the items -/

/-- Declarations emit storage only, and they leave nothing behind that an item looks
at. -/
theorem yields_item_of_declares {node : Node} (declares : node.declares) (before : Context) :
    ∃ after data, (item node).Yields before () after ⟨[], data, []⟩ ∧
      after.refreshed = before.refreshed := by
  let entered : Context :=
    { before with
      scope := .empty
      pushed := 0
      pendingArguments := 0
      cursor := Register.scratchBase }
  have enters : (enter .empty).Yields before () entered .empty := rfl
  cases node with
  | declarations declared =>
      have reserves := (ends_reserveAll declared entered).yields (finishes_reserveAll declared)
      have whole : (enter .empty >>= fun _ => declared.forM reserveGlobal).Yields before () entered
          (.empty ++ Plan.reserve declared) := enters.andThen reserves
      exact ⟨entered, _, whole, rfl⟩
  | declaration declared =>
      have reserves := (ends_reserveGlobal declared entered).yields ⟨_, rfl⟩
      have whole : (enter .empty >>= fun _ => reserveGlobal declared).Yields before () entered
          (.empty ++ Plan.reserve [declared]) := enters.andThen reserves
      exact ⟨entered, _, whole, rfl⟩
  | _ => cases declares

theorem emits_forM_cons (node : Node) (rest : List Node) (before : Context) :
    ((node :: rest).forM item).emits before = ((item node).run before).bind fun middle =>
      ((rest.forM item).emits middle.context).map fun more =>
        (middle.output.code ++ more.1, middle.output.events ++ more.2) :=
  emits_bind _ _ before

theorem emits_forM_refreshed {items : List Node}
    (leaves : ∀ node ∈ items, node.isProgram = false) (before : Context) :
    (items.forM item).emits before.refreshed = (items.forM item).emits before := by
  cases items with
  | nil => rfl
  | cons node rest =>
      have forgets := forgets_item (leaves node List.mem_cons_self) before
      rw [emits_forM_cons, emits_forM_cons, forgets]

/-- **Declarations can be left out among the items.** -/
theorem emits_filter {items : List Node} (leaves : ∀ node ∈ items, node.isProgram = false)
    (before : Context) :
    ((items.filter fun node => !node.declares).forM item).emits before =
      (items.forM item).emits before := by
  induction items generalizing before with
  | nil => rfl
  | cons node rest ih =>
      have others : ∀ other ∈ rest, other.isProgram = false := fun other member =>
        leaves other (.tail _ member)
      by_cases declares : node.declares
      · obtain ⟨after, data, yields, same⟩ := yields_item_of_declares declares before
        have kept : ∀ other ∈ rest.filter fun node => !node.declares, other.isProgram = false :=
          fun other member => others other (List.mem_of_mem_filter member)
        rw [List.filter_cons_of_neg (by simp [declares]), emits_forM_cons, yields,
          ← emits_forM_refreshed kept, ← same, emits_forM_refreshed kept, ih others]
        simp only [Except.bind, List.nil_append]
        rcases (rest.forM item).emits after with overflow | emitted <;> rfl
      · rw [List.filter_cons_of_pos (by simp [declares]), emits_forM_cons, emits_forM_cons]
        simp only [ih others]

theorem data_of_run {items : List Node} (leaves : ∀ node ∈ items, node.isProgram = false)
    {before : Context} {emitted : Emitted Unit} (ran : (items.forM item).run before = .ok emitted) :
    emitted.output.data = (Plan.reserve (items.flatMap Node.itemStorage)).data := by
  obtain ⟨outputs, itemized, -, data⟩ := exists_itemized leaves ran
  rw [data, itemized.data_eq leaves]

end Emitter

/-! ## Programs -/

/-- A program put together from its code, its log, and what storage is reserved for. -/
def LoweredProgram.ofParts (code : List Instruction) (events : List Event)
    (storage : List Declaration) : LoweredProgram :=
  let data := (Plan.reserve storage).data
  ⟨code ++ data ++ [.label Label.stackBegin.text], events ++ [.lowered code.length data.length]⟩

namespace Node

/-- The code and the log of a program: its start, and what its items emit from a context
that knows all globals. -/
def walked (options : LoweringOptions) (root : Node) :
    Except Overflow (List Instruction × List Event) :=
  ((root.leaves.forM Emitter.item).emits
    (.fresh options.annotate root.globalDeclarations.reverse 0)).map fun more =>
      (startCode options.entry ++ more.1,
        (Emitter.entryNote options.entry root).events ++ more.2)

end Node

/-- A program is lowered as its items are, and its storage comes after its code. -/
theorem lowerProgram_eq_walked (options : LoweringOptions) (root : Node) :
    lowerProgram options root =
      (root.walked options).map fun parts => .ofParts parts.1 parts.2 root.staticStorage := by
  have opened := (Emitter.ends_opening options.entry root options.annotate).yields
    (Emitter.finishes_opening options.entry root _)
  have fresh :
      { Context.initial options.annotate with globals := root.globalDeclarations.reverse } =
        Context.fresh options.annotate root.globalDeclarations.reverse 0 := rfl
  unfold lowerProgram Node.walked Emitter.emits
  rw [Emitter.program_eq, Emitter.item_eq_forM, Emitter.run_bind, opened]
  simp only [fresh]
  cases ran : (root.leaves.forM Emitter.item).run
      (.fresh options.annotate root.globalDeclarations.reverse 0) with
  | error overflow => rfl
  | ok emitted =>
      have data := Emitter.data_of_run root.isProgram_of_mem_leaves ran
      simp [Except.map, LoweredProgram.ofParts, Node.staticStorage, data]

section Reordered

variable {root root' : Node}

theorem Node.perm_globalDeclarations (perm : root.leaves.Perm root'.leaves) :
    root.globalDeclarations.Perm root'.globalDeclarations := by
  rw [globalDeclarations_eq, globalDeclarations_eq]
  exact perm.flatMap_right _

theorem Emitter.entryNote_reordered (entry : String)
    (order : (root.leaves.filter fun leaf => !leaf.declares) =
      root'.leaves.filter fun leaf => !leaf.declares) :
    entryNote entry root' = entryNote entry root := by
  have names : root'.procedureNames = root.procedureNames := by
    rw [Node.procedureNames_eq, Node.procedureNames_eq, ← Node.flatMap_procedureNames_filter,
      ← order, Node.flatMap_procedureNames_filter]
  rw [entryNote, entryNote, names]

/-- The sizes of all globals are known alike in both orders. -/
theorem Node.sizeIn?_reordered (distinct : (root.globalDeclarations.map Declaration.name).Nodup)
    (perm : root.leaves.Perm root'.leaves) (name : String) :
    sizeIn? root'.globalDeclarations.reverse name =
      sizeIn? root.globalDeclarations.reverse name := by
  have reversed : root.globalDeclarations.reverse.Perm root'.globalDeclarations.reverse :=
    (List.reverse_perm _).trans ((perm_globalDeclarations perm).trans (List.reverse_perm _).symm)
  exact sizeIn?_eq_of_perm (by rwa [List.map_reverse, List.nodup_reverse]) reversed name

/-- The code and the log do not depend on where variables are declared. -/
theorem Node.walked_reordered (options : LoweringOptions)
    (distinct : (root.globalDeclarations.map Declaration.name).Nodup)
    (perm : root.leaves.Perm root'.leaves)
    (order : (root.leaves.filter fun leaf => !leaf.declares) =
      root'.leaves.filter fun leaf => !leaf.declares) :
    root'.walked options = root.walked options := by
  have emitted : (root'.leaves.forM Emitter.item).emits
        (.fresh options.annotate root'.globalDeclarations.reverse 0) =
      (root.leaves.forM Emitter.item).emits
        (.fresh options.annotate root.globalDeclarations.reverse 0) := by
    rw [← Emitter.emits_filter root'.isProgram_of_mem_leaves, ← order,
      Emitter.emits_filter root.isProgram_of_mem_leaves]
    exact Emitter.Respects.emits_eq (sizeIn?_reordered distinct perm)
      (Emitter.respects_forM fun leaf _ => Emitter.respects_item leaf) options.annotate 0
  rw [walked, walked, emitted, Emitter.entryNote_reordered options.entry order]

/-- **Global declarations may stand anywhere.** Let the items of two programs be the same in
two orders, and let those that do more than declare variables be in the same order. If no two
globals share a name, then both programs have the same code and log, or both fail in the
same way. They reserve the same storage, each in the order of its items. In both of them a
global is lowered as an array exactly if it was declared as one, wherever no local and no
parameter has its name. -/
theorem lowerProgram_reordered (options : LoweringOptions)
    (distinct : (root.globalDeclarations.map Declaration.name).Nodup)
    (perm : root.leaves.Perm root'.leaves)
    (order : (root.leaves.filter fun leaf => !leaf.declares) =
      root'.leaves.filter fun leaf => !leaf.declares) :
    (∃ walked : Except Overflow (List Instruction × List Event),
      lowerProgram options root =
          walked.map (fun parts => .ofParts parts.1 parts.2 root.staticStorage) ∧
        lowerProgram options root' =
          walked.map fun parts => .ofParts parts.1 parts.2 root'.staticStorage) ∧
    root.staticStorage.Perm root'.staticStorage ∧
    ∀ declared ∈ root.globalDeclarations, ∀ context : Context,
      context.globals = root.globalDeclarations.reverse ∨
        context.globals = root'.globalDeclarations.reverse →
      context.IsFree declared.name → (context.Decays declared.name ↔ 1 < declared.words) := by
  refine ⟨⟨root.walked options, lowerProgram_eq_walked options root, ?_⟩,
    perm.flatMap_right _, ?_⟩
  · rw [← Node.walked_reordered options distinct perm order]
    exact lowerProgram_eq_walked options root'
  · intro declared member context known free
    have first : sizeIn? root.globalDeclarations.reverse declared.name = some declared.size :=
      sizeIn?_of_mem (by rwa [List.map_reverse, List.nodup_reverse]) (List.mem_reverse.mpr member)
    have size : context.globalSize? declared.name = some declared.size := by
      change sizeIn? context.globals declared.name = _
      rcases known with known | known
      · rw [known, first]
      · rw [known, Node.sizeIn?_reordered distinct perm, first]
    rw [Context.decays_iff free, size]
    simp [Declaration.words]

end Reordered

/-- An array declared after the procedure that uses it, or in front of all items: the code
is the same, and both times the array's name stands for its address. -/
theorem lowerProgram_reordered_array :
    let main : Node := .procedure ⟨"main", []⟩ [] (.assign (.reference "x") (.reference "a"))
    let late : Node := .program [.declarations [⟨"x", 1⟩], main, .declarations [⟨"a", 4⟩]]
    let early : Node := .program [.declarations [⟨"a", 4⟩], .declarations [⟨"x", 1⟩], main]
    (∃ code events,
      lowerProgram .standard late = .ok (.ofParts code events [⟨"x", 1⟩, ⟨"a", 4⟩]) ∧
        lowerProgram .standard early = .ok (.ofParts code events [⟨"a", 4⟩, ⟨"x", 1⟩])) ∧
    (Context.fresh false late.globalDeclarations.reverse 0).Decays "a" ∧
    (Context.fresh false early.globalDeclarations.reverse 0).Decays "a" := by
  intro main late early
  have distinct : (late.globalDeclarations.map Declaration.name).Nodup := by decide
  have perm : late.leaves.Perm early.leaves :=
    ((List.Perm.swap _ _ []).cons _).trans (.swap _ _ _)
  obtain ⟨⟨walked, first, second⟩, -, decays⟩ := lowerProgram_reordered .standard distinct perm rfl
  have array : (⟨"a", 4⟩ : Declaration) ∈ late.globalDeclarations := by decide
  refine ⟨?_, (decays _ array _ (.inl rfl) ⟨by decide, by decide⟩).mpr (by decide),
    (decays _ array _ (.inr rfl) ⟨by decide, by decide⟩).mpr (by decide)⟩
  cases walked with
  | error overflow =>
      have lowered : ∃ program, lowerProgram .standard late = .ok program := ⟨_, rfl⟩
      simp [first, Except.map] at lowered
  | ok parts => exact ⟨parts.1, parts.2, first, second⟩

end ProcLang
